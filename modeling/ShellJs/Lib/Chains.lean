import Mathlib.Algebra.BigOperators.Group.Finset.Piecewise
import Mathlib.Algebra.BigOperators.Ring.Finset
import ShellJs.Lib.Dll

/-!
# Buckets of linked nodes

A hash table with separate chaining links the nodes of one bucket in a list of its own.
`Chained` says that the lists of the buckets below `n` hold the nodes of `l`, each in the bucket
of its index.

* `Chained.push`, `Chained.remove`: a node is put in front of its bucket and taken out of it.
* `Chained.sum_count`: the counters of the buckets sum up to the number of nodes.
* `search`: the loop that looks for a node in a bucket.
-/

namespace Dll

open Function

variable {α : Type} {next prev : α → α} {nil : α} {head : Nat → α} {count : Nat → Nat}
  {idx : α → Nat} {n i : Nat} {l m c : List α} {x : α}

/-- The list of one bucket, with its head and its counter. -/
structure Bucket (next prev : α → α) (nil : α) (head : α) (count : Nat) (c : List α) : Prop where
  nodup : c.Nodup
  head : head = c.headD nil
  count : count = c.length
  seg : Seg next prev nil c nil

/-- The nodes of `l` are in the buckets of their indices. -/
def Chained (next prev : α → α) (nil : α) (head : Nat → α) (count : Nat → Nat) (idx : α → Nat)
    (n : Nat) (l : List α) : Prop :=
  ∀ i < n, ∃ c, Bucket next prev nil (head i) (count i) c ∧ ∀ x, x ∈ c ↔ x ∈ l ∧ idx x = i

theorem headD_mem (l : List α) (nil : α) : l.headD nil = nil ∨ l.headD nil ∈ l := by
  cases l with
  | nil => exact Or.inl rfl
  | cons x l => exact Or.inr List.mem_cons_self

theorem chained_nil (hh : ∀ i < n, head i = nil) (hc : ∀ i < n, count i = 0) :
    Chained next prev nil head count idx n [] := by
  intro i hi
  refine ⟨[], ⟨List.nodup_nil, hh i hi, hc i hi, trivial⟩, fun x => ?_⟩
  exact ⟨fun h => absurd h List.not_mem_nil, fun h => absurd h.1 List.not_mem_nil⟩

/-- Only the members of the list count, not their order. -/
theorem Chained.congr_mem (h : Chained next prev nil head count idx n l)
    (hlm : ∀ x, x ∈ m ↔ x ∈ l) : Chained next prev nil head count idx n m := by
  intro i hi
  obtain ⟨c, hb, hc⟩ := h i hi
  exact ⟨c, hb, fun x => by rw [hc, hlm]⟩

/-- Only the indices of the members count. -/
theorem Chained.congr_idx {idx' : α → Nat} (h : Chained next prev nil head count idx n l)
    (hidx : ∀ x ∈ l, idx' x = idx x) : Chained next prev nil head count idx' n l := by
  intro i hi
  obtain ⟨c, hb, hc⟩ := h i hi
  refine ⟨c, hb, fun x => (hc x).trans (and_congr_right fun hx => ?_)⟩
  rw [hidx x hx]

theorem Bucket.congr {hd : α} {k : Nat} {next' prev' : α → α}
    (h : Bucket next prev nil hd k c) (hn : ∀ y ∈ c, next' y = next y)
    (hp : ∀ y ∈ c, prev' y = prev y) : Bucket next' prev' nil hd k c :=
  ⟨h.nodup, h.head, h.count, h.seg.congr hn hp⟩

section
variable [DecidableEq α]

theorem Chained.push (h : Chained next prev nil head count idx n l) (hnil : nil ∉ x :: l)
    (hx : x ∉ l) (hi : idx x < n) :
    Chained (update next x (head (idx x))) (setAt nil (update prev x nil) (head (idx x)) x) nil
      (update head (idx x) x) (update count (idx x) (count (idx x) + 1)) idx n (x :: l) := by
  obtain ⟨c₀, hb₀, hc₀⟩ := h (idx x) hi
  intro j hj
  obtain ⟨c, hb, hc⟩ := h j hj
  have hcx : ∀ y ∈ c, y ≠ x := fun y hy hyx => hx (hyx ▸ ((hc y).mp hy).1)
  by_cases hjx : j = idx x
  · subst hjx
    refine ⟨x :: c, ⟨?_, ?_, ?_, ?_⟩, fun y => ?_⟩
    · exact List.nodup_cons.mpr ⟨fun hm => hcx x hm rfl, hb.nodup⟩
    · exact update_self ..
    · rw [update_self, hb.count]
      rfl
    · rw [hb.head]
      refine hb.seg.push (fun hm => hnil ?_) hb.nodup fun hm => hcx x hm rfl
      exact List.mem_cons_of_mem x ((hc nil).mp hm).1
    · rw [List.mem_cons, List.mem_cons, hc]
      constructor
      · rintro (rfl | ⟨hy, hyi⟩)
        · exact ⟨Or.inl rfl, rfl⟩
        · exact ⟨Or.inr hy, hyi⟩
      · rintro ⟨hy | hy, hyi⟩
        · exact Or.inl hy
        · exact Or.inr ⟨hy, hyi⟩
  · refine ⟨c, ?_, fun y => ?_⟩
    · rw [update_of_ne hjx, update_of_ne hjx]
      refine hb.congr (fun y hy => update_of_ne (hcx y hy) ..) fun y hy => ?_
      have hyh : y ≠ head (idx x) := by
        intro hyh
        have hyn : y ≠ nil := fun hyn => hnil (hyn ▸ List.mem_cons_of_mem x ((hc y).mp hy).1)
        rcases headD_mem c₀ nil with h₀ | h₀
        · exact hyn (hyh.trans (hb₀.head.trans h₀))
        · rw [← hb₀.head, ← hyh, hc₀] at h₀
          exact hjx (((hc y).mp hy).2.symm.trans h₀.2)
      rw [setAt_apply_of_ne _ _ hyh, update_of_ne (hcx y hy)]
    · rw [hc, List.mem_cons]
      constructor
      · exact fun h => ⟨Or.inr h.1, h.2⟩
      · rintro ⟨rfl | hy, hyi⟩
        · exact absurd hyi.symm hjx
        · exact ⟨hy, hyi⟩

theorem Chained.remove (h : Chained next prev nil head count idx n l) (hnil : nil ∉ l)
    (hl : l.Nodup) (hx : x ∈ l) (hi : idx x < n) :
    Chained (setAt nil next (prev x) (next x)) (setAt nil prev (next x) (prev x)) nil
      (update head (idx x) (if head (idx x) = x then next x else head (idx x)))
      (update count (idx x) (count (idx x) - 1)) idx n (l.erase x) := by
  obtain ⟨c₀, hb₀, hc₀⟩ := h (idx x) hi
  have hnil₀ : nil ∉ c₀ := fun hm => hnil ((hc₀ nil).mp hm).1
  have hmem : ∀ (j : Nat) (y : α), y ∈ l.erase x ∧ idx y = j ↔ y ≠ x ∧ y ∈ l ∧ idx y = j := by
    intro j y
    rw [hl.mem_erase_iff, and_assoc]
  obtain ⟨a, b, hab⟩ := List.append_of_mem ((hc₀ x).mpr ⟨hx, rfl⟩)
  obtain ⟨hp, hn⟩ := (hab ▸ hb₀.seg).middle
  have hxa : x ∉ a := fun hm =>
    (List.nodup_append.mp (hab ▸ hb₀.nodup)).2.2 x hm x List.mem_cons_self rfl
  have hxb : x ∉ b := (List.nodup_cons.mp (List.nodup_append.mp (hab ▸ hb₀.nodup)).2.1).1
  intro j hj
  by_cases hjx : j = idx x
  · subst hjx
    refine ⟨a ++ b, ⟨?_, ?_, ?_, ?_⟩, fun y => ?_⟩
    · have hsub : (a ++ b).Sublist c₀ := by
        rw [hab]
        exact (List.sublist_cons_self x b).append_left a
      exact hsub.nodup hb₀.nodup
    · -- the first node of the bucket is `x` only if nothing precedes it
      rw [update_self, hb₀.head, hab]
      cases a with
      | nil => exact (if_pos rfl).trans hn
      | cons y a => exact if_neg fun hyx : y = x => hxa (hyx ▸ List.mem_cons_self)
    · rw [update_self, hb₀.count, hab, List.length_append, List.length_append, List.length_cons]
      rfl
    · have hseg := hb₀.seg
      have hnd := hb₀.nodup
      rw [hab] at hseg hnd hnil₀
      exact hseg.unlink hnil₀ hnd
    · have hy : y ∈ c₀ ↔ y ∈ a ++ b ∨ y = x := by
        rw [hab, List.mem_append, List.mem_append, List.mem_cons]
        tauto
      rw [hmem, ← hc₀, hy]
      constructor
      · intro hm
        refine ⟨?_, Or.inl hm⟩
        rintro rfl
        rcases List.mem_append.mp hm with h | h
        · exact hxa h
        · exact hxb h
      · rintro ⟨hyx, hm | hm⟩
        · exact hm
        · exact absurd hm hyx
  · obtain ⟨c, hb, hc⟩ := h j hj
    have hother : ∀ y ∈ c, y ∉ c₀ := fun y hy hy₀ =>
      hjx (((hc y).mp hy).2.symm.trans ((hc₀ y).mp hy₀).2)
    have hynil : ∀ y ∈ c, y ≠ nil := fun y hy hyn => hnil (hyn ▸ ((hc y).mp hy).1)
    refine ⟨c, ?_, fun y => ?_⟩
    · rw [update_of_ne hjx, update_of_ne hjx]
      refine hb.congr (fun y hy => setAt_apply_of_ne _ _ ?_) fun y hy => setAt_apply_of_ne _ _ ?_
      · rintro rfl
        rcases List.mem_cons.mp (List.getLastD_mem_cons (l := a) (a := nil)) with h₀ | h₀
        · exact hynil _ hy (hp.trans h₀)
        · rw [← hp] at h₀
          exact hother _ hy (hab ▸ List.mem_append_left _ h₀)
      · rintro rfl
        rcases headD_mem b nil with h₀ | h₀
        · exact hynil _ hy (hn.trans h₀)
        · rw [← hn] at h₀
          exact hother _ hy (hab ▸ List.mem_append_right _ (List.mem_cons_of_mem x h₀))
    · rw [hmem, hc]
      constructor
      · refine fun hy => ⟨?_, hy⟩
        rintro rfl
        exact hjx hy.2.symm
      · exact fun hy => hy.2

end

/-! ## Counters -/

/-- The counter of a bucket is the number of nodes with its index. -/
theorem Bucket.count_eq {hd : α} {k : Nat} (hb : Bucket next prev nil hd k c)
    (hc : ∀ x, x ∈ c ↔ x ∈ l ∧ idx x = i) (hl : l.Nodup) :
    k = (l.filter fun x => decide (idx x = i)).length := by
  rw [hb.count]
  refine List.Perm.length_eq ((List.perm_ext_iff_of_nodup hb.nodup (hl.filter _)).mpr fun x => ?_)
  rw [hc, List.mem_filter, decide_eq_true_iff]

theorem sum_filter (l : List α) (hidx : ∀ x ∈ l, idx x < n) :
    ∑ i ∈ Finset.range n, (l.filter fun x => decide (idx x = i)).length = l.length := by
  induction l with
  | nil => exact Finset.sum_eq_zero fun _ _ => rfl
  | cons x l ih =>
    have hstep : ∀ i, ((x :: l).filter fun x => decide (idx x = i)).length =
        (l.filter fun x => decide (idx x = i)).length + if idx x = i then 1 else 0 := by
      intro i
      by_cases hi : idx x = i
      · simp [hi]
      · simp [hi]
    rw [Finset.sum_congr rfl fun i _ => hstep i, Finset.sum_add_distrib,
      ih fun y hy => hidx y (List.mem_cons_of_mem x hy), Finset.sum_ite_eq,
      if_pos (Finset.mem_range.mpr (hidx x List.mem_cons_self))]
    rfl

theorem Chained.count_eq (h : Chained next prev nil head count idx n l) (hl : l.Nodup)
    (hi : i < n) : count i = (l.filter fun x => decide (idx x = i)).length := by
  obtain ⟨c, hb, hc⟩ := h i hi
  exact hb.count_eq hc hl

theorem Chained.sum_count (h : Chained next prev nil head count idx n l) (hl : l.Nodup)
    (hidx : ∀ x ∈ l, idx x < n) : ∑ i ∈ Finset.range n, count i = l.length := by
  rw [← sum_filter l hidx]
  exact Finset.sum_congr rfl fun i hi => h.count_eq hl (Finset.mem_range.mp hi)

/-! ## Searches -/

section
variable [DecidableEq α]

/-- The first node from `x` on that `hit` accepts, if the search ends within `n` nodes; `nil`
when it runs to the end. -/
def search (next : α → α) (nil : α) (hit : α → Bool) : Nat → α → Option α
  | 0, x => if x = nil then some nil else none
  | n + 1, x =>
    if x = nil then some nil
    else if hit x then some x
    else search next nil hit n (next x)

theorem Seg.search {b : α} {hit : α → Bool} (h : Seg next prev b l nil) (hnil : nil ∉ l)
    (hn : l.length ≤ n) :
    search next nil hit n (l.headD nil) = some ((l.find? hit).getD nil) := by
  induction l generalizing b n with
  | nil =>
    cases n with
    | zero => exact if_pos rfl
    | succ n => exact if_pos rfl
  | cons x l ih =>
    obtain ⟨n, rfl⟩ : ∃ k, n = k + 1 := Nat.exists_eq_succ_of_ne_zero (Nat.ne_of_gt
      (Nat.lt_of_lt_of_le (Nat.succ_pos _) hn))
    obtain ⟨-, hnx, hl⟩ := h
    have hx : x ≠ nil := fun hx => hnil (hx ▸ List.mem_cons_self)
    rw [List.headD_cons]
    unfold Dll.search
    rw [if_neg hx]
    cases hh : hit x with
    | true => rw [if_pos rfl, List.find?_cons_of_pos hh]; rfl
    | false =>
      rw [if_neg Bool.false_ne_true, List.find?_cons_of_neg (by rw [hh]; exact Bool.false_ne_true),
        hnx]
      exact ih hl (fun hm => hnil (List.mem_cons_of_mem x hm)) (Nat.le_of_succ_le_succ hn)

/-- A search in the buckets finds the node that `hit` accepts, if there is one. -/
theorem Chained.search (hit : α → Bool) {k : Nat}
    (h : Chained next prev nil head count idx n l) (hnil : nil ∉ l) (hi : i < n)
    (hk : count i ≤ k) (hidx : ∀ y ∈ l, hit y → idx y = i)
    (huniq : ∀ y ∈ l, ∀ z ∈ l, hit y → hit z → y = z) :
    Dll.search next nil hit k (head i) = some ((l.find? hit).getD nil) := by
  obtain ⟨c, hb, hc⟩ := h i hi
  have hsame : c.find? hit = l.find? hit := by
    cases hf : c.find? hit with
    | none =>
      refine (List.find?_eq_none.mpr fun y hy hyh => ?_).symm
      exact List.find?_eq_none.mp hf y ((hc y).mpr ⟨hy, hidx y hy hyh⟩) hyh
    | some y =>
      have hy := ((hc y).mp (List.mem_of_find?_eq_some hf)).1
      have hyh := List.find?_some hf
      cases hg : l.find? hit with
      | none => exact absurd hyh (List.find?_eq_none.mp hg y hy)
      | some z =>
        rw [huniq y hy z (List.mem_of_find?_eq_some hg) hyh (List.find?_some hg)]
  rw [hb.head, hb.seg.search (fun hm => hnil ((hc nil).mp hm).1) (hb.count ▸ hk), hsame]

end

end Dll
