import Mathlib.Logic.Function.Basic
import Mathlib.Data.List.Nodup

/-!
# Doubly linked lists

The links of a list are two functions on its nodes, `next` and `prev`, and `nil` stands for no
node. `Seg next prev b l e` says that the nodes of `l` are linked both ways, that the first one
comes after `b`, and the last one before `e`.

* `seg_append`: a segment splits anywhere.
* `Seg.congr`: a segment reads the links of its own nodes.
* `Seg.setEnd`, `Seg.setBegin`: what follows and what precedes a segment can be changed.
* `Seg.push`, `Seg.append`, `Seg.unlink`: the three changes of a list.
* `walk`: the nodes that a loop over `next` visits.
-/

namespace Dll

open Function

variable {α : Type} {next next' prev prev' : α → α} {b e x : α} {l m : List α}

/-- The segment `l` between `b` and `e`. -/
def Seg (next prev : α → α) : α → List α → α → Prop
  | _, [], _ => True
  | b, x :: l, e => prev x = b ∧ next x = l.headD e ∧ Seg next prev x l e

theorem headD_append (l m : List α) (e : α) : (l ++ m).headD e = l.headD (m.headD e) := by
  cases l <;> rfl

theorem seg_append : Seg next prev b (l ++ m) e ↔
    Seg next prev b l (m.headD e) ∧ Seg next prev (l.getLastD b) m e := by
  induction l generalizing b with
  | nil => exact (iff_of_eq (true_and _)).symm
  | cons x l ih =>
    rw [List.cons_append, List.getLastD_cons]
    show _ ∧ _ ∧ _ ↔ (_ ∧ _ ∧ _) ∧ _
    rw [ih, headD_append, and_assoc, and_assoc]

theorem Seg.congr (h : Seg next prev b l e) (hn : ∀ x ∈ l, next' x = next x)
    (hp : ∀ x ∈ l, prev' x = prev x) : Seg next' prev' b l e := by
  induction l generalizing b with
  | nil => trivial
  | cons x l ih =>
    obtain ⟨hpx, hnx, hl⟩ := h
    refine ⟨(hp x List.mem_cons_self).trans hpx, (hn x List.mem_cons_self).trans hnx, ?_⟩
    exact ih hl (fun y hy => hn y (List.mem_cons_of_mem x hy))
      fun y hy => hp y (List.mem_cons_of_mem x hy)

/-- The links of a node in the middle. -/
theorem Seg.middle (h : Seg next prev b (l ++ x :: m) e) :
    prev x = l.getLastD b ∧ next x = m.headD e := by
  obtain ⟨-, hp, hn, -⟩ := seg_append.mp h
  exact ⟨hp, hn⟩

section
variable [DecidableEq α]

/-- Another node follows: the last `next` is changed. -/
theorem Seg.setEnd (h : Seg next prev b (l ++ [x]) e) (hx : x ∉ l) (e' : α) :
    Seg (update next x e') prev b (l ++ [x]) e' := by
  obtain ⟨hl, hp, -, -⟩ := seg_append.mp h
  refine seg_append.mpr ⟨hl.congr (fun y hy => ?_) fun _ _ => rfl, hp, update_self .., trivial⟩
  exact update_of_ne (fun hyx : y = x => hx (hyx ▸ hy)) ..

/-- Another node precedes: the first `prev` is changed. -/
theorem Seg.setBegin (h : Seg next prev b (x :: m) e) (hx : x ∉ m) (b' : α) :
    Seg next (update prev x b') b' (x :: m) e := by
  obtain ⟨-, hn, hm⟩ := h
  refine ⟨update_self .., hn, hm.congr (fun _ _ => rfl) fun y hy => ?_⟩
  exact update_of_ne (fun hyx : y = x => hx (hyx ▸ hy)) ..

/-- The update of a function at a node, if there is one. -/
def setAt (nil : α) (f : α → α) (x v : α) : α → α := if x = nil then f else update f x v

theorem setAt_nil (nil : α) (f : α → α) (v : α) : setAt nil f nil v = f := if_pos rfl

theorem setAt_of_ne {nil : α} (f : α → α) (hx : x ≠ nil) (v : α) :
    setAt nil f x v = update f x v := if_neg hx

theorem setAt_apply_of_ne {nil y : α} (f : α → α) (v : α) (hy : y ≠ x) :
    setAt nil f x v y = f y := by
  unfold setAt
  split
  · rfl
  · exact update_of_ne hy ..

variable {nil : α}

/-- A node is put in front. -/
theorem Seg.push (h : Seg next prev nil l nil) (hnil : nil ∉ l) (hl : l.Nodup) (hx : x ∉ l) :
    Seg (update next x (l.headD nil)) (setAt nil (update prev x nil) (l.headD nil) x) nil
      (x :: l) nil := by
  cases l with
  | nil =>
    rw [List.headD_nil, setAt_nil]
    exact ⟨update_self .., update_self .., trivial⟩
  | cons y l =>
    have hyn : y ≠ nil := fun hy => hnil (hy ▸ List.mem_cons_self)
    have hxy : x ≠ y := fun hxy => hx (hxy ▸ List.mem_cons_self)
    have hne : ∀ z ∈ y :: l, z ≠ x := fun z hz hzx => hx (hzx ▸ hz)
    rw [List.headD_cons, setAt_of_ne _ hyn]
    refine ⟨?_, update_self .., ?_⟩
    · rw [update_of_ne hxy, update_self]
    · refine Seg.setBegin (h.congr (fun z hz => ?_) fun z hz => ?_) (List.nodup_cons.mp hl).1 x
      · exact update_of_ne (hne z hz) ..
      · exact update_of_ne (hne z hz) ..

/-- A node is put at the end. -/
theorem Seg.append (h : Seg next prev nil l nil) (hnil : nil ∉ l) (hl : l.Nodup) (hx : x ∉ l) :
    Seg (setAt nil (update next x nil) (l.getLastD nil) x) (update prev x (l.getLastD nil)) nil
      (l ++ [x]) nil := by
  have hne : ∀ z ∈ l, z ≠ x := fun z hz hzx => hx (hzx ▸ hz)
  obtain rfl | ⟨l, y, rfl⟩ := List.eq_nil_or_concat' l
  · rw [List.getLastD_nil, setAt_nil]
    exact ⟨update_self .., update_self .., trivial⟩
  · have hyn : y ≠ nil := fun hy => hnil (hy ▸ List.mem_append_right l List.mem_cons_self)
    have hyl : y ∉ l := (List.nodup_append.mp hl).2.2 |> fun h hm => h y hm y List.mem_cons_self rfl
    rw [List.getLastD_concat, setAt_of_ne _ hyn]
    refine seg_append.mpr ⟨?_, ?_, ?_, trivial⟩
    · refine Seg.setEnd (h.congr (fun z hz => ?_) fun z hz => ?_) hyl x
      · exact update_of_ne (hne z hz) ..
      · exact update_of_ne (hne z hz) ..
    · rw [update_self, List.getLastD_concat]
    · have hxy : x ≠ y := fun hxy => hx (hxy ▸ List.mem_append_right l List.mem_cons_self)
      rw [update_of_ne hxy, update_self]
      rfl

/-- A node is taken out. -/
theorem Seg.unlink (h : Seg next prev nil (l ++ x :: m) nil) (hnil : nil ∉ l ++ x :: m)
    (hl : (l ++ x :: m).Nodup) :
    Seg (setAt nil next (prev x) (next x)) (setAt nil prev (next x) (prev x)) nil (l ++ m) nil := by
  obtain ⟨hp, hn⟩ := h.middle
  obtain ⟨hpre, -, -, hpost⟩ := seg_append.mp h
  obtain ⟨hndl, hndm, hdis⟩ := List.nodup_append.mp hl
  have hdis' : ∀ y ∈ l, y ∉ m := fun y hy hm => hdis y hy y (List.mem_cons_of_mem x hm) rfl
  rw [hp, hn]
  have hpre' : Seg (setAt nil next (l.getLastD nil) (m.headD nil)) prev nil l (m.headD nil) := by
    obtain rfl | ⟨l, y, rfl⟩ := List.eq_nil_or_concat' l
    · trivial
    · have hyn : y ≠ nil := fun hyn => hnil (by simp [hyn])
      have hyl : y ∉ l := fun hm => (List.nodup_append.mp hndl).2.2 y hm y List.mem_cons_self rfl
      rw [List.getLastD_concat, setAt_of_ne _ hyn]
      exact hpre.setEnd hyl _
  have hpost' : Seg next (setAt nil prev (m.headD nil) (l.getLastD nil)) (l.getLastD nil) m
      nil := by
    cases m with
    | nil => trivial
    | cons z m =>
      have hzn : z ≠ nil := fun hzn => hnil (by simp [hzn])
      rw [List.headD_cons, setAt_of_ne _ hzn]
      exact hpost.setBegin (List.nodup_cons.mp (List.nodup_cons.mp hndm).2).1 _
  -- each half keeps the links that the other one changes
  refine seg_append.mpr ⟨hpre'.congr (fun _ _ => rfl) fun y hy => ?_,
    hpost'.congr (fun y hy => ?_) fun _ _ => rfl⟩
  · cases m with
    | nil => rw [List.headD_nil, setAt_nil]
    | cons z m =>
      rw [List.headD_cons]
      exact setAt_apply_of_ne _ _ fun hyz => hdis' y hy (hyz ▸ List.mem_cons_self)
  · obtain rfl | ⟨l, z, rfl⟩ := List.eq_nil_or_concat' l
    · rw [List.getLastD_nil, setAt_nil]
    · rw [List.getLastD_concat]
      refine setAt_apply_of_ne _ _ fun hyz => hdis' y ?_ hy
      rw [hyz]
      exact List.mem_append_right l List.mem_cons_self

/-! ## Loops over `next` -/

/-- The nodes that a loop visits from `x` on, if it ends within `n` of them. -/
def walk (next : α → α) (nil : α) : Nat → α → Option (List α)
  | 0, x => if x = nil then some [] else none
  | n + 1, x => if x = nil then some [] else (walk next nil n (next x)).map (x :: ·)

theorem Seg.walk {n : Nat} (h : Seg next prev b l nil) (hnil : nil ∉ l) (hn : l.length ≤ n) :
    walk next nil n (l.headD nil) = some l := by
  induction l generalizing b n with
  | nil =>
    cases n with
    | zero => exact if_pos rfl
    | succ n => exact if_pos rfl
  | cons x l ih =>
    obtain ⟨n, rfl⟩ : ∃ k, n = k + 1 := Nat.exists_eq_succ_of_ne_zero (Nat.ne_of_gt
      (Nat.lt_of_lt_of_le (Nat.succ_pos _) hn))
    obtain ⟨-, hnx, hl⟩ := h
    have hx : x ≠ nil := fun hx => hnil (hx ▸ List.mem_cons_self)
    rw [List.headD_cons]
    unfold walk
    rw [if_neg hx, hnx, ih hl (fun hm => hnil (List.mem_cons_of_mem x hm))
      (Nat.le_of_succ_le_succ hn)]
    rfl

end

end Dll
