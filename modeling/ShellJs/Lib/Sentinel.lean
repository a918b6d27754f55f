import Mathlib.Data.List.TakeWhile

/-!
# Sequences that end at a sentinel

A buffer stands for the elements before its first sentinel, whatever follows it: with NUL as the
sentinel this is a C string.

* `cut`: these elements. `cut_eq_self_iff` and `flatMap_cut_eq_iff` say when nothing is lost, of one
  sequence or of several put together.
* `scan`: a loop that moves a cursor on until the sentinel or another element stops it.
  `scan_eq` says that it stops within the buffer, behind a maximal run.
-/

namespace Sentinel

variable {β : Type} [DecidableEq β] {z : β} {l : List β} {k : Nat} {go : β → Bool}

/-! ## The elements before the sentinel -/

def cut (z : β) (l : List β) : List β := l.takeWhile (· ≠ z)

theorem cut_cons_self : cut z (z :: l) = [] := by
  unfold cut
  exact List.takeWhile_cons_of_neg (by simp)

theorem cut_cons_of_ne {x : β} (hx : x ≠ z) : cut z (x :: l) = x :: cut z l := by
  unfold cut
  exact List.takeWhile_cons_of_pos (by simpa using hx)

theorem cut_eq_self_iff : cut z l = l ↔ z ∉ l := by
  unfold cut
  rw [List.takeWhile_eq_self_iff]
  constructor
  · intro h hz
    simpa using h z hz
  · rintro h x hx
    have hne : x ≠ z := fun heq => h (heq ▸ hx)
    simpa using hne

theorem length_cut_le : (cut z l).length ≤ l.length := (List.takeWhile_prefix _).length_le

/-- What follows the sentinel does not count. -/
theorem cut_append_sentinel (rest : List β) : cut z (l ++ z :: rest) = cut z l := by
  induction l with
  | nil => exact cut_cons_self
  | cons x l ih =>
    show cut z (x :: (l ++ z :: rest)) = _
    obtain rfl | hx := eq_or_ne x z
    · rw [cut_cons_self, cut_cons_self]
    · rw [cut_cons_of_ne hx, cut_cons_of_ne hx, ih]

/-- A list with the sentinel in it: what stands before the first one, it, and the rest. -/
theorem exists_eq_cut_append (hz : z ∈ l) : ∃ rest, l = cut z l ++ z :: rest := by
  induction l with
  | nil => cases hz
  | cons x l ih =>
    obtain rfl | hx := eq_or_ne x z
    · exact ⟨l, by rw [cut_cons_self, List.nil_append]⟩
    · obtain ⟨rest, hrest⟩ := ih ((List.mem_cons.mp hz).resolve_left (Ne.symm hx))
      exact ⟨rest, by rw [cut_cons_of_ne hx, List.cons_append, ← hrest]⟩

theorem cut_drop (hk : k ≤ (cut z l).length) : cut z (l.drop k) = (cut z l).drop k := by
  induction l generalizing k with
  | nil => rw [List.drop_nil, cut, List.takeWhile_nil, List.drop_nil]
  | cons x l ih =>
    cases k with
    | zero => rfl
    | succ k =>
      obtain rfl | hx := eq_or_ne x z
      · rw [cut_cons_self] at hk
        exact absurd hk (Nat.not_succ_le_zero k)
      · rw [cut_cons_of_ne hx] at hk ⊢
        exact ih (Nat.le_of_succ_le_succ hk)

theorem mem_drop (hz : z ∈ l) (hk : k ≤ (cut z l).length) : z ∈ l.drop k := by
  induction l generalizing k with
  | nil => cases hz
  | cons x l ih =>
    cases k with
    | zero => exact hz
    | succ k =>
      obtain rfl | hx := eq_or_ne x z
      · rw [cut_cons_self] at hk
        exact absurd hk (Nat.not_succ_le_zero k)
      · rw [cut_cons_of_ne hx] at hk
        exact ih ((List.mem_cons.mp hz).resolve_left hx.symm) (Nat.le_of_succ_le_succ hk)

theorem length_flatMap_cut_le (ls : List (List β)) :
    (ls.flatMap (cut z)).length ≤ ls.flatten.length := by
  induction ls with
  | nil => exact Nat.le_refl 0
  | cons l ls ih =>
    rw [List.flatMap_cons, List.flatten_cons, List.length_append, List.length_append]
    exact Nat.add_le_add length_cut_le ih

/-- Sequences put together lose nothing when none of them does. -/
theorem flatMap_cut_eq_iff (ls : List (List β)) :
    ls.flatMap (cut z) = ls.flatten ↔ ∀ l ∈ ls, z ∉ l := by
  induction ls with
  | nil => exact iff_of_true rfl fun _ h => nomatch h
  | cons l ls ih =>
    rw [List.flatMap_cons, List.flatten_cons, List.forall_mem_cons, ← ih, ← cut_eq_self_iff]
    constructor
    · intro h
      -- neither part is longer than what it is cut from, so the lengths agree part by part
      have hlen := congrArg List.length h
      rw [List.length_append, List.length_append] at hlen
      have hl : (cut z l).length ≤ l.length := length_cut_le
      have hls := @length_flatMap_cut_le β _ z ls
      exact List.append_inj h (by omega)
    · rintro ⟨hl, hls⟩
      rw [hl, hls]

/-! ## A loop that looks for the end of a run -/

/-- The buffer from the cursor on after `while (*p != z && go(*p)) p++`, or `none` when the cursor
leaves the buffer. -/
def scan (z : β) (go : β → Bool) : List β → Option (List β)
  | [] => none
  | x :: l => if x ≠ z ∧ go x then scan z go l else some (x :: l)

/-- The loop stops behind the maximal run, at the sentinel at the latest. -/
theorem scan_eq (go : β → Bool) (hz : z ∈ l) :
    scan z go l = some (l.drop ((cut z l).takeWhile go).length) := by
  induction l with
  | nil => cases hz
  | cons x l ih =>
    unfold scan
    obtain rfl | hx := eq_or_ne x z
    · rw [if_neg fun h => h.1 rfl, cut_cons_self]
      rfl
    · rw [cut_cons_of_ne hx]
      cases hgo : go x with
      | true =>
        rw [if_pos ⟨hx, rfl⟩, List.takeWhile_cons_of_pos hgo]
        exact ih ((List.mem_cons.mp hz).resolve_left hx.symm)
      | false =>
        rw [if_neg fun h => Bool.false_ne_true h.2,
          List.takeWhile_cons_of_neg (hgo ▸ Bool.false_ne_true)]
        rfl

theorem length_takeWhile_cut_le : ((cut z l).takeWhile go).length ≤ (cut z l).length :=
  (List.takeWhile_prefix _).length_le

/-- What the cursor stands before then. -/
theorem cut_scanned :
    cut z (l.drop ((cut z l).takeWhile go).length) = (cut z l).dropWhile go := by
  have hparts : (cut z l).takeWhile go ++ (cut z l).dropWhile go = cut z l :=
    List.takeWhile_append_dropWhile
  rw [cut_drop length_takeWhile_cut_le]
  exact (congrArg (List.drop _) hparts.symm).trans List.drop_left

end Sentinel
