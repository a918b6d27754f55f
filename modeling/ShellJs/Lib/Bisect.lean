import Mathlib.Data.List.Basic

/-!
# Bisection

A search in a table by a comparison that is positive on the entries before the wanted one, zero on
it, and negative behind it.

* `bisect_eq_some_iff`: in a table along which the comparison falls, the search finds the wanted
  entry, and nothing else.
-/

namespace Bisect

variable {β : Type}

/-- The search from `start` to before `stop`, with `fuel` for the entries between them. -/
def bisect (table : List β) (cmp : β → Int) : Nat → Nat → Nat → Option Nat
  | 0, _, _ => none
  | fuel + 1, start, stop =>
    if start < stop then
      let mid := start + (stop - start) / 2
      match table[mid]? with
      | none => none
      | some v =>
        if cmp v < 0 then bisect table cmp fuel start mid
        else if cmp v > 0 then bisect table cmp fuel (mid + 1) stop
        else some mid
    else none

/-- The comparison falls along the table, and is zero once at most. -/
def Falls (table : List β) (cmp : β → Int) : Prop :=
  table.Pairwise fun x y => cmp x ≤ 0 → cmp y < 0

variable {table : List β} {cmp : β → Int} {i mid : Nat} {x v : β}

theorem Falls.neg (h : Falls table cmp) {j : Nat} {y : β} (hi : table[i]? = some x)
    (hj : table[j]? = some y) (hij : i < j) (hx : cmp x ≤ 0) : cmp y < 0 := by
  obtain ⟨hi', rfl⟩ := List.getElem?_eq_some_iff.mp hi
  obtain ⟨hj', rfl⟩ := List.getElem?_eq_some_iff.mp hj
  exact List.pairwise_iff_getElem.mp h i j hi' hj' hij hx

/-- The comparison says on which side of an entry the wanted one is. -/
theorem Falls.side (h : Falls table cmp) (hv : table[mid]? = some v) (hx : table[i]? = some x)
    (hzero : cmp x = 0) :
    (cmp v < 0 ∧ i < mid) ∨ (cmp v = 0 ∧ i = mid) ∨ (0 < cmp v ∧ mid < i) := by
  rcases Nat.lt_trichotomy i mid with hlt | rfl | hgt
  · exact Or.inl ⟨h.neg hx hv hlt (Int.le_of_eq hzero), hlt⟩
  · rw [hv] at hx
    obtain rfl := Option.some.inj hx
    exact Or.inr (Or.inl ⟨hzero, rfl⟩)
  · refine Or.inr (Or.inr ⟨Int.lt_of_not_ge fun hle => ?_, hgt⟩)
    exact absurd hzero (Int.ne_of_lt (h.neg hv hx hgt hle))

theorem bisect_eq_some_iff (h : Falls table cmp) {fuel start stop : Nat}
    (hfuel : stop - start ≤ fuel) (hstop : stop ≤ table.length) :
    bisect table cmp fuel start stop = some i ↔
      start ≤ i ∧ i < stop ∧ ∃ x, table[i]? = some x ∧ cmp x = 0 := by
  induction fuel generalizing start stop with
  | zero =>
    constructor
    · exact nofun
    · rintro ⟨hs, he, -⟩
      omega
  | succ fuel ih =>
    rw [bisect]
    split
    · rename_i hlt
      obtain ⟨mid, hmid⟩ : ∃ mid, mid = start + (stop - start) / 2 := ⟨_, rfl⟩
      have hv : table[mid]? = some table[mid] := List.getElem?_eq_getElem (by omega)
      simp only [← hmid, hv]
      split
      · rw [ih (by omega) (by omega)]
        constructor
        · rintro ⟨hs, hm, hx⟩
          exact ⟨hs, by omega, hx⟩
        · rintro ⟨hs, he, x, hx, hzero⟩
          rcases h.side hv hx hzero with ⟨-, hi⟩ | ⟨hc, -⟩ | ⟨hc, -⟩
          · exact ⟨hs, hi, x, hx, hzero⟩
          · omega
          · omega
      · split
        · rw [ih (by omega) (by omega)]
          constructor
          · rintro ⟨hs, hm, hx⟩
            exact ⟨by omega, hm, hx⟩
          · rintro ⟨hs, he, x, hx, hzero⟩
            rcases h.side hv hx hzero with ⟨hc, -⟩ | ⟨hc, -⟩ | ⟨-, hi⟩
            · omega
            · omega
            · exact ⟨hi, he, x, hx, hzero⟩
        · constructor
          · rintro heq
            obtain rfl := Option.some.inj heq
            exact ⟨by omega, by omega, _, hv, by omega⟩
          · rintro ⟨hs, he, x, hx, hzero⟩
            rcases h.side hv hx hzero with ⟨hc, -⟩ | ⟨-, rfl⟩ | ⟨hc, -⟩
            · omega
            · rfl
            · omega
    · constructor
      · exact nofun
      · rintro ⟨hs, he, -⟩
        omega

end Bisect
