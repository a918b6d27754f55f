import Mathlib.Data.Rat.Floor
import Mathlib.Tactic.Linarith
import ShellJs.File.Lifecycle

/-!
# Numbers that are no handle

`fclose`, `pclose`, `readline` and `writestring` convert their first argument by `(int)x`, test the
sign, and look the id up.

* `trunc_eq_iff`: the numbers that the conversion takes to an id.
* `target_number`: what a number designates.
* `number_untouched_iff`: the calls touch nothing exactly when the conversion is no live id.
* `fclose_fraction`: a number between two ids closes the handle below it.
-/

namespace ShellJs

open Runs

/-! ## Truncation -/

theorem trunc_of_nonneg {q : Rat} (hq : 0 ≤ q) : q.num.tdiv q.den = ⌊q⌋ := by
  rw [Int.tdiv_eq_ediv_of_nonneg (Rat.num_nonneg.mpr hq), Rat.floor_def']

theorem trunc_of_neg {q : Rat} (hq : q < 0) : q.num.tdiv q.den = -⌊-q⌋ := by
  have hpos := trunc_of_nonneg (Left.nonneg_neg_iff.mpr hq.le)
  rw [Rat.num_neg_eq_neg_num, Rat.den_neg_eq_den, Int.neg_tdiv] at hpos
  exact neg_eq_iff_eq_neg.mp hpos

/-- The numbers with the integer part `n`: those from `n` up to the next integer, and for 0 the
negative ones above -1. -/
def HasIntPart (q : Rat) (n : Int) : Prop := n ≤ q ∧ q < n + 1 ∨ n = 0 ∧ -1 < q ∧ q < 0

theorem trunc_eq_iff {q : Rat} {n : Int} (hn : 0 ≤ n) :
    q.num.tdiv q.den = n ↔ HasIntPart q n := by
  unfold HasIntPart
  have hn' : (0 : Rat) ≤ n := Int.cast_nonneg hn
  rcases lt_or_ge q 0 with hq | hq
  · have hfloor : 0 ≤ ⌊-q⌋ := Int.floor_nonneg.mpr (by linarith)
    rw [trunc_of_neg hq]
    constructor
    · intro h
      have hzero : ⌊-q⌋ = 0 := by omega
      have hlt := (Int.floor_eq_iff.mp hzero).2
      exact .inr ⟨by omega, by push_cast at hlt; linarith, hq⟩
    · rintro (⟨hle, -⟩ | ⟨rfl, hlo, -⟩)
      · linarith
      · have hzero : ⌊-q⌋ = 0 := by
          refine Int.floor_eq_iff.mpr ⟨?_, ?_⟩ <;> push_cast <;> linarith
        rw [hzero, neg_zero]
  · rw [trunc_of_nonneg hq, Int.floor_eq_iff]
    constructor
    · exact .inl
    · rintro (h | ⟨-, -, hlt⟩)
      · exact h
      · linarith

/-- The numbers whose integer part is in the range of `int`. -/
def InIntRange (q : Rat) : Prop := -2 ^ 31 - 1 < q ∧ q < 2 ^ 31

theorem trunc_range {q : Rat} (h : InIntRange q) :
    -2 ^ 31 ≤ q.num.tdiv q.den ∧ q.num.tdiv q.den < 2 ^ 31 := by
  obtain ⟨hlo, hhi⟩ := h
  rcases lt_or_ge q 0 with hq | hq
  · have hnonneg : 0 ≤ ⌊-q⌋ := Int.floor_nonneg.mpr (by linarith)
    have hlt : ⌊-q⌋ < 2 ^ 31 + 1 := Int.floor_lt.mpr (by push_cast; linarith)
    rw [trunc_of_neg hq]
    omega
  · have hnonneg : 0 ≤ ⌊q⌋ := Int.floor_nonneg.mpr hq
    have hlt : ⌊q⌋ < 2 ^ 31 := Int.floor_lt.mpr (by push_cast; linarith)
    rw [trunc_of_nonneg hq]
    omega

/-- The numbers that are converted to a non-negative id. -/
theorem toInt_finite_iff {wild : JsNumber → CInt} {q : Rat} {id : CInt} (h : InIntRange q)
    (hid : 0 ≤ id.toInt) :
    JsNumber.toInt wild (.finite q) = id ↔ HasIntPart q id.toInt := by
  obtain ⟨hlo, hhi⟩ := trunc_range h
  rw [← trunc_eq_iff hid]
  unfold JsNumber.toInt
  show (if _ then _ else _) = id ↔ _
  rw [if_pos ⟨hlo, hhi⟩]
  constructor
  · intro hconv
    rw [← hconv, BitVec.toInt_ofInt_eq_self (by decide) (by omega) (by omega)]
  · intro htrunc
    rw [htrunc, BitVec.ofInt_toInt]

namespace FileLib

variable {wild : JsNumber → CInt} {s s' : FileLib} {x : JsNumber} {rest : List Val} {id : CInt}

/-! ## What a number designates -/

/-- `id` is the number of an open file. -/
def LiveId (s : FileLib) (id : CInt) : Prop := 0 ≤ id.toInt ∧ ∃ e, s.openedFiles.get id = some e

theorem target_number (x : JsNumber) (rest : List Val) :
    s.target wild (.number x :: rest) = none ↔ ¬ s.LiveId (x.toInt wild) := by
  unfold target handleId LiveId
  show (Option.bind (if _ then _ else _) _ = none) ↔ _
  split
  · next hnn =>
    rw [Option.bind_some, Option.map_eq_none_iff, Option.eq_none_iff_forall_ne_some]
    exact ⟨fun h ⟨_, e, he⟩ => h e he, fun h e he => h ⟨hnn, e, he⟩⟩
  · next hneg => exact iff_of_true rfl fun h => hneg h.1

/-- All four calls return `undefined` and leave handles, streams and all else as they were. -/
def Untouched (wild : JsNumber → CInt) (s : FileLib) (args : List Val) : Prop :=
  jscFclose wild args s = .ok (s, .undefined) ∧ jscPclose wild args s = .ok (s, .undefined) ∧
    (∀ env, jscReadline wild args env s = .ok (s, .undefined)) ∧
    ∀ convs, jscWritestring wild args convs s = .ok (s, .undefined)

theorem untouched_of_none {args : List Val} (hinv : s.Inv) (ht : s.target wild args = none) :
    Untouched wild s args :=
  ⟨closeHandle_none hinv ht, closeHandle_none hinv ht, fun _ => jscReadline_none hinv ht,
    fun _ => jscWritestring_none hinv ht⟩

/-- A live handle is touched: `fclose` closes it. -/
theorem not_untouched_of_some {args : List Val} {t : CInt × Ptr × Res FileHandle} (hinv : s.Inv)
    (ht : s.target wild args = some t) : ¬ Untouched wild s args := by
  obtain ⟨id, p, res⟩ := t
  rintro ⟨hclose, -⟩
  obtain ⟨s', fp, kind, hs', hc⟩ := closeHandle_some hinv ht
  obtain ⟨-, hg⟩ := target_eq_some.mp ht
  rw [show closeHandle wild args s = .ok (s, .undefined) from hclose] at hs'
  cases hs'
  rw [hc.get, if_pos rfl] at hg
  cases hg

/-- Closing depends on the id alone. -/
theorem closeHandle_congr {args args' : List Val} (h : handleId wild args = handleId wild args') :
    closeHandle wild args = closeHandle wild args' := by
  unfold closeHandle getHandle
  rw [h]

/-- In every reachable state, a number leaves all as it was exactly when its conversion to `int` is
not the id of a live handle. In the range of `int` the conversion is the integer part. -/
theorem number_untouched_iff (calls : List Call)
    (hs : exec (step wild) (installFileLib .init) calls = .ok s) (x : JsNumber) :
    ((∀ rest, Untouched wild s (.number x :: rest)) ↔ ∀ id, s.LiveId id → x.toInt wild ≠ id) ∧
      ∀ q id, x = .finite q → InIntRange q → s.LiveId id →
        (x.toInt wild = id ↔ HasIntPart q id.toInt) := by
  have hinv := inv_exec hs
  refine ⟨⟨fun h id hlive heq => ?_, fun h rest => ?_⟩, ?_⟩
  · obtain ⟨t, ht⟩ : ∃ t, s.target wild [.number x] = some t := by
      refine Option.ne_none_iff_exists'.mp fun hnone => ?_
      rw [target_number, heq] at hnone
      exact hnone hlive
    exact not_untouched_of_some hinv ht (h [])
  · exact untouched_of_none hinv ((target_number x rest).mpr fun hlive => h _ hlive rfl)
  · rintro q id rfl hq hlive
    exact toInt_finite_iff hq hlive.1

/-- `h = fopen("a", "w")` answers 0. `fclose(1)` leaves it open. -/
theorem number_untouched_one : ∃ s,
    exec (step fun _ => 0) (installFileLib .init)
      [.fopen [.string [97], .string [119]] ⟨16, [], 16⟩] = .ok s ∧
    Untouched (fun _ => 0) s [.number (.finite 1)] := by
  obtain ⟨s, hs, hone, hget⟩ : ∃ s,
      exec (step fun _ => 0) (installFileLib .init)
        [.fopen [.string [97], .string [119]] ⟨16, [], 16⟩] = .ok s ∧
      JsNumber.toInt (fun _ => 0) (.finite 1) = 1 ∧ s.openedFiles.get 1 = none :=
    ⟨_, rfl, rfl, rfl⟩
  have hnone : ∀ id, s.LiveId id → JsNumber.toInt (fun _ => 0) (.finite 1) ≠ id := by
    rintro _ ⟨-, e, he⟩ rfl
    rw [hone, hget] at he
    cases he
  exact ⟨s, hs, (number_untouched_iff _ hs (.finite 1)).1.mpr hnone []⟩

/-- The number 0.5 is no handle, and `fclose(0.5)` closes the handle 0. -/
theorem fclose_fraction : ∃ s s',
    exec (step fun _ => 0) (installFileLib .init)
      [.fopen [.string [97], .string [119]] ⟨16, [], 16⟩] = .ok s ∧
    (∀ id, s.LiveId id → (1 / 2 : Rat) ≠ id.toInt) ∧
    jscFclose (fun _ => 0) [.number (.finite (1 / 2))] s = .ok (s', .undefined) ∧
    s.LiveId 0 ∧ ¬ s'.LiveId 0 ∧ s.libc.closed = [] ∧ s'.libc.closed = [(0, .file)] := by
  have hhalf (n : Int) : (1 / 2 : Rat) ≠ n := fun h => by
    have hden : (1 / 2 : Rat).den = 2 := by decide +kernel
    rw [h, Rat.den_intCast] at hden
    cases hden
  have hconv : JsNumber.toInt (fun _ => 0) (.finite (1 / 2)) = 0 := by decide +kernel
  -- the call does what `fclose(0)` does, which can be evaluated
  have hzero : jscFclose (fun _ => 0) [.number (.finite (1 / 2))] =
      jscFclose (fun _ => 0) [.number (.finite 0)] := by
    refine closeHandle_congr ?_
    unfold handleId
    show (if 0 ≤ (JsNumber.toInt _ _).toInt then _ else _) = _
    rw [hconv]
    rfl
  rw [hzero]
  refine ⟨_, _, rfl, fun id _ => hhalf id.toInt, rfl, ⟨by decide, _, rfl⟩, ?_, rfl, rfl⟩
  rintro ⟨-, e, he⟩
  cases he

end FileLib

end ShellJs
