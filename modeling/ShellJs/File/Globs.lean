import ShellJs.File.Paths

/-!
# The calls of `glob` (`js-clib/jsc_file.c`, `jsc_ls`)

The counter `c` of `jsc_ls` drives the flag `GLOB_APPEND`, decides whether the `glob_t` is read at
all, and stops growing at the first failure.

* `Succeed`: the longest prefix of the calls that all succeed.
* `globCalls`: the calls that `ls` makes, with their flags.
* `Ls.Globs.after`: the calls are these, and the counter counts the successes.
* `ls_accumulates`: what `ls` calls, answers and leaves in the `glob_t`.
-/

namespace ShellJs

open Libc

variable {answers : Nat → GlobAnswer}

/-! ## The longest successful prefix -/

/-- Of the `m` calls from the call `k` on, the first `n` succeed, and the next one, if there is
one, does not. -/
structure Succeed (answers : Nat → GlobAnswer) (k m n : Nat) : Prop where
  le : n ≤ m
  found : ∀ j < n, (answers (k + j)).isFound = true
  failed : n < m → (answers (k + n)).isFound = false

namespace Succeed

variable {k m n : Nat}

theorem none : Succeed answers k 0 0 :=
  ⟨Nat.le_refl 0, fun _ h => absurd h (Nat.not_lt_zero _), fun h => absurd h (Nat.not_lt_zero _)⟩

theorem stop (h : (answers k).isFound = false) : Succeed answers k (m + 1) 0 :=
  ⟨Nat.zero_le _, fun _ h => absurd h (Nat.not_lt_zero _), fun _ => h⟩

theorem cons (h : (answers k).isFound = true) (hs : Succeed answers (k + 1) m n) :
    Succeed answers k (m + 1) (n + 1) := by
  refine ⟨Nat.succ_le_succ hs.le, fun j hj => ?_, fun hlt => ?_⟩
  · cases j with
    | zero => exact h
    | succ j => exact (Nat.succ_add_eq_add_succ k j) ▸ hs.found j (Nat.lt_of_succ_lt_succ hj)
  · exact (Nat.succ_add_eq_add_succ k n) ▸ hs.failed (Nat.lt_of_succ_lt_succ hlt)

theorem tail (hs : Succeed answers k (m + 1) (n + 1)) : Succeed answers (k + 1) m n := by
  refine ⟨Nat.le_of_succ_le_succ hs.le, fun j hj => ?_, fun hlt => ?_⟩
  · exact (Nat.succ_add_eq_add_succ k j) ▸ hs.found (j + 1) (Nat.succ_lt_succ hj)
  · exact (Nat.succ_add_eq_add_succ k n) ▸ hs.failed (Nat.succ_lt_succ hlt)

/-- What is matched is what the successful calls found. -/
theorem matchedFrom (hs : Succeed answers k m n) :
    matchedFrom answers k m = (List.range' k n).flatMap fun j => (answers j).paths := by
  induction n generalizing k m with
  | zero =>
    cases m with
    | zero => rfl
    | succ m =>
      have hfailed : (answers k).isFound = false := hs.failed (Nat.succ_pos m)
      cases ha : answers k with
      | found paths => rw [ha] at hfailed; cases hfailed
      | failed ret => exact matchedFrom_failed ha
  | succ n ih =>
    obtain ⟨m, rfl⟩ : ∃ m', m = m' + 1 := Nat.exists_eq_succ_of_ne_zero (by have := hs.le; omega)
    have hfound : (answers k).isFound = true := hs.found 0 (Nat.succ_pos n)
    rw [List.range'_succ, List.flatMap_cons, ← ih hs.tail]
    cases ha : answers k with
    | found paths => exact matchedFrom_found ha
    | failed ret => rw [ha] at hfound; cases hfound

end Succeed

/-! ## The calls -/

/-- The calls for `patterns`, when `c` calls have succeeded before: all but the very first have
`GLOB_APPEND`. -/
def globCalls (c : Nat) (patterns : List Bytes) : List (Bytes × Bool) :=
  (patterns.zipIdx c).map fun call => (call.1, decide (0 < call.2))

theorem globCalls_cons (c : Nat) (pattern : Bytes) (patterns : List Bytes) :
    globCalls c (pattern :: patterns) =
      (pattern, decide (0 < c)) :: globCalls (c + 1) patterns := rfl

theorem globCalls_patterns (c : Nat) (patterns : List Bytes) :
    (globCalls c patterns).map Prod.fst = patterns := by
  rw [globCalls, List.map_map]
  exact List.zipIdx_map_fst c patterns

theorem globCalls_flag {c k : Nat} {patterns : List Bytes} {call : Bytes × Bool}
    (h : (globCalls c patterns)[k]? = some call) : call.2 = decide (0 < c + k) := by
  rw [globCalls, List.getElem?_map, List.getElem?_zipIdx, Option.map_map] at h
  obtain ⟨pattern, -, rfl⟩ := Option.map_eq_some_iff.mp h
  rfl

/-- A failing call without `GLOB_APPEND` leaves nothing that can be used. -/
theorem glob_failed {pattern : Option Bytes} {answer : GlobAnswer}
    {pglob results : Option (List CString)} {ret : GlobError}
    (h : glob pattern false answer pglob = .ok (results, some ret)) : results = none := by
  obtain ⟨_, -, h⟩ := bind_eq_ok.mp h
  cases answer with
  | found paths => cases h
  | failed ret' => cases h; rfl

/-- What a call adds to the record of the calls. -/
theorem lsGlob_recorded {ls ls' : Ls} {ok : Bool} {pattern : Bytes}
    (h : lsGlob answers pattern ls = .ok (ls', ok)) :
    ls'.calls = (pattern, ls.append) :: ls.calls ∧
      (ok = false → ls'.c = ls.c ∧ (ls.append = false → ls'.results = none)) := by
  obtain ⟨⟨results, ret⟩, hglob, h⟩ := bind_eq_ok.mp h
  cases ret with
  | none =>
    cases h
    exact ⟨rfl, fun h => nomatch h⟩
  | some ret =>
    cases h
    exact ⟨rfl, fun _ => ⟨rfl, fun happ => glob_failed (happ ▸ hglob)⟩⟩

namespace Ls

variable {ls : Ls} {found : List CString}

/-- The counter and the record after `n` more successes among the calls for `patterns`. While
nothing has succeeded, the `glob_t` is not initialised. -/
structure After (ls ls' : Ls) (patterns : List Bytes) (n : Nat) : Prop where
  c : ls'.c = ls.c + n
  calls : ls'.calls.reverse = ls.calls.reverse ++ globCalls ls.c (patterns.take (n + 1))
  results : ls'.c = 0 → ls'.results = none

theorem After.refl (h : ls.c = 0 → ls.results = none) : ls.After ls [] 0 :=
  ⟨rfl, (List.append_nil _).symm, h⟩

theorem Inv.recorded {ls' : Ls} {ok : Bool} {pattern : Bytes} (h : ls.Inv found)
    (hglob : lsGlob answers pattern ls.flagged = .ok (ls', ok)) :
    ls'.calls.reverse = ls.calls.reverse ++ [(pattern, decide (0 < ls.c))] := by
  rw [(lsGlob_recorded hglob).1, List.reverse_cons, h.flagged_append]
  rfl

theorem After.stop {ls' : Ls} {pattern : Bytes} {patterns : List Bytes} (h : ls.Inv found)
    (hglob : lsGlob answers pattern ls.flagged = .ok (ls', false)) :
    ls.After ls' (pattern :: patterns) 0 := by
  obtain ⟨hc, hres⟩ := (lsGlob_recorded hglob).2 rfl
  refine ⟨hc, h.recorded hglob, fun hzero => hres ?_⟩
  rw [h.flagged_append, show ls.c = 0 from hc.symm.trans hzero]
  rfl

theorem After.cons {ls₁ ls' : Ls} {pattern : Bytes} {patterns : List Bytes} {n : Nat}
    (h : ls.Inv found) (hglob : lsGlob answers pattern ls.flagged = .ok (ls₁, true))
    (hc : ls₁.c = ls.c + 1) (hafter : ls₁.After ls' patterns n) :
    ls.After ls' (pattern :: patterns) (n + 1) := by
  refine ⟨?_, ?_, hafter.results⟩
  · rw [hafter.c, hc, Nat.add_assoc, Nat.add_comm 1]
  · rw [hafter.calls, h.recorded hglob, hc, List.take_succ_cons, globCalls_cons, List.append_assoc]
    rfl

/-- The counter decides everything: how far the calls have come, their flags, and whether the
`glob_t` can be read. -/
theorem Globs.after {ls' : Ls} {patterns : List Bytes} (hg : Globs answers patterns ls ls')
    (h : ls.Inv found) (hres : ls.c = 0 → ls.results = none) :
    ∃ n, Succeed answers ls.c patterns.length n ∧ ls.After ls' patterns n := by
  induction hg generalizing found with
  | done ls => exact ⟨0, .none, .refl hres⟩
  | stop patterns ha hglob =>
    exact ⟨0, .stop (congrArg GlobAnswer.isFound ha), .stop h hglob⟩
  | next ha hglob hrest ih =>
    obtain ⟨ls₁, heq, hinv, hc⟩ := lsGlob_found h _ ha
    cases hglob.symm.trans heq
    obtain ⟨n, hn, hafter⟩ := ih hinv fun hzero => nomatch hc.symm.trans hzero
    exact ⟨n + 1, .cons (congrArg GlobAnswer.isFound ha) (hc ▸ hn), .cons h hglob hc hafter⟩

end Ls

/-- `ls` answers what the longest prefix of its patterns matches for which `glob` succeeds. It calls
`glob` for that prefix and the pattern after it, with `GLOB_APPEND` exactly after a success, and it
never uses a `glob_t` that no call has initialised: without a success it does not read it. -/
theorem ls_accumulates (args : List Val) (answers : Nat → GlobAnswer) :
    ∃ n ls ls', Succeed answers 0 (patterns args).length n ∧
      lsCalls args answers = .ok ls ∧
      ls.calls.reverse.map Prod.fst = (patterns args).take (n + 1) ∧
      (∀ k call, ls.calls.reverse[k]? = some call →
        (call.2 = true ↔ ∃ j < k, (answers j).isFound = true)) ∧
      jscLs args answers = .ok (ls',
        enc (((List.range n).flatMap fun k => (answers k).paths).map CString.bytes)) ∧
      (n = 0 → ls.results = none ∧ ls' = ls) ∧
      (0 < n → ls.results = some ((List.range n).flatMap fun k => (answers k).paths) ∧
        ls'.results = none) := by
  obtain ⟨ls, hcalls, hglobs⟩ := lsCalls_globs args answers
  obtain ⟨n, hn, hafter⟩ := hglobs.after Ls.inv_init fun _ => rfl
  have hc : ls.c = n := hafter.c.trans (Nat.zero_add n)
  have hlog : ls.calls.reverse = globCalls 0 ((patterns args).take (n + 1)) := hafter.calls
  have hmatched : lsMatched args answers = (List.range n).flatMap fun k => (answers k).paths := by
    rw [lsMatched, hn.matchedFrom, List.range_eq_range']
  have hholds : ls.Holds ((List.range n).flatMap fun k => (answers k).paths) :=
    hmatched ▸ hglobs.holds Ls.inv_init
  obtain ⟨ls', hls, hleft, hfreed⟩ := jscLs_of_calls hcalls hholds
  refine ⟨n, ls, ls', hn, hcalls, ?_, fun k call hk => ?_, hls, fun hzero => ?_, fun hpos => ?_⟩
  · rw [hlog, globCalls_patterns]
  · have hlt : k < n + 1 := by
      have hk' := (List.getElem?_eq_some_iff.mp hk).1
      rw [hlog, globCalls, List.length_map, List.length_zipIdx, List.length_take] at hk'
      exact Nat.lt_of_lt_of_le hk' (Nat.min_le_left _ _)
    rw [hlog] at hk
    rw [globCalls_flag hk, decide_eq_true_iff, Nat.zero_add]
    constructor
    · intro hpos
      exact ⟨0, hpos, hn.found 0 (Nat.lt_of_lt_of_le hpos (Nat.le_of_lt_succ hlt))⟩
    · rintro ⟨j, hj, -⟩
      exact Nat.zero_lt_of_lt hj
  · exact ⟨hafter.results (hc.trans hzero), hleft (hc.trans hzero)⟩
  · exact ⟨hholds.results (hc ▸ hpos), hfreed (hc ▸ hpos)⟩

/-- `ls("a", null, "b", "c")`, where `b` fails. -/
example : ∃ ls, lsCalls [.string [97], .null, .string [98], .string [99]]
      (fun k => if k = 1 then .failed .nomatch else .found [⟨[97], by decide⟩]) = .ok ls ∧
    ls.calls = [([98], true), ([97], false)] :=
  ⟨_, rfl, rfl⟩

end ShellJs
