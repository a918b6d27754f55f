import ShellJs.File.Encoding

/-!
# Paths (`js-clib/jsc_file.c`, `ls` and `realpath`)

`ls` gives its string arguments to `glob` until one fails, `realpath` resolves the strings
that it finds in its arguments.

* `Libc.realpath`, `Libc.glob`: what libc makes of a path is the parameter `resolve`, and the
  answers of the successive calls of `glob` are `answers`.
* `Ls.Globs`: the calls of `glob` up to the first failure.
* `jscLs_eq`: `ls` encodes the paths that were found up to the first failure.
* `jscRealpath_eq`: `realpath` encodes the resolutions of the strings in its arguments.
* `realpath_composes`: so its answer can be given back to it, and that of `ls` too.
-/

namespace ShellJs

namespace Libc

/-- `realpath(path, resolved_path)`: the text in `resolved_path`, or `NULL`. -/
def realpath (resolve : Bytes → Option CString) (path : Option Bytes) :
    Except Fault (Option CString) := do
  let path ← orFault .nullString path
  return resolve path

/-- The answers of `glob` other than 0. -/
inductive GlobError
  | aborted
  | nomatch
  | nospace
  | other

/-- What `jsc_ls` logs about an answer. -/
def GlobError.text : GlobError → String
  | .aborted => "filesystem problem"
  | .nomatch => "no match of pattern"
  | .nospace => "no dynamic memory"
  | .other => "unknown problem"

inductive GlobAnswer
  | found (paths : List CString)
  | failed (ret : GlobError)

/-- `glob(pattern, flags, errfunc, pglob)`, where `flags` has `GLOB_APPEND` or not and `pglob`
is `none` when nothing has initialised it. A failing call with `GLOB_APPEND` leaves what is
there, one without leaves nothing that can be used. -/
def glob (pattern : Option Bytes) (append : Bool) (answer : GlobAnswer)
    (pglob : Option (List CString)) : Except Fault (Option (List CString) × Option GlobError) := do
  let _ ← orFault .nullString pattern
  if append then do
    let before ← orFault .uninitialised pglob
    match answer with
    | .found paths => return (some (before ++ paths), none)
    | .failed ret => return (some before, some ret)
  else
    match answer with
    | .found paths => return (some paths, none)
    | .failed ret => return (none, some ret)

end Libc

open Libc

/-! ## `ls` -/

/-- The locals of `jsc_ls`: the `glob_t`, the flag `GLOB_APPEND` and the counter. `calls` has
the calls of `glob` so far, and `problem` what was logged. -/
structure Ls where
  results : Option (List CString)
  append : Bool
  c : Nat
  calls : List (Bytes × Bool)
  problem : Option (Bytes × String)

/-- A call of `glob` with the present flags, and what follows a failure. -/
def lsGlob (answers : Nat → GlobAnswer) (pattern : Bytes) (ls : Ls) : Except Fault (Ls × Bool) := do
  let (results, ret) ←
    glob (some pattern) ls.append (answers ls.calls.length) ls.results
  let ls := { ls with results := results, calls := (pattern, ls.append) :: ls.calls }
  match ret with
  | some ret => return ({ ls with problem := some (pattern, ret.text) }, false)
  | none => return ({ ls with c := ls.c + 1 }, true)

/-- The loop over the arguments, which a failure leaves. -/
def lsLoop (answers : Nat → GlobAnswer) : List Val → Ls → Except Fault Ls
  | [], ls => .ok ls
  | .string s :: args, ls =>
    match toCString s with
    | none => lsLoop answers args ls
    | some cstr => do
      let (ls, ok) ← lsGlob answers cstr { ls with append := ls.append || decide (0 < ls.c) }
      if ok then lsLoop answers args ls else return ls
  | _ :: args, ls => lsLoop answers args ls

/-- The first half of `jsc_ls`: the calls of `glob`. -/
def lsCalls (args : List Val) (answers : Nat → GlobAnswer) : Except Fault Ls :=
  let ls : Ls := ⟨none, false, 0, [], none⟩
  if args.length = 0 then do
    let (ls, _) ← lsGlob answers [46] ls
    return ls
  else lsLoop answers args ls

/-- `jsc_ls`, with its locals after `globfree`. -/
def jscLs (args : List Val) (answers : Nat → GlobAnswer) : Except Fault (Ls × Val) := do
  let ls ← lsCalls args answers
  if ls.c = 0 then return (ls, .undefined)
  else do
    let results ← orFault .uninitialised ls.results
    let array := results.map mkString
    return ({ ls with results := none, c := array.length }, encode array.length array)

/-! ## `realpath` -/

/-- The locals of `jsc_realpath`. -/
structure Realpath where
  array : List Val
  c : Nat

def realpathItem (resolve : Bytes → Option CString) (acc : Realpath) (item : Val) :
    Except Fault Realpath :=
  match item with
  | .string s =>
    match toCString s with
    | none => .ok acc
    | some cstr => do
      let path ← realpath resolve (some cstr)
      match path with
      | none => return acc
      | some path => return ⟨acc.array ++ [mkString path], acc.c + 1⟩
  | _ => .ok acc

def realpathArg (resolve : Bytes → Option CString) (acc : Realpath) (obj : Val) :
    Except Fault Realpath :=
  match obj with
  | .array items => items.foldlM (realpathItem resolve) acc
  | obj => realpathItem resolve acc obj

/-- `jsc_realpath`. -/
def jscRealpath (resolve : Bytes → Option CString) (args : List Val) : Except Fault Val := do
  let acc ← args.foldlM (realpathArg resolve) ⟨[], 0⟩
  return encode acc.c acc.array

/-! ## What `realpath` answers -/

variable {resolve : Bytes → Option CString} {args : List Val} {answers : Nat → GlobAnswer}

/-- The text of the resolution of a JavaScript string. -/
def resolveString (resolve : Bytes → Option CString) (s : Bytes) : Option Bytes :=
  ((toCString s).bind resolve).map CString.bytes

/-- What one path adds. -/
def realpathStep (resolve : Bytes → Option CString) (acc : Realpath) (path : Bytes) :
    Except Fault Realpath :=
  match resolve path with
  | none => .ok acc
  | some path => .ok ⟨acc.array ++ [mkString path], acc.c + 1⟩

theorem realpathItem_eq (acc : Realpath) (v : Val) : realpathItem resolve acc v =
    match itemPath v with
    | some path => realpathStep resolve acc path
    | none => .ok acc := by
  cases v with
  | string s =>
    simp only [realpathItem, itemPath, itemString, Option.bind_some]
    cases toCString s with
    | none => rfl
    | some cstr =>
      simp only [realpath, orFault, ok_bind, realpathStep]
      cases resolve cstr <;> rfl
  | _ => rfl

theorem realpathArg_eq (acc : Realpath) (v : Val) :
    realpathArg resolve acc v = (argItems v).foldlM (realpathItem resolve) acc := by
  cases v with
  | array items => rfl
  | _ =>
    simp only [realpathArg, argItems, List.foldlM_cons, List.foldlM_nil, bind_pure]

theorem foldlM_realpathStep (l : List Bytes) (acc : Realpath) :
    l.foldlM (realpathStep resolve) acc =
      .ok ⟨acc.array ++ (l.filterMap fun p => (resolve p).map CString.bytes).map .string,
        acc.c + (l.filterMap fun p => (resolve p).map CString.bytes).length⟩ := by
  induction l generalizing acc with
  | nil => simp [pure, Except.pure]
  | cons p l ih =>
    rw [List.foldlM_cons, realpathStep]
    cases h : resolve p with
    | none => simp only [ok_bind, ih, List.filterMap_cons, h, Option.map_none]
    | some path =>
      simp only [ok_bind, ih, List.filterMap_cons, h, Option.map_some, List.map_cons,
        List.length_cons, List.append_assoc]
      rw [Nat.add_assoc, Nat.add_comm 1]
      rfl

theorem jscRealpath_eq (resolve : Bytes → Option CString) (args : List Val) :
    jscRealpath resolve args = .ok (enc ((strings args).filterMap (resolveString resolve))) := by
  have hpaths : (paths args).filterMap (fun p => (resolve p).map CString.bytes) =
      (strings args).filterMap (resolveString resolve) := by
    rw [paths, List.filterMap_filterMap]
    refine List.filterMap_congr fun s _ => ?_
    rw [resolveString, Option.map_bind]
    rfl
  rw [jscRealpath, foldlM_paths realpathArg_eq realpathItem_eq, foldlM_realpathStep, ok_bind,
    hpaths, List.nil_append, Nat.zero_add]
  exact congrArg Except.ok (encode_length _)

/-! ## What `ls` answers -/

def Libc.GlobAnswer.isFound : GlobAnswer → Bool
  | .found _ => true
  | .failed _ => false

def Libc.GlobAnswer.paths : GlobAnswer → List CString
  | .found paths => paths
  | .failed _ => []

/-- The patterns that `ls` has for `glob`. -/
def patterns (args : List Val) : List Bytes :=
  if args = [] then [[46]] else args.filterMap itemPath

/-- What `n` calls of `glob` from the call `k` on find up to the first failure. -/
def matchedFrom (answers : Nat → GlobAnswer) (k n : Nat) : List CString :=
  (((List.range' k n).map answers).takeWhile GlobAnswer.isFound).flatMap GlobAnswer.paths

/-- The paths that `ls` matches: those of the longest sequence of its patterns for which `glob`
succeeds. -/
def lsMatched (args : List Val) (answers : Nat → GlobAnswer) : List CString :=
  matchedFrom answers 0 (patterns args).length

theorem matchedFrom_found {k n : Nat} {found : List CString} (h : answers k = .found found) :
    matchedFrom answers k (n + 1) = found ++ matchedFrom answers (k + 1) n := by
  rw [matchedFrom, List.range'_succ, List.map_cons, h, List.takeWhile_cons_of_pos rfl,
    List.flatMap_cons]
  rfl

theorem matchedFrom_failed {k n : Nat} {ret : GlobError} (h : answers k = .failed ret) :
    matchedFrom answers k n = [] := by
  cases n with
  | zero => rfl
  | succ n =>
    rw [matchedFrom, List.range'_succ, List.map_cons, h,
      List.takeWhile_cons_of_neg Bool.false_ne_true]
    rfl

namespace Ls

/-- The `glob_t` has the paths of `found`, if any call has succeeded. -/
structure Holds (ls : Ls) (found : List CString) : Prop where
  results : 0 < ls.c → ls.results = some found
  empty : ls.c = 0 → found = []

/-- Between two arguments: no call has failed, and the flag is set only after a success. -/
structure Inv (ls : Ls) (found : List CString) : Prop extends ls.Holds found where
  calls : ls.calls.length = ls.c
  append : ls.append = true → 0 < ls.c

variable {ls : Ls} {found : List CString}

theorem inv_init : (⟨none, false, 0, [], none⟩ : Ls).Inv [] :=
  ⟨⟨fun h => absurd h (Nat.lt_irrefl 0), fun _ => rfl⟩, rfl, fun h => nomatch h⟩

/-- The flags of the next call, after `flags |= (c > 0 ? GLOB_APPEND : 0)`. -/
def flagged (ls : Ls) : Ls := { ls with append := ls.append || decide (0 < ls.c) }

theorem Inv.flagged_append (h : ls.Inv found) : ls.flagged.append = decide (0 < ls.c) := by
  unfold flagged
  cases happ : ls.append with
  | false => rfl
  | true => rw [decide_eq_true (h.append happ)]; rfl

/-- What `glob` leaves in the `glob_t`. -/
theorem Inv.glob (h : ls.Inv found) (pattern : Bytes) (answer : GlobAnswer) :
    ∃ results, Libc.glob (some pattern) ls.flagged.append answer ls.results =
        .ok (results, match answer with
          | .found _ => none
          | .failed ret => some ret) ∧
      (0 < ls.c ∨ answer.isFound → results = some (found ++ answer.paths)) := by
  rw [h.flagged_append]
  by_cases hc : 0 < ls.c
  · rw [decide_eq_true hc, h.results hc]
    cases answer with
    | found paths => exact ⟨_, rfl, fun _ => rfl⟩
    | failed ret => exact ⟨_, rfl, fun _ => congrArg some (List.append_nil found).symm⟩
  · rw [decide_eq_false hc]
    cases answer with
    | found paths =>
      refine ⟨_, rfl, fun _ => ?_⟩
      rw [h.empty (Nat.eq_zero_of_not_pos hc)]
      rfl
    | failed ret => exact ⟨none, rfl, fun h => absurd h (not_or.mpr ⟨hc, Bool.false_ne_true⟩)⟩

theorem lsGlob_found {paths : List CString} (h : ls.Inv found) (pattern : Bytes)
    (ha : answers ls.c = .found paths) :
    ∃ ls', lsGlob answers pattern ls.flagged = .ok (ls', true) ∧ ls'.Inv (found ++ paths) ∧
      ls'.c = ls.c + 1 := by
  obtain ⟨results, hglob, hres⟩ := h.glob pattern (.found paths)
  have hlen : ls.flagged.calls.length = ls.c := h.calls
  refine ⟨⟨results, ls.flagged.append, ls.c + 1, (pattern, ls.flagged.append) :: ls.calls,
    ls.problem⟩, ?_, ⟨⟨fun _ => hres (.inr rfl), fun h => nomatch h⟩, ?_, fun _ => ?_⟩, rfl⟩
  · rw [lsGlob, hlen, ha, show ls.flagged.results = ls.results from rfl, hglob]
    rfl
  · exact congrArg Nat.succ h.calls
  · exact Nat.succ_pos _

theorem lsGlob_failed {ret : GlobError} (h : ls.Inv found) (pattern : Bytes)
    (ha : answers ls.c = .failed ret) :
    ∃ ls', lsGlob answers pattern ls.flagged = .ok (ls', false) ∧ ls'.Holds found := by
  obtain ⟨results, hglob, hres⟩ := h.glob pattern (.failed ret)
  have hlen : ls.flagged.calls.length = ls.c := h.calls
  refine ⟨⟨results, ls.flagged.append, ls.c, (pattern, ls.flagged.append) :: ls.calls,
    some (pattern, ret.text)⟩, ?_, fun hc => ?_, h.empty⟩
  · rw [lsGlob, hlen, ha, show ls.flagged.results = ls.results from rfl, hglob]
    rfl
  · exact (hres (.inl hc)).trans (congrArg some (List.append_nil found))

/-- The calls of `glob` for a list of patterns, from `ls` to `ls'`: up to the first failure. -/
inductive Globs (answers : Nat → GlobAnswer) : List Bytes → Ls → Ls → Prop
  | done (ls : Ls) : Globs answers [] ls ls
  | stop {ls ls' : Ls} {pattern : Bytes} {ret : GlobError} (patterns : List Bytes)
      (ha : answers ls.c = .failed ret)
      (hglob : lsGlob answers pattern ls.flagged = .ok (ls', false)) :
      Globs answers (pattern :: patterns) ls ls'
  | next {ls ls₁ ls' : Ls} {pattern : Bytes} {patterns : List Bytes} {paths : List CString}
      (ha : answers ls.c = .found paths)
      (hglob : lsGlob answers pattern ls.flagged = .ok (ls₁, true))
      (hrest : Globs answers patterns ls₁ ls') :
      Globs answers (pattern :: patterns) ls ls'

theorem Globs.holds {ls' : Ls} {patterns : List Bytes} (hg : Globs answers patterns ls ls')
    (h : ls.Inv found) : ls'.Holds (found ++ matchedFrom answers ls.c patterns.length) := by
  induction hg generalizing found with
  | done ls => exact (List.append_nil found).symm ▸ h.toHolds
  | stop patterns ha hglob =>
    obtain ⟨ls₁, heq, hholds⟩ := lsGlob_failed h _ ha
    cases hglob.symm.trans heq
    rw [matchedFrom_failed ha, List.append_nil]
    exact hholds
  | next ha hglob hrest ih =>
    obtain ⟨ls₁, heq, hinv, hc⟩ := lsGlob_found h _ ha
    cases hglob.symm.trans heq
    rw [List.length_cons, matchedFrom_found ha, ← List.append_assoc, ← hc]
    exact ih hinv

/-- The loop skips what is no usable string, and globs the rest. -/
theorem lsLoop_globs (args : List Val) (h : ls.Inv found) :
    ∃ ls', lsLoop answers args ls = .ok ls' ∧
      Globs answers (args.filterMap itemPath) ls ls' := by
  induction args generalizing ls found with
  | nil => exact ⟨ls, rfl, .done ls⟩
  | cons v args ih =>
    cases v with
    | string s =>
      cases hs : toCString s with
      | none =>
        have hv : itemPath (.string s) = none := hs
        rw [List.filterMap_cons_none hv, lsLoop, hs]
        exact ih h
      | some cstr =>
        have hv : itemPath (.string s) = some cstr := hs
        rw [List.filterMap_cons_some hv, lsLoop, hs]
        cases ha : answers ls.c with
        | found paths =>
          obtain ⟨ls₁, hglob, hinv, -⟩ := lsGlob_found h cstr ha
          obtain ⟨ls', hloop, hrest⟩ := ih hinv
          exact ⟨ls', (congrArg (· >>= _) hglob).trans hloop, .next ha hglob hrest⟩
        | failed ret =>
          obtain ⟨ls', hglob, -⟩ := lsGlob_failed h cstr ha
          exact ⟨ls', congrArg (· >>= _) hglob, .stop _ ha hglob⟩
    | _ => exact ih h

end Ls

theorem lsCalls_globs (args : List Val) (answers : Nat → GlobAnswer) :
    ∃ ls, lsCalls args answers = .ok ls ∧
      Ls.Globs answers (patterns args) ⟨none, false, 0, [], none⟩ ls := by
  unfold lsCalls
  cases args with
  | nil =>
    rw [if_pos List.length_nil]
    cases ha : answers 0 with
    | found paths =>
      obtain ⟨ls, hglob, -, -⟩ := Ls.lsGlob_found Ls.inv_init [46] ha
      exact ⟨ls, congrArg (· >>= _) hglob, .next ha hglob (.done ls)⟩
    | failed ret =>
      obtain ⟨ls, hglob, -⟩ := Ls.lsGlob_failed Ls.inv_init [46] ha
      exact ⟨ls, congrArg (· >>= _) hglob, .stop [] ha hglob⟩
  | cons v args =>
    have hne : (v :: args).length ≠ 0 := Nat.succ_ne_zero args.length
    rw [if_neg hne]
    exact Ls.lsLoop_globs (v :: args) Ls.inv_init

/-- The second half of `jsc_ls`: without a success it leaves the `glob_t` alone, and otherwise it
reads and frees it. -/
theorem jscLs_of_calls {args : List Val} {ls : Ls} {found : List CString}
    (hcalls : lsCalls args answers = .ok ls) (h : ls.Holds found) :
    ∃ ls', jscLs args answers = .ok (ls', enc (found.map CString.bytes)) ∧
      (ls.c = 0 → ls' = ls) ∧ (0 < ls.c → ls'.results = none) := by
  unfold jscLs
  rw [hcalls, ok_bind]
  by_cases hc : ls.c = 0
  · rw [if_pos hc, h.empty hc]
    exact ⟨ls, rfl, fun _ => rfl, fun hpos => absurd hc (Nat.ne_of_gt hpos)⟩
  · have hmk : found.map mkString = (found.map CString.bytes).map Val.string := by
      rw [List.map_map]
      rfl
    rw [if_neg hc, h.results (Nat.pos_of_ne_zero hc)]
    simp only [orFault, ok_bind]
    rw [hmk, List.length_map, encode_length]
    exact ⟨_, rfl, fun hzero => absurd hzero hc, fun _ => rfl⟩

theorem jscLs_eq (args : List Val) (answers : Nat → GlobAnswer) :
    ∃ ls, jscLs args answers = .ok (ls, enc ((lsMatched args answers).map CString.bytes)) := by
  obtain ⟨ls, hcalls, hglobs⟩ := lsCalls_globs args answers
  obtain ⟨ls', hls, -, -⟩ := jscLs_of_calls hcalls (hglobs.holds Ls.inv_init)
  exact ⟨ls', hls⟩

/-! ## Compositions -/

theorem resolveString_bytes (path : CString) :
    resolveString resolve path.bytes = (resolve path.bytes).map CString.bytes := by
  rw [resolveString, toCString, if_neg path.noNul, Option.bind_some]

theorem jscRealpath_enc (resolve : Bytes → Option CString) (xs : List Bytes) :
    jscRealpath resolve [enc xs] = .ok (enc (xs.filterMap (resolveString resolve))) := by
  rw [jscRealpath_eq, strings_enc]

/-- Resolving resolutions changes nothing when resolving one does not. -/
theorem filterMap_resolveString (hidem : ∀ x y, resolve x = some y → resolve y.bytes = some y)
    (xs : List Bytes) :
    (xs.filterMap (resolveString resolve)).filterMap (resolveString resolve) =
      xs.filterMap (resolveString resolve) := by
  rw [List.filterMap_filterMap]
  refine List.filterMap_congr fun s _ => ?_
  cases hs : resolveString resolve s with
  | none => rfl
  | some text =>
    obtain ⟨path, hpath, rfl⟩ := Option.map_eq_some_iff.mp hs
    obtain ⟨cstr, -, hres⟩ := Option.bind_eq_some_iff.mp hpath
    rw [Option.bind_some, resolveString_bytes, hidem cstr path hres]
    rfl

/-- `realpath` answers the resolutions of the strings in its arguments, in order. So it maps an
encoded list to the encoded list of resolutions, maps its own answer to itself when
resolving twice is resolving once, and resolves exactly what `ls` has matched. -/
theorem realpath_composes (resolve : Bytes → Option CString) :
    (∀ args, jscRealpath resolve args =
      .ok (enc ((strings args).filterMap (resolveString resolve)))) ∧
    (∀ xs, jscRealpath resolve [enc xs] = .ok (enc (xs.filterMap (resolveString resolve)))) ∧
    ((∀ x y, resolve x = some y → resolve y.bytes = some y) →
      ∀ xs v, jscRealpath resolve [enc xs] = .ok v → jscRealpath resolve [v] = .ok v) ∧
    ∀ args answers, ∃ ls v, jscLs args answers = .ok (ls, v) ∧
      v = enc ((lsMatched args answers).map CString.bytes) ∧
      jscRealpath resolve [v] = .ok (enc ((lsMatched args answers).filterMap fun path =>
        (resolve path.bytes).map CString.bytes)) := by
  refine ⟨jscRealpath_eq resolve, jscRealpath_enc resolve, fun hidem xs v hv => ?_,
    fun args answers => ?_⟩
  · rw [jscRealpath_enc] at hv
    cases hv
    rw [jscRealpath_enc, filterMap_resolveString hidem]
  · obtain ⟨ls, hls⟩ := jscLs_eq args answers
    refine ⟨ls, _, hls, rfl, ?_⟩
    rw [jscRealpath_enc, List.filterMap_map]
    congr 2
    exact List.filterMap_congr fun path _ => resolveString_bytes path

/-- Everything resolves to `/`. -/
theorem realpath_composes_root :
    jscRealpath (fun _ => some ⟨[47], by decide⟩) [.array [.string [47], .string [47]]] =
      .ok (.array [.string [47], .string [47]]) :=
  (realpath_composes fun _ => some ⟨[47], by decide⟩).2.2.1 (fun _ _ h => h) [[97], [98]] _ rfl

end ShellJs
