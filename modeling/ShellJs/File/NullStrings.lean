import ShellJs.File.EchoCat
import ShellJs.File.Paths

/-!
# Strings with a NUL (`js-clib/jsc_file.c`)

`v7_to_cstring` answers `NULL` for a string with an embedded NUL. `cd`, `ls`, `realpath`, `cat` and
`echo` test the pointer before they give it to libc. `fopen` and `popen` do not.

* `jscCd`, `jscPwd`: the built-ins for the working directory.
* `PathCall`: a call of a built-in that gives strings to libc.
* `null_string_iff`: which calls give no `NULL` to libc.
* `fopen_null_string`: the missing test.
-/

namespace ShellJs

open Libc

/-! ## `cd` -/

/-- `chdir(path)`. What `getcwd` answers afterwards is `move path`. -/
def Libc.chdir (move : Bytes → Option CString) (path : Option Bytes) :
    Except Fault (Option CString) := do
  let path ← orFault .nullString path
  return move path

/-- `jsc_pwd`, when `getcwd(NULL, 0)` answers `cwd`. -/
def jscPwd (cwd : Option CString) : V7Err × Val :=
  match cwd with
  | some path => (.ok, mkString path)
  | none => (.internalError, .undefined)

/-- `jsc_cd`. Nothing looks at the answer of `chdir`. -/
def jscCd (move : Bytes → Option CString) (args : List Val) : Except Fault (V7Err × Val) :=
  match args with
  | [.string s] =>
    let cstr := toCString s
    if cstr ≠ none then do
      let cwd ← chdir move cstr
      return jscPwd cwd
    else .ok (.invalidArg, .undefined)
  | _ => .ok (.invalidArg, .undefined)

/-! ## The calls -/

/-- A call of a built-in that gives strings to libc, with all that the environment decides. -/
inductive PathCall
  | cd (args : List Val) (move : Bytes → Option CString)
  | ls (args : List Val) (answers : Nat → GlobAnswer)
  | realpath (args : List Val) (resolve : Bytes → Option CString)
  | cat (args : List Val) (envs : Nat → ReadEnv)
  | echo (args : List Val) (env : WriteEnv)
  | fopen (args : List Val) (env : OpenEnv)
  | popen (args : List Val) (env : OpenEnv)

/-- What a call answers. -/
def PathCall.answer (disk : Bytes → Option Bytes) (s : FileLib) : PathCall → Except Fault Val
  | .cd args move => do
    let (_, v) ← jscCd move args
    return v
  | .ls args answers => do
    let (_, v) ← jscLs args answers
    return v
  | .realpath args resolve => jscRealpath resolve args
  | .cat args envs => do
    let (_, v) ← jscCat args envs s.libc
    return v
  | .echo args env => do
    let (_, v) ← jscEcho args env ⟨disk, s.libc⟩
    return v
  | .fopen args env => do
    let (_, v) ← s.jscFopen args env
    return v
  | .popen args env => do
    let (_, v) ← s.jscPopen args env
    return v

/-- The two strings that an open gives to libc have no NUL. -/
def OpenNulFree (args : List Val) : Prop :=
  ∀ path mode rest, args = .string path :: .string mode :: rest → 0 ∉ path ∧ 0 ∉ mode

/-- The calls for which no test is missing. -/
def PathCall.NulFree : PathCall → Prop
  | .fopen args _ => OpenNulFree args
  | .popen args _ => OpenNulFree args
  | _ => True

/-! ## The built-ins that test -/

theorem jscCd_avoids (move : Bytes → Option CString) (args : List Val) :
    Avoids .nullString (jscCd move args) := by
  unfold jscCd
  split
  · next s =>
    cases toCString s with
    | none => exact .ok _
    | some cstr => exact .ok _
  · exact .ok _

theorem readTextFile_avoids (path : Bytes) (env : ReadEnv) (libc : Libc) :
    Avoids .nullString (readTextFile path env libc) := by
  obtain ⟨r, heffect, hread⟩ := readText_effect path env libc
  rw [hread]
  refine .bind (fun hnull => ?_) fun r => .ok _
  rw [hnull] at heffect
  cases heffect

theorem catItem_avoids (envs : Nat → ReadEnv) (acc : Cat) (item : Val) :
    Avoids .nullString (catItem envs acc item) := by
  unfold catItem
  split
  · next s =>
    cases toCString s with
    | none => exact .ok acc
    | some path => exact (readTextFile_avoids path _ _).bind fun r => .ok _
  · exact .ok acc

theorem catArg_avoids (envs : Nat → ReadEnv) (acc : Cat) (obj : Val) :
    Avoids .nullString (catArg envs acc obj) := by
  unfold catArg
  split
  · next items => exact .foldlM (catItem_avoids envs) items acc
  · exact catItem_avoids envs acc obj

theorem jscCat_avoids (args : List Val) (envs : Nat → ReadEnv) (libc : Libc) :
    Avoids .nullString (jscCat args envs libc) :=
  (Avoids.foldlM (catArg_avoids envs) args _).bind fun _ => .ok _

theorem openStream_avoids (kind : StreamKind) (file : Addr) (input path mode : Bytes)
    (libc : Libc) :
    Avoids .nullString (libc.openStream kind file input (some path) (some mode)) := by
  unfold openStream
  show Avoids .nullString (if _ : _ then _ else _)
  split
  · exact .ok _
  · exact .ok _

theorem fwrite_avoids (data : Bytes) (file : Option Ptr) (libc : Libc) :
    Avoids .nullString (libc.fwrite data file) := by
  unfold fwrite
  refine .bind (.orFault (by decide) file) fun fp => ?_
  exact .bind (.orFault (by decide) _) fun stream => .ok _

theorem close_avoids (how : StreamKind) (file : Option Ptr) (libc : Libc) :
    Avoids .nullString (libc.close how file) := by
  unfold close
  refine .bind (.orFault (by decide) file) fun fp => .bind (.orFault (by decide) _) fun stream => ?_
  exact .bind (.orFault (by decide) _) fun streams => .ok _

theorem jscEcho_avoids (args : List Val) (env : WriteEnv) (w : Files) :
    Avoids .nullString (jscEcho args env w) := by
  unfold jscEcho
  split
  · next s path =>
    cases toCString s with
    | none => exact .ok _
    | some cstr0 =>
      cases toCString path with
      | none => exact .ok _
      | some cstr1 =>
        refine (openStream_avoids _ _ _ _ _ _).bind fun ⟨libc, fp⟩ => ?_
        cases fp with
        | none => exact .ok _
        | some fp =>
          refine (fwrite_avoids _ _ _).bind fun libc => ?_
          refine .bind (.orFault (by decide) _) fun stream => ?_
          exact (close_avoids _ _ _).bind fun libc => .ok _
  · exact .ok _

/-! ## `fopen` and `popen` -/

namespace ResMgn

variable {α ρ : Type} {mgn : ResMgn α}

theorem withLock_avoids {e : Fault} {f : ResMgn α → Except Fault (ResMgn α × ρ)}
    (he : .deadlock ≠ e) (hf : ∀ mgn, Avoids e (f mgn)) : Avoids e (mgn.withLock f) := by
  unfold withLock
  split
  · exact .error he
  · cases hr : f { mgn with locked := true } with
    | ok r => exact .ok _
    | error e' => exact fun h => hf _ (hr.trans (congrArg Except.error (Except.error.inj h)))

theorem resCreate_avoids (zero : α) (mem : Addr) :
    Avoids .nullString (mgn.resCreate zero mem) := by
  unfold resCreate
  refine withLock_avoids (by decide) fun mgn => ?_
  cases mgn.probe (mgn.table.chain.length + 1) with
  | none => exact .error (by decide)
  | some probed =>
    show Avoids .nullString (dite _ _ _)
    split
    · exact .ok _
    · exact .error (by decide)

theorem cloneCopy_avoids (clone : α → α) (id : CInt) (resource : Ptr) :
    Avoids .nullString (mgn.cloneCopy clone id resource) := by
  unfold cloneCopy modify
  split
  · cases mgn.table.heap.deref resource with
    | none => exact .error (by decide)
    | some res => exact .ok _
  · exact .ok _

theorem resCreateAndClone_avoids (zero : α) (clone : α → α) (mem : Addr) :
    Avoids .nullString (mgn.resCreateAndClone zero clone mem) := by
  unfold resCreateAndClone
  refine (resCreate_avoids zero mem).bind fun created => ?_
  exact (cloneCopy_avoids clone created.2.1 created.2.2).bind fun mgn => .ok _

end ResMgn

variable {s : FileLib} {args : List Val} {env : OpenEnv} {kind : StreamKind} {type : HandleType}

theorem openHandle_avoids (h : OpenNulFree args) :
    Avoids .nullString (s.openHandle kind type args env) := by
  by_cases hargs : ∃ path mode rest, args = .string path :: .string mode :: rest
  · obtain ⟨path, mode, rest, rfl⟩ := hargs
    obtain ⟨hp, hm⟩ := h path mode rest rfl
    by_cases hf : env.file ≠ NULL ∧ s.libc.streams.cells env.file = none
    · rw [FileLib.openHandle_stream hp hm hf]
      exact (ResMgn.resCreateAndClone_avoids _ _ _).bind fun r => .ok _
    · rw [FileLib.openHandle_null hp hm hf]
      exact .ok _
  · rw [FileLib.openHandle_other fun path mode rest heq => hargs ⟨path, mode, rest, heq⟩]
    exact .ok _

theorem openHandle_avoids_iff :
    Avoids .nullString (s.openHandle kind type args env) ↔ OpenNulFree args := by
  refine ⟨fun h => ?_, openHandle_avoids⟩
  rintro path mode rest rfl
  refine not_or.mp fun hnul => h ?_
  exact FileLib.openHandle_nul hnul

/-- A call gives no `NULL` to libc, except for an `fopen` or a `popen` whose first two arguments are
strings of which one has a NUL. Nested arrays, skipped arguments and the answers of libc make no
difference. -/
theorem null_string_iff (disk : Bytes → Option Bytes) (s : FileLib) (c : PathCall) :
    c.answer disk s ≠ .error .nullString ↔ c.NulFree := by
  have hval {ρ : Type} {x : Except Fault (ρ × Val)} :
      Avoids .nullString (x >>= fun r => .ok r.2) ↔ Avoids .nullString x := by
    refine ⟨fun h hx => h ?_, fun h => h.bind fun r => .ok _⟩
    rw [hx, error_bind]
  cases c with
  | cd args move => exact iff_of_true (hval.mpr (jscCd_avoids move args)) trivial
  | ls args answers =>
    obtain ⟨ls, hls⟩ := jscLs_eq args answers
    exact iff_of_true (hval.mpr (hls ▸ .ok _)) trivial
  | realpath args resolve =>
    have hok : Avoids .nullString (jscRealpath resolve args) := by
      rw [jscRealpath_eq]
      exact .ok _
    exact iff_of_true hok trivial
  | cat args envs => exact iff_of_true (hval.mpr (jscCat_avoids args envs s.libc)) trivial
  | echo args env => exact iff_of_true (hval.mpr (jscEcho_avoids args env ⟨disk, s.libc⟩)) trivial
  | fopen args env => exact hval.trans openHandle_avoids_iff
  | popen args env => exact hval.trans openHandle_avoids_iff

/-- `fopen("a\0b", "r")` and `popen("a", "\0")`. -/
theorem fopen_null_string :
    PathCall.answer (fun _ => none) (FileLib.installFileLib .init)
      (.fopen [.string [97, 0, 98], .string [114]] ⟨16, [], 16⟩) = .error .nullString ∧
    PathCall.answer (fun _ => none) (FileLib.installFileLib .init)
      (.popen [.string [97], .string [0]] ⟨16, [], 16⟩) = .error .nullString :=
  ⟨rfl, rfl⟩

end ShellJs
