import ShellJs.Lib.Runs
import ShellJs.Main.Model

/-!
# Scripts that cannot be read

`read_file` sets `*size` before it knows whether it can read the file, and `main` looks at the
size only: a script whose size is more than 2 is used even if `read_file` answered `NULL`.

* `Misread`: the outcomes of the libc calls for which that happens.
* `skips_iff`: a script that cannot be read is skipped exactly when it is not misread.
* `Covers`, `runScript_covers`: with fewer streams open, a script that is read does the same.
* `scripts_skip_iff`: runs of scripts, against the run of those that are read.
-/

namespace ShellJs

open Runs

variable {σ : Type} {v7Exec : V7Exec σ} {m m' n : Main σ} {s : Script} {jsSize : UInt64}
  {jsCode : Option Bytes}

/-! ## One script -/

/-- `read_file` reads the script. -/
def isRead (s : Script) (libc : Libc) : Bool :=
  match readFile s.jsPath s.env 0 libc with
  | .ok (_, _, some _) => true
  | _ => false

/-- No `NULL` is used, and a script that cannot be read leaves V7 and the output as they were. -/
def Skips (v7Exec : V7Exec σ) (m : Main σ) (s : Script) : Prop :=
  runScript v7Exec m s ≠ .error .nullString ∧
    (isRead s m.libc = false →
      ∃ m', runScript v7Exec m s = .ok m' ∧ m'.v7 = m.v7 ∧ m'.printed = m.printed)

/-- The file is opened and `ftell` answers more than 2, but there is no block, or `fread` does
not deliver as much, or the answer of `ftell` was an error. -/
def Misread (env : ReadEnv) (libc : Libc) : Prop :=
  Opens env libc ∧ env.seekEnd = true ∧ 2 < env.tell.toNat ∧
    (env.allocated = false ∨ env.content.length < env.tell.toNat ∨ env.tell.toNat = 2 ^ 64 - 1)

theorem execScript_short (h : ¬ 2 < jsSize) : execScript v7Exec jsSize jsCode m = .ok m := if_neg h

theorem execScript_null (h : 2 < jsSize) :
    execScript v7Exec jsSize none m = .error .nullString := if_pos h

theorem findLineTail_error {l : Bytes} {e : Fault} (h : findLineTail l = .error e) :
    e = .outOfBounds := by
  induction l with
  | nil => exact (Except.error.inj h).symm
  | cons c rest ih =>
    rw [findLineTail] at h
    split at h
    · exact ih h
    · cases h

theorem findLineHead_error {l : Bytes} {e : Fault} (h : findLineHead l = .error e) :
    e = .outOfBounds := by
  induction l with
  | nil => exact (Except.error.inj h).symm
  | cons c rest ih =>
    rw [findLineHead] at h
    split at h
    · exact ih h
    · cases h

theorem skipShebang_error {l : Bytes} {e : Fault} (h : skipShebang l = .error e) :
    e = .outOfBounds := by
  rcases bind_eq_error.mp h with h | ⟨c0, -, h⟩
  · exact orFault_error h
  split at h
  · rcases bind_eq_error.mp h with h | ⟨c1, -, h⟩
    · exact orFault_error h
    split at h
    · rcases bind_eq_error.mp h with h | ⟨l', -, h⟩
      · exact findLineTail_error h
      · exact findLineHead_error h
    · cases h
  · cases h

/-- With a block, `main` uses no `NULL`. -/
theorem execScript_some_error {data : Bytes} {e : Fault}
    (h : execScript v7Exec jsSize (some data) m = .error e) : e = .outOfBounds := by
  unfold execScript at h
  split at h
  · rw [orFault, ok_bind] at h
    rcases bind_eq_error.mp h with h | ⟨code, -, h⟩
    · exact skipShebang_error h
    simp only at h
    split at h
    · rcases bind_eq_error.mp h with h | ⟨text, -, h⟩
      · exact orFault_error h
      · cases h
    · cases h
  · cases h

theorem runScript_eq {libc : Libc} (hread : readFile s.jsPath s.env 0 m.libc =
    .ok (libc, jsSize, jsCode)) :
    runScript v7Exec m s = execScript v7Exec jsSize jsCode { m with libc := libc } := by
  rw [runScript, hread, ok_bind]

/-- A script without a block contributes nothing when the size is at most 2, and otherwise
`main` uses the `NULL`. -/
theorem skips_unread {libc : Libc}
    (hread : readFile s.jsPath s.env 0 m.libc = .ok (libc, jsSize, none)) :
    Skips v7Exec m s ↔ ¬ 2 < jsSize := by
  unfold Skips
  rw [runScript_eq hread]
  constructor
  · intro h hlt
    exact h.1 (execScript_null hlt)
  · intro h
    rw [execScript_short h]
    exact ⟨(fun h => nomatch h), fun _ => ⟨_, rfl, rfl, rfl⟩⟩

theorem tell_eq_max {tell : UInt64} (h : (tell + 1).toNat ≤ tell.toNat) :
    tell.toNat = 2 ^ 64 - 1 := by
  have htell := tell.toNat_lt
  rw [UInt64.toNat_add, UInt64.toNat_one] at h
  omega

theorem skips_iff (m : Main σ) (s : Script) : Skips v7Exec m s ↔ ¬ Misread s.env m.libc := by
  have heffect := readFile_effect s.jsPath s.env 0 m.libc
  have hlt : ∀ x : UInt64, 2 < x ↔ 2 < x.toNat := fun x => UInt64.lt_iff_toNat_lt
  generalize hread : readFile s.jsPath s.env 0 m.libc = r at heffect
  have hfault : ∀ e, r = .error e → ¬ Skips v7Exec m s := by
    rintro e rfl ⟨-, hskip⟩
    have hnot : isRead s m.libc = false := by rw [isRead, hread]
    obtain ⟨m', hrun, -⟩ := hskip hnot
    rw [runScript, hread] at hrun
    cases hrun
  cases heffect with
  | notOpened h =>
    rw [skips_unread hread]
    exact iff_of_true (by decide) fun hm => h hm.1
  | notSought _ h =>
    rw [skips_unread hread]
    refine iff_of_true (by decide) fun hm => ?_
    rw [hm.2.1] at h
    cases h
  | noBlock hopen hseek h =>
    rw [skips_unread hread, hlt]
    exact not_congr ⟨fun h2 => ⟨hopen, hseek, h2, .inl h⟩, fun hm => hm.2.2.1⟩
  | overrun hr h =>
    refine iff_of_false (hfault _ rfl) (not_not.mpr ?_)
    rw [List.length_replicate] at h
    have hmax : s.env.tell.toNat = 2 ^ 64 - 1 := tell_eq_max (by omega)
    exact ⟨hr.opens, hr.seekEnd, by omega, .inr (.inr hmax)⟩
  | short hr _ h =>
    rw [Ne, itemsOf_file_iff, Nat.not_le] at h
    rw [skips_unread hread, hlt]
    exact not_congr ⟨fun h2 => ⟨hr.opens, hr.seekEnd, h2, .inr (.inl h)⟩, fun hm => hm.2.2.1⟩
  | noRoom hr _ h =>
    refine iff_of_false (hfault _ rfl) (not_not.mpr ?_)
    rw [List.length_replicate] at h
    have hmax := tell_eq_max h
    exact ⟨hr.opens, hr.seekEnd, by omega, .inr (.inr hmax)⟩
  | full hr hitems h =>
    rw [itemsOf_file_iff] at hitems
    rw [List.length_replicate, UInt64.toNat_add, UInt64.toNat_one] at h
    refine iff_of_true ⟨fun hnull => ?_, fun hnot => ?_⟩ fun hm => ?_
    · rw [runScript_eq hread] at hnull
      cases execScript_some_error hnull
    · rw [isRead, hread] at hnot
      cases hnot
    · rcases hm.2.2.2 with ha | hshort | hmax
      · rw [hr.allocated] at ha
        cases ha
      · omega
      · omega

/-! ## With fewer streams -/

/-- V7 and the output agree, and where `m` can open a stream so can `n`. -/
structure Covers (m n : Main σ) : Prop where
  v7 : n.v7 = m.v7
  printed : n.printed = m.printed
  free : ∀ a, m.libc.streams.cells a = none → n.libc.streams.cells a = none

theorem Covers.refl (m : Main σ) : Covers m m := ⟨rfl, rfl, fun _ h => h⟩

theorem printErrAndRes_covers (h : Covers m n) (err : V7Err) (result : UInt64) :
    Related Covers (printErrAndRes err result m) (printErrAndRes err result n) := by
  unfold printErrAndRes
  cases errsString err with
  | none => exact .error _
  | some text => exact .ok ⟨h.v7, congrArg (⟨text, result⟩ :: ·) h.printed, h.free⟩

theorem execScript_covers (h : Covers m n) (jsSize : UInt64) (jsCode : Option Bytes) :
    Related Covers (execScript v7Exec jsSize jsCode m) (execScript v7Exec jsSize jsCode n) := by
  unfold execScript
  by_cases hsize : 2 < jsSize
  · rw [if_pos hsize, if_pos hsize]
    cases jsCode with
    | none => exact .error _
    | some data =>
      simp only [orFault, ok_bind, h.v7]
      cases skipShebang data with
      | error e => exact .error e
      | ok code =>
        simp only [ok_bind]
        have hnext : Covers
            { m with v7 := (v7Exec m.v7 (code.takeWhile (· ≠ 0))).1 }
            { n with v7 := (v7Exec m.v7 (code.takeWhile (· ≠ 0))).1 } := ⟨rfl, h.printed, h.free⟩
        split
        · exact printErrAndRes_covers hnext _ _
        · exact .ok hnext
  · rw [if_neg hsize, if_neg hsize]
    exact .ok h

theorem isRead_eq_true (h : isRead s m.libc = true) :
    ∃ libc jsSize data, readFile s.jsPath s.env 0 m.libc = .ok (libc, jsSize, some data) := by
  unfold isRead at h
  split at h
  · next libc jsSize data hread => exact ⟨libc, jsSize, data, hread⟩
  · cases h

/-- A script that is read has the same effect where fewer streams are open. -/
theorem runScript_covers (h : Covers m n) (hread : isRead s m.libc = true) :
    Related Covers (runScript v7Exec m s) (runScript v7Exec n s) := by
  obtain ⟨libc, jsSize, data, hm⟩ := isRead_eq_true hread
  have heffect := readFile_effect s.jsPath s.env 0 m.libc
  rw [hm] at heffect
  obtain ⟨hr, hitems, hroom, -⟩ := heffect.read
  have hr' : Reads s.env n.libc :=
    ⟨⟨hr.opens.1, h.free _ hr.opens.2⟩, hr.seekEnd, hr.allocated⟩
  obtain ⟨libc₁, hm₁, hv₁⟩ :=
    (readFile_effect s.jsPath s.env 0 m.libc).full_of hr hitems hroom
  obtain ⟨libc₂, hn₂, hv₂⟩ :=
    (readFile_effect s.jsPath s.env 0 n.libc).full_of hr' hitems hroom
  rw [runScript_eq hm₁, runScript_eq hn₂]
  have hcovers : Covers { m with libc := libc₁ } { n with libc := libc₂ } :=
    ⟨h.v7, h.printed, fun a ha => (congrFun hv₂.cells a).trans
      (h.free a ((congrFun hv₁.cells a).symm.trans ha))⟩
  exact execScript_covers hcovers _ _

/-- A script that is skipped leaves a state with at least the same streams. -/
theorem runScript_skipped (h : Covers m n) (hnot : isRead s m.libc = false)
    (hskip : Skips v7Exec m s) : ∃ m', runScript v7Exec m s = .ok m' ∧ Covers m' n := by
  obtain ⟨m', hrun, hv7, hprinted⟩ := hskip.2 hnot
  obtain ⟨⟨libc, jsSize, jsCode⟩, hread, -⟩ := bind_eq_ok.mp hrun
  cases jsCode with
  | some data =>
    rw [isRead, hread] at hnot
    cases hnot
  | none =>
    have hsize := (skips_unread hread).mp hskip
    rw [runScript_eq hread, execScript_short hsize] at hrun
    cases hrun
    refine ⟨_, (runScript_eq hread).trans (execScript_short hsize), h.v7, h.printed,
      fun a ha => h.free a ?_⟩
    have heffect := readFile_effect s.jsPath s.env 0 m.libc
    rw [hread] at heffect
    rcases heffect.returned with hb | hl
    · exact (congrFun hb.cells a).symm.trans ha
    · by_cases haddr : a = s.env.file
      · rw [haddr]
        exact hl.wasFree
      · exact (hl.cells a haddr).symm.trans ha

/-! ## Runs -/

/-- The scripts of a run that `read_file` reads. -/
def readScripts (v7Exec : V7Exec σ) : Main σ → List Script → List Script :=
  kept (runScript v7Exec) fun m s => isRead s m.libc

/-- V7 and what was printed. -/
def observed (r : Except Fault (Main σ)) : Except Fault (σ × List Printed) :=
  r.map fun m => (m.v7, m.printed)

theorem observed_eq {r r' : Except Fault (Main σ)} (h : Related Covers r r') :
    observed r = observed r' := by
  cases h with
  | ok h => exact congrArg Except.ok (Prod.ext h.v7.symm h.printed.symm)
  | error e => rfl

theorem exec_covers (scripts : List Script) (h : Covers m n)
    (hskips : Along (runScript v7Exec) (Skips v7Exec) m scripts) :
    Related Covers (exec (runScript v7Exec) m scripts)
      (exec (runScript v7Exec) n (readScripts v7Exec m scripts)) := by
  refine exec_kept (fun m n s h _ hread => ?_) (fun m n s h hskip hnot => ?_) h hskips
  · exact runScript_covers h hread
  · exact runScript_skipped h hnot hskip

/-- In a run over any arguments, `main` uses no `NULL`, every script that cannot be read leaves V7
and the output as they were, and the run comes to what it comes to without these scripts,
exactly when no script that it reaches is misread. -/
theorem scripts_skip_iff (v7Exec : V7Exec σ) (m : Main σ) (scripts : List Script) :
    (Along (runScript v7Exec) (Skips v7Exec) m scripts ∧
      observed (exec (runScript v7Exec) m scripts) =
        observed (exec (runScript v7Exec) m (readScripts v7Exec m scripts))) ↔
      Along (runScript v7Exec) (fun m s => ¬ Misread s.env m.libc) m scripts := by
  have hiff : Along (runScript v7Exec) (Skips v7Exec) m scripts ↔
      Along (runScript v7Exec) (fun m s => ¬ Misread s.env m.libc) m scripts :=
    along_congr (fun _ => True) (fun m s _ => skips_iff m s) (fun _ _ _ _ _ _ => trivial) trivial
  rw [← hiff]
  exact and_iff_left_of_imp fun h => observed_eq (exec_covers scripts (.refl m) h)

/-- A file of three bytes that has become empty when it is read: `main` uses the `NULL`, and does
not come to the script after it, which V7 executes when it stands alone. -/
theorem scripts_misread :
    exec (runScript fun log code => (code :: log, .ok, 0)) (⟨.init, [], []⟩ : Main (List Bytes))
        [⟨[97], ⟨16, [], true, 3, true⟩⟩, ⟨[98], ⟨16, [49, 59, 10], true, 3, true⟩⟩] =
      .error .nullString ∧
    ∃ m, exec (runScript fun log code => (code :: log, .ok, 0))
        (⟨.init, [], []⟩ : Main (List Bytes)) [⟨[98], ⟨16, [49, 59, 10], true, 3, true⟩⟩] = .ok m ∧
      m.v7 = [[49, 59, 10]] :=
  ⟨rfl, _, rfl, rfl⟩

end ShellJs
