import ShellJs.Lib.Runs
import ShellJs.File.Lifecycle

/-!
# Calls from inside a conversion

`writestring` looks its handle up once and then converts one argument after the other.
The conversion of an object runs the object's `toString`, which may call any built-in. A
`Frame` is a `writestring` call that waits for a conversion: the pointer that it looked
up, and how many arguments are left. `Nested` is the file library with the stack of
frames, and one step is a call that runs no script, the entry of a `writestring`, or the
end of the conversion that the topmost frame waits for. Between two steps any script may
run, so a nested call is a step while there are frames.

* `exec_calls`: without nested calls, a run of the file library is a run of the machine.
* `Live`: the pointer's record is in `opened_files`, and its stream is open.
* `AccessLive`: a step goes through a live record only.
* `KeepsFrames`: no step closes the handle of a frame.
* `nested_access`: runs that keep their frames go through live records only; a run in
  which every call has returned kept its frames.
* `writestring_after_close`: a `toString` that closes the handle.
-/

namespace ShellJs

open Runs ResMgn FileLib

namespace FileLib

variable {s s' : FileLib} {id : CInt} {p fp hdl : Ptr} {kind : StreamKind}

/-! ## Live and dead records -/

/-- The record is in `opened_files`, and its stream is open. -/
def Live (s : FileLib) (hdl : Ptr) : Prop :=
  ∃ id res fp kind, s.openedFiles.get id = some (hdl, res) ∧ res.data.file = some fp ∧
    s.libc.kindOf fp = some kind

/-- The record was there and is not any more. -/
structure Dead (s : FileLib) (hdl : Ptr) : Prop where
  issued : hdl.birth < s.openedFiles.table.heap.next
  gone : ∀ id res, s.openedFiles.get id ≠ some (hdl, res)

theorem held_iff_live (h : s.Inv) : s.Held hdl ↔ s.Live hdl := by
  constructor
  · rintro ⟨res, fp, kind, hd, hfile, hopen⟩
    exact ⟨res.id, res, fp, kind, get_of_deref h.mgn hd, hfile, hopen⟩
  · rintro ⟨id, res, fp, kind, hg, hfile, hopen⟩
    exact ⟨res, fp, kind, deref_of_get hg, hfile, hopen⟩

theorem Live.same (h : s.Live hdl) (hs : Same s s') : s'.Live hdl := by
  obtain ⟨id, res, fp, kind, hg, hfile, hopen⟩ := h
  exact ⟨id, res, fp, kind, hs.openedFiles ▸ hg, hfile, (hs.libc.kindOf fp).trans hopen⟩

theorem Live.opens (h : s.Live hdl) (ho : Opens s s' id p fp kind) : s'.Live hdl := by
  obtain ⟨i, res, q, kind', hg, hfile, hopen⟩ := h
  have hi : i ≠ id := by
    rintro rfl
    rw [get_eq_none_of_firstFree ho.first] at hg
    cases hg
  have hq : ∃ kind'', s'.libc.kindOf q = some kind'' := by
    rw [ho.kindOf]
    split
    · exact ⟨kind, rfl⟩
    · exact ⟨kind', hopen⟩
  obtain ⟨kind'', hopen'⟩ := hq
  exact ⟨i, res, q, kind'', by rw [ho.get, if_neg hi, hg], hfile, hopen'⟩

/-- Closing another handle leaves the record and its stream alone. -/
theorem Live.closes (h : s.Live hdl) (hinv : s.Inv) (hc : Closes s s' id p fp kind)
    (hne : hdl ≠ p) : s'.Live hdl := by
  obtain ⟨i, res, q, kind', hg, hfile, hopen⟩ := h
  have hi : i ≠ id := by
    rintro rfl
    rw [hc.was] at hg
    cases hg
    exact hne rfl
  refine ⟨i, res, q, kind', by rw [hc.get, if_neg hi, hg], hfile, ?_⟩
  rw [hc.libc.kindOf, if_neg, hopen]
  rintro rfl
  exact hi (hinv.distinct i id hdl p res _ q hg hc.was hfile rfl)

theorem Dead.same (h : s.Dead hdl) (hs : Same s s') : s'.Dead hdl := by
  obtain ⟨mgn, libc⟩ := s'
  obtain rfl : mgn = s.openedFiles := hs.openedFiles
  exact ⟨h.issued, h.gone⟩

/-- A new record has a new pointer, wherever it is put. -/
theorem Dead.opens (h : s.Dead hdl) (ho : Opens s s' id p fp kind) : s'.Dead hdl := by
  refine ⟨?_, fun i res hg => ?_⟩
  · rw [ho.records]
    exact Nat.lt_succ_of_lt h.issued
  · rw [ho.get] at hg
    split at hg
    · cases hg
      have hlt := h.issued
      rw [ho.record] at hlt
      exact absurd hlt (Nat.lt_irrefl _)
    · exact h.gone i res hg

theorem Dead.closes (h : s.Dead hdl) (hc : Closes s s' id p fp kind) : s'.Dead hdl := by
  refine ⟨?_, fun i res hg => ?_⟩
  · rw [hc.records]
    exact h.issued
  · rw [hc.get] at hg
    split at hg
    · cases hg
    · exact h.gone i res hg

theorem dead_of_closes (hc : Closes s s' id p fp kind) : s'.Dead p := by
  refine ⟨?_, fun i res hg => ?_⟩
  · rw [hc.records]
    exact birth_lt_of_get hc.was
  · rw [hc.get] at hg
    split at hg
    · cases hg
    · next hi => exact hi (id_of_get hg hc.was)

theorem Dead.not_live (h : s.Dead hdl) : ¬ s.Live hdl := by
  rintro ⟨id, res, fp, kind, hg, -⟩
  exact h.gone id res hg

end FileLib

/-! ## The machine -/

/-- A call of `writestring` during the conversion of an argument. -/
structure Frame where
  hdl : Ptr
  /-- the arguments that are not written yet, the one in conversion included -/
  left : Nat

structure Nested where
  lib : FileLib
  frames : List Frame

namespace Nested

variable {wild : JsNumber → CInt} {s s' : Nested} {frames : List Frame} {hdl : Ptr}

inductive Act
  /-- A call of a built-in whose conversions, if there are any, run no script. -/
  | call (c : Call)
  /-- `writestring`, up to its first conversion. -/
  | enter (args : List Val)
  /-- The conversion that the topmost frame waits for returns. -/
  | resume (conv : Libc.Conversion)

def init : Nested := ⟨installFileLib .init, []⟩

/-- The frame of a `writestring` with `left` more conversions; without any it returns. -/
def push (hdl : Ptr) (left : Nat) (frames : List Frame) : List Frame :=
  if left = 0 then frames else ⟨hdl, left⟩ :: frames

def step (wild : JsNumber → CInt) (s : Nested) : Act → Except Fault Nested
  | .call c => do
    let (lib, _) ← call wild s.lib c
    return { s with lib := lib }
  | .enter args => do
    let (lib, found) ← getHandle wild args s.lib
    match found with
    | none => return { s with lib := lib }
    | some (_, hdl) => return ⟨lib, push hdl (args.length - 1) s.frames⟩
  | .resume conv =>
    match s.frames with
    | [] => .ok s
    | frame :: frames => do
      let lib ← writeArg frame.hdl conv s.lib
      return ⟨lib, push frame.hdl (frame.left - 1) frames⟩

/-! ## What a step goes through and what it closes -/

/-- The record that a step reads, and whose stream it uses. -/
def access (wild : JsNumber → CInt) (s : Nested) : Act → Option Ptr
  | .call (.fclose args) => (s.lib.target wild args).map fun t => t.2.1
  | .call (.pclose args) => (s.lib.target wild args).map fun t => t.2.1
  | .call (.readline args _) => (s.lib.target wild args).map fun t => t.2.1
  | .call (.writestring args _) => (s.lib.target wild args).map fun t => t.2.1
  | .call _ => none
  | .enter _ => none
  | .resume _ => s.frames.head?.map Frame.hdl

def AccessLive (wild : JsNumber → CInt) (s : Nested) (a : Act) : Prop :=
  ∀ hdl, access wild s a = some hdl → s.lib.Live hdl

def closing (wild : JsNumber → CInt) (s : Nested) : Act → Option Ptr
  | .call c => s.lib.closing wild c
  | _ => none

/-- The step does not close the handle of a `writestring` in progress. -/
def KeepsFrames (wild : JsNumber → CInt) (s : Nested) (a : Act) : Prop :=
  ∀ hdl, closing wild s a = some hdl → ∀ frame ∈ s.frames, frame.hdl ≠ hdl

theorem forall_push {P : Ptr → Prop} {left : Nat} (hh : P hdl)
    (hf : ∀ frame ∈ frames, P frame.hdl) : ∀ frame ∈ push hdl left frames, P frame.hdl := by
  intro frame hframe
  unfold push at hframe
  split at hframe
  · exact hf frame hframe
  · rcases List.mem_cons.mp hframe with rfl | hframe
    · exact hh
    · exact hf frame hframe

theorem mem_push {frame : Frame} {left : Nat} (h : frame ∈ frames) :
    frame ∈ push hdl left frames := by
  unfold push
  split
  · exact h
  · exact List.mem_cons_of_mem _ h

theorem step_call {c : Call} (h : step wild s (.call c) = .ok s') :
    ∃ v, call wild s.lib c = .ok (s'.lib, v) ∧ s'.frames = s.frames := by
  obtain ⟨⟨lib, v⟩, hc, h⟩ := bind_eq_ok.mp h
  cases h
  exact ⟨v, hc, rfl⟩

theorem step_enter_none {args : List Val} (hinv : s.lib.Inv)
    (ht : s.lib.target wild args = none) : step wild s (.enter args) = .ok s := by
  rw [step, getHandle_eq hinv, ht]
  rfl

theorem step_enter_some {args : List Val} {id : CInt} {res : Res FileHandle} (hinv : s.lib.Inv)
    (ht : s.lib.target wild args = some (id, hdl, res)) :
    step wild s (.enter args) = .ok ⟨s.lib, push hdl (args.length - 1) s.frames⟩ := by
  rw [step, getHandle_eq hinv, ht]
  rfl

theorem step_resume {conv : Libc.Conversion} {frame : Frame} (hs : s.frames = frame :: frames)
    (h : step wild s (.resume conv) = .ok s') :
    writeArg frame.hdl conv s.lib = .ok s'.lib ∧
      s'.frames = push frame.hdl (frame.left - 1) frames := by
  rw [step, hs] at h
  obtain ⟨lib, hw, h⟩ := bind_eq_ok.mp h
  cases h
  exact ⟨hw, rfl⟩

theorem inv_step {a : Act} (h : s.lib.Inv) (hs : step wild s a = .ok s') : s'.lib.Inv := by
  cases a with
  | call c =>
    obtain ⟨v, hc, -⟩ := step_call hs
    exact h.call hc
  | enter args =>
    cases ht : s.lib.target wild args with
    | none =>
      rw [step_enter_none h ht] at hs
      cases hs
      exact h
    | some t =>
      rw [step_enter_some h ht] at hs
      cases hs
      exact h
  | resume conv =>
    cases hf : s.frames with
    | nil =>
      rw [step, hf] at hs
      cases hs
      exact h
    | cons frame frames => exact h.same (writeArg_inv (step_resume hf hs).1).2

/-- Without nested calls, entering and resuming does what `jscWritestring` does. -/
theorem exec_resumes {convs : Nat → Libc.Conversion} {l : List Nat} {lib lib' : FileLib}
    (h : l.foldlM (fun lib i => writeArg hdl (convs i) lib) lib = .ok lib') :
    exec (step wild) ⟨lib, push hdl l.length frames⟩ (l.map fun i => .resume (convs i)) =
      .ok ⟨lib', frames⟩ := by
  induction l generalizing lib with
  | nil =>
    cases h
    rfl
  | cons i l ih =>
    rw [List.foldlM_cons] at h
    obtain ⟨lib₁, hw, h⟩ := bind_eq_ok.mp h
    have hs : step wild ⟨lib, push hdl (i :: l).length frames⟩ (.resume (convs i)) =
        .ok ⟨lib₁, push hdl l.length frames⟩ := by
      simp only [push, List.length_cons, Nat.add_one_ne_zero, if_false, step, hw, ok_bind,
        Nat.add_sub_cancel]
      rfl
    rw [List.map_cons, exec_cons_ok hs]
    exact ih h

/-- The steps of a call whose conversions run no script. -/
def unnested : Call → List Act
  | .writestring args convs =>
    .enter args :: (List.range' 1 (args.length - 1)).map fun i => .resume (convs i)
  | c => [.call c]

theorem exec_resumes_nil {convs : Nat → Libc.Conversion} {l : List Nat} {lib : FileLib} :
    exec (step wild) ⟨lib, []⟩ (l.map fun i => .resume (convs i)) = .ok ⟨lib, []⟩ := by
  induction l with
  | nil => rfl
  | cons i l ih => rw [List.map_cons, exec_cons_ok rfl, ih]

theorem exec_unnested {c : Call} {lib lib' : FileLib} {v : Val} (hinv : lib.Inv)
    (h : call wild lib c = .ok (lib', v)) :
    exec (step wild) ⟨lib, []⟩ (unnested c) = .ok ⟨lib', []⟩ := by
  have hcall : step wild ⟨lib, []⟩ (.call c) = .ok ⟨lib', []⟩ := by
    rw [step, h]
    rfl
  cases c with
  | writestring args convs =>
    have hw : jscWritestring wild args convs lib = .ok (lib', v) := h
    cases ht : lib.target wild args with
    | none =>
      rw [jscWritestring_none hinv ht] at hw
      cases hw
      rw [unnested, exec_cons_ok (step_enter_none (s := ⟨lib, []⟩) hinv ht), exec_resumes_nil]
    | some t =>
      obtain ⟨id, hdl, res⟩ := t
      rw [jscWritestring_some hinv ht] at hw
      obtain ⟨lib₁, hloop, hret⟩ := bind_eq_ok.mp hw
      cases hret
      have hresumes := @exec_resumes wild [] hdl _ _ _ _ hloop
      rw [List.length_range'] at hresumes
      rw [unnested, exec_cons_ok (step_enter_some (s := ⟨lib, []⟩) hinv ht)]
      exact hresumes
  | _ => exact exec_cons_ok hcall

/-- Calls that are not nested: a run of the file library is a run of the machine. -/
theorem exec_calls {calls : List Call} {lib lib' : FileLib} (hinv : lib.Inv)
    (h : exec (FileLib.step wild) lib calls = .ok lib') :
    exec (step wild) ⟨lib, []⟩ (calls.flatMap unnested) = .ok ⟨lib', []⟩ := by
  induction calls generalizing lib with
  | nil =>
    cases h
    rfl
  | cons c calls ih =>
    obtain ⟨lib₁, hstep, hrest⟩ := exec_cons_eq_ok.mp h
    obtain ⟨⟨lib₁, v⟩, hc, hret⟩ := bind_eq_ok.mp hstep
    cases hret
    rw [List.flatMap_cons]
    exact exec_append.mpr ⟨_, exec_unnested hinv hc, ih (hinv.call hc) hrest⟩

/-! ## Runs that keep their frames -/

structure FramesLive (s : Nested) : Prop where
  inv : s.lib.Inv
  frames : ∀ frame ∈ s.frames, s.lib.Live frame.hdl

theorem framesLive_init : init.FramesLive := ⟨inv_install _, (fun _ h => nomatch h)⟩

theorem live_of_target {args : List Val} (hinv : s.lib.Inv)
    (h : (s.lib.target wild args).map (fun t => t.2.1) = some hdl) : s.lib.Live hdl := by
  obtain ⟨⟨id, p, res⟩, ht, rfl⟩ := Option.map_eq_some_iff.mp h
  exact (held_iff_live hinv).mp (hinv.held ht)

/-- A look-up finds live records, and those of the frames are live by the invariant. -/
theorem FramesLive.access (h : s.FramesLive) (a : Act) : AccessLive wild s a := by
  intro hdl ha
  cases a with
  | call c =>
    cases c with
    | fopen args env => cases ha
    | popen args env => cases ha
    | fclose args => exact live_of_target h.inv ha
    | pclose args => exact live_of_target h.inv ha
    | readline args env => exact live_of_target h.inv ha
    | writestring args convs => exact live_of_target h.inv ha
  | enter args => cases ha
  | resume conv =>
    obtain ⟨frame, hframe, rfl⟩ := Option.map_eq_some_iff.mp ha
    exact h.frames frame (List.mem_of_head? hframe)

theorem FramesLive.step {a : Act} (h : s.FramesLive) (hk : KeepsFrames wild s a)
    (hs : step wild s a = .ok s') : s'.FramesLive := by
  cases a with
  | call c =>
    obtain ⟨v, hc, hframes⟩ := step_call hs
    refine ⟨h.inv.call hc, fun frame hframe => ?_⟩
    rw [hframes] at hframe
    have hlive := h.frames frame hframe
    rcases call_cases h.inv hc with hsame | ⟨id, p, fp, kind, ho⟩ | ⟨id, p, fp, kind, hcl, hp⟩
    · exact hlive.same hsame
    · exact hlive.opens ho
    · exact hlive.closes h.inv hcl (hk p hp frame hframe)
  | enter args =>
    cases ht : s.lib.target wild args with
    | none =>
      rw [step_enter_none h.inv ht] at hs
      cases hs
      exact h
    | some t =>
      obtain ⟨id, hdl, res⟩ := t
      rw [step_enter_some h.inv ht] at hs
      cases hs
      exact ⟨h.inv, forall_push ((held_iff_live h.inv).mp (h.inv.held ht)) h.frames⟩
  | resume conv =>
    cases hf : s.frames with
    | nil =>
      rw [Nested.step, hf] at hs
      cases hs
      exact h
    | cons frame frames =>
      obtain ⟨hw, hframes⟩ := step_resume hf hs
      obtain ⟨hheld, hsame⟩ := writeArg_inv hw
      have hlive := (held_iff_live h.inv).mp hheld
      -- a write keeps every record, so no frame loses its handle
      refine ⟨h.inv.same hsame, fun frame' hframe' => ?_⟩
      rw [hframes] at hframe'
      refine forall_push (hlive.same hsame) (fun f hmem => ?_) frame' hframe'
      exact (h.frames f (hf ▸ List.mem_cons_of_mem frame hmem)).same hsame

/-- A step with a live record fails on a string with a NUL, in an allocation or in the
search for an id. -/
theorem AccessLive.error {a : Act} {e : Fault} (hinv : s.lib.Inv) (ha : AccessLive wild s a)
    (hs : Nested.step wild s a = .error e) :
    e = .nullString ∨ e = .outOfMemory ∨ e = .diverges := by
  cases a with
  | call c =>
    cases hc : call wild s.lib c with
    | error e' =>
      rw [Nested.step, hc] at hs
      cases hs
      exact call_error hinv hc
    | ok r =>
      rw [Nested.step, hc] at hs
      cases hs
  | enter args =>
    cases ht : s.lib.target wild args with
    | none =>
      rw [step_enter_none hinv ht] at hs
      cases hs
    | some t =>
      obtain ⟨id, hdl, res⟩ := t
      rw [step_enter_some hinv ht] at hs
      cases hs
  | resume conv =>
    cases hf : s.frames with
    | nil =>
      rw [Nested.step, hf] at hs
      cases hs
    | cons frame frames =>
      have hheld := (held_iff_live hinv).mpr (ha frame.hdl (by rw [access, hf]; rfl))
      by_cases hfits : s.lib.libc.Fits conv
      · obtain ⟨lib, hw, -⟩ := writeArg_ok hheld hfits
        simp only [Nested.step, hf, hw, ok_bind] at hs
        cases hs
      · simp only [Nested.step, hf, writeArg_error hfits, error_bind] at hs
        cases hs
        exact .inr (.inl rfl)

/-- So a run whose accesses are all to live records has no access fault. -/
theorem error_of_accessLive {acts : List Act} {e : Fault} (hinv : s.lib.Inv)
    (ha : Along (Nested.step wild) (AccessLive wild) s acts)
    (hs : exec (Nested.step wild) s acts = .error e) :
    e = .nullString ∨ e = .outOfMemory ∨ e = .diverges := by
  have hstep : ∀ t a t', t.lib.Inv → AccessLive wild t a → Nested.step wild t a = .ok t' →
      t'.lib.Inv := fun _ _ _ h _ hs => inv_step h hs
  exact exec_error hstep (fun _ _ _ h ha hs => ha.error h hs) hinv ha hs

/-! ## Runs that do not -/

/-- Some `writestring` in progress has lost its handle. -/
structure Doomed (s : Nested) : Prop where
  inv : s.lib.Inv
  frame : ∃ frame ∈ s.frames, s.lib.Dead frame.hdl

/-- Such a call never returns: only its own write could take the frame away. -/
theorem Doomed.step {a : Act} (h : s.Doomed) (hs : step wild s a = .ok s') : s'.Doomed := by
  obtain ⟨hinv, frame, hframe, hdead⟩ := h
  cases a with
  | call c =>
    obtain ⟨v, hc, hframes⟩ := step_call hs
    refine ⟨hinv.call hc, frame, hframes ▸ hframe, ?_⟩
    rcases call_cases hinv hc with hsame | ⟨id, p, fp, kind, ho⟩ | ⟨id, p, fp, kind, hcl, -⟩
    · exact hdead.same hsame
    · exact hdead.opens ho
    · exact hdead.closes hcl
  | enter args =>
    cases ht : s.lib.target wild args with
    | none =>
      rw [step_enter_none hinv ht] at hs
      cases hs
      exact ⟨hinv, frame, hframe, hdead⟩
    | some t =>
      obtain ⟨id, hdl, res⟩ := t
      rw [step_enter_some hinv ht] at hs
      cases hs
      exact ⟨hinv, frame, mem_push hframe, hdead⟩
  | resume conv =>
    cases hf : s.frames with
    | nil =>
      rw [hf] at hframe
      cases hframe
    | cons top frames =>
      obtain ⟨hw, hframes⟩ := step_resume hf hs
      obtain ⟨hheld, hsame⟩ := writeArg_inv hw
      rw [hf] at hframe
      rcases List.mem_cons.mp hframe with rfl | hrest
      · exact absurd ((held_iff_live hinv).mp hheld) hdead.not_live
      · exact ⟨hinv.same hsame, frame, hframes ▸ mem_push hrest, hdead.same hsame⟩

theorem Doomed.exec {acts : List Act} (h : s.Doomed)
    (hs : exec (Nested.step wild) s acts = .ok s') : s'.Doomed :=
  exec_keeps Doomed (fun _ _ _ h hs => h.step hs) h hs

theorem doomed_of_closing {a : Act} {frame : Frame} (hinv : s.lib.Inv)
    (hp : closing wild s a = some frame.hdl) (hframe : frame ∈ s.frames)
    (hs : Nested.step wild s a = .ok s') : s'.Doomed := by
  cases a with
  | call c =>
    obtain ⟨v, hc, hframes⟩ := step_call hs
    obtain ⟨id, fp, kind, hcl⟩ := call_closes hinv hp hc
    exact ⟨hinv.call hc, frame, hframes ▸ hframe, dead_of_closes hcl⟩
  | enter args => cases hp
  | resume conv => cases hp

theorem keepsFrames_of_exec {acts : List Act} (hinv : s.lib.Inv)
    (hs : exec (Nested.step wild) s acts = .ok s') (hdone : s'.frames = []) :
    Along (Nested.step wild) (KeepsFrames wild) s acts := by
  induction acts generalizing s with
  | nil => trivial
  | cons a acts ih =>
    obtain ⟨s₁, hs₁, hs'⟩ := exec_cons_eq_ok.mp hs
    refine ⟨fun hdl hp frame hframe hhdl => ?_, fun s₂ hs₂ => ?_⟩
    · subst hhdl
      obtain ⟨frame', hframe', -⟩ := ((doomed_of_closing hinv hp hframe hs₁).exec hs').frame
      rw [hdone] at hframe'
      cases hframe'
    · rw [hs₁] at hs₂
      cases hs₂
      exact ih (inv_step hinv hs₁) hs'

/-- In a run that never closes the handle of a `writestring` in progress, every access is
to a record that is in `opened_files` and whose stream is open, and the run can fail in
other places only. A run without an access fault in which every call has returned is such
a run. -/
theorem nested_access (wild : JsNumber → CInt) (acts : List Act) :
    (Along (Nested.step wild) (KeepsFrames wild) init acts →
      Along (Nested.step wild) (AccessLive wild) init acts ∧
      ∀ e, exec (Nested.step wild) init acts = .error e →
        e = .nullString ∨ e = .outOfMemory ∨ e = .diverges) ∧
    ∀ s, exec (Nested.step wild) init acts = .ok s → s.frames = [] →
      Along (Nested.step wild) (KeepsFrames wild) init acts := by
  refine ⟨fun hk => ?_, fun s hs hdone => keepsFrames_of_exec (inv_install _) hs hdone⟩
  have ha : Along (Nested.step wild) (AccessLive wild) init acts :=
    hk.imp (fun _ a h _ => FramesLive.access h a)
      (fun _ _ _ h hk hs => FramesLive.step h hk hs) framesLive_init
  exact ⟨ha, fun e he => error_of_accessLive (inv_install _) ha he⟩

/-- `h = fopen("a", "w")`, then `writestring(h, o)`, where `o.toString` reads from `h`. -/
def readInConversion : List Act :=
  [.call (.fopen [.string [97], .string [119]] ⟨16, [], 16⟩),
    .enter [.number (.finite 0), .object],
    .call (.readline [.number (.finite 0)] ⟨[], false, []⟩),
    .resume ⟨[98], 0⟩]

theorem nested_access_readline :
    Along (Nested.step fun _ => 0) (AccessLive fun _ => 0) init readInConversion :=
  ((nested_access (fun _ => 0) readInConversion).1
    ((nested_access (fun _ => 0) readInConversion).2 _ rfl rfl)).1

/-- `h = fopen("a", "w")`, then `writestring(h, o)`, where `o.toString` calls `fclose(h)`. -/
def closeInConversion : List Act :=
  [.call (.fopen [.string [97], .string [119]] ⟨16, [], 16⟩),
    .enter [.number (.finite 0), .object],
    .call (.fclose [.number (.finite 0)]),
    .resume ⟨[], 0⟩]

/-- The write then goes through the record that `fclose` has released. -/
theorem writestring_after_close :
    exec (Nested.step fun _ => 0) init closeInConversion = .error .badPointer ∧
      ¬ Along (Nested.step fun _ => 0) (AccessLive fun _ => 0) init closeInConversion := by
  have hfault : exec (Nested.step fun _ => 0) init closeInConversion = .error .badPointer := rfl
  refine ⟨hfault, fun ha => ?_⟩
  rcases error_of_accessLive (inv_install _) ha hfault with h | h | h <;> cases h

end Nested

end ShellJs
