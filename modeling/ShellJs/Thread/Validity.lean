import ShellJs.Lib.Runs
import ShellJs.Thread.Record

/-!
# Validity of the thread operations

A join or a cancel is valid when its handle is that of a thread that was created and has
not been joined. `run_cancel` looks neither at the result of `res_get` nor at whether
the creation succeeded, and `destroy_thread` cancels what `wait_thread` has joined. None of
this is reached when `run` has stored past the block of a record before.

* `heapStep`: the calls, with a fault for a `run` whose stores leave the record's block.
* `Valid`: no store leaves its block and no `nil` record is used in the step, and the log is
  valid after it.
* `Cond`: `run` stores into a record that fits, `run_cancel` finds a started thread or no
  manager, `run_done` finds nothing to wait for.
* `thread_ops_valid_iff`: a run is valid at every step exactly when it meets `Cond` at
  every step.
* `thread_ops_not_valid`: one start and `run_done` already cancel a joined thread.
-/

namespace ShellJs

namespace RunState

open Runs ResMgn

/-- The calls of the program. The allocator and `pthread_create` answer as they like. -/
inductive Act
  | run (paramSize : UInt64) (param : Option (List UInt8)) (mem inst : Addr) (created : Bool)
  | cancel (rid : CInt)
  | done

def step (s : RunState) : Act → Except Fault RunState
  | .run paramSize param mem inst created => do
    let (s, _) ← s.run paramSize param mem inst created
    return s
  | .cancel rid => s.runCancel rid
  | .done => s.runDone

/-! ## Validity -/

/-- A handle that a join or a cancel may be given. -/
def ValidHandle (log : List ThreadEvent) (handle : Option Tid) : Prop :=
  ∃ t, handle = some t ∧ Started log t ∧ .join (some t) ∉ log

/-- The event is valid after the earlier ones. -/
def ValidEvent (log : List ThreadEvent) : ThreadEvent → Prop
  | .join handle => ValidHandle log handle
  | .cancel handle => ValidHandle log handle
  | .started _ _ => True
  | .released _ => True
  | .managementReleased _ => True

def ValidLog : List ThreadEvent → Prop
  | [] => True
  | e :: log => ValidEvent log e ∧ ValidLog log

/-- The calls on a heap whose blocks end: `run` and `run_thread` store into the record that
`res_create` has made. -/
def heapStep (s : RunState) : Act → Except Fault RunState
  | .run paramSize param mem inst created => do
    let mgn := s.runResMgn.getD resCreateManagement
    let _ ← mgn.resCreate (newThread paramSize) mem
    if ∀ st ∈ runStores paramSize param, st.Within (resRoom (runSize paramSize)) then
      step s (.run paramSize param mem inst created)
    else .error .outOfBounds
  | a => step s a

def Valid (s : RunState) (a : Act) : Prop :=
  heapStep s a ≠ .error .outOfBounds ∧ heapStep s a ≠ .error .nilRecord ∧
    ∀ s', heapStep s a = .ok s' → ValidLog s'.threads.log

/-- The condition on the state before the call. -/
def Cond (s : RunState) : Act → Prop
  | .run paramSize param mem _ _ => s.Recorded mem →
    param = none ∧ sizeofThread.toNat ≤ resRoom (runSize paramSize)
  | .cancel rid => ∀ mgn, s.runResMgn = some mgn →
    ∃ p res t, mgn.get rid = some (p, res) ∧ s.threads.insts.read res.data.inst = some (some t)
  | .done => ∀ mgn, s.runResMgn = some mgn → mgn.newest.toInt < 0

variable {mgn mgn' : ResMgn Thread} {threads threads' : Threads} {s s' : RunState} {rid : CInt}

theorem ValidLog.tail {later earlier : List ThreadEvent} (h : ValidLog (later ++ earlier)) :
    ValidLog earlier := by
  induction later with
  | nil => exact h
  | cons e later ih => exact ih h.2

/-! ## The loop of `run_done` -/

/-- Under the invariants the loop ends without a fault. It waits for nobody when the newest
id is negative, and otherwise cancels the first thread right after its join. -/
theorem doneLoop_run (n : Nat) (hlen : mgn.table.chain.length ≤ n) (hheld : Held mgn threads)
    (hinv : threads.Inv) :
    ∃ mgn' threads' later, doneLoop n mgn threads = .ok (mgn', threads') ∧ threads'.Inv ∧
      threads'.log = later ++ threads.log ∧
      (mgn.newest.toInt < 0 → later = []) ∧
      (0 ≤ mgn.newest.toInt →
        ∃ later' handle, later = later' ++ [.cancel handle, .join handle]) := by
  induction n generalizing mgn threads with
  | zero =>
    have hneg : mgn.newest.toInt < 0 := by
      rcases newest_cases hheld.inv with ⟨-, hn⟩ | ⟨p, res, hlast, -⟩
      · rw [hn]
        decide
      · rw [List.length_eq_zero_iff.mp (Nat.le_zero.mp hlen)] at hlast
        cases hlast
    exact ⟨mgn, threads, [], doneLoop_stop hheld.inv hneg, hinv, rfl, fun _ => rfl,
      fun hn => absurd hneg (Int.not_lt.mpr hn)⟩
  | succ n ih =>
    by_cases hn : 0 ≤ mgn.newest.toInt
    · obtain ⟨p, res, handle, m, insts, hchain, -, hr, hfree, hb, hheld', -⟩ :=
        doneBody_newest hheld hn
      have hlen' : m.table.chain.length ≤ n := by
        rw [hchain, List.length_append] at hlen
        exact Nat.le_of_succ_le_succ hlen
      obtain ⟨mgn', threads', later, hloop, hinv', hlog, -⟩ :=
        ih hlen' hheld' (inv_drained hinv hr hfree)
      refine ⟨mgn', threads', later ++ [.released mgn.newest, .cancel handle, .join handle],
        (doneLoop_next hheld.inv hn hb).trans hloop, hinv', ?_, fun hneg => ?_, fun _ => ?_⟩
      · rw [hlog, List.append_assoc]
        rfl
      · exact absurd hneg (Int.not_lt.mpr hn)
      · exact ⟨later ++ [.released mgn.newest], handle, by rw [List.append_assoc]; rfl⟩
    · have hneg := Int.not_le.mp hn
      exact ⟨mgn, threads, [], doneLoop_stop hheld.inv hneg, hinv, rfl, fun _ => rfl,
        fun h => absurd h hn⟩

/-! ## One step -/

theorem step_run {paramSize : UInt64} {param : Option (List UInt8)} {mem inst : Addr}
    {created : Bool} (h : s.run paramSize param mem inst created = .ok (s', rid)) :
    step s (.run paramSize param mem inst created) = .ok s' := by
  rw [step, h]
  rfl

theorem runDone_some (hm : s.runResMgn = some mgn) {mgn' : ResMgn Thread} {threads' : Threads}
    (hloop : doneLoop mgn.table.chain.length mgn s.threads = .ok (mgn', threads')) :
    s.runDone = .ok ⟨none, threads'.note (.managementReleased mgn'.table.chain.length)⟩ := by
  simp only [runDone, hm, hloop, ok_bind]
  rfl

theorem inv_note {e : ThreadEvent} (hinv : threads.Inv) (he : ∀ t param, e ≠ .started t param)
    (hj : ∀ handle, e ≠ .join handle) : (threads.note e).Inv := by
  have hst : ∀ t, Started (threads.note e).log t ↔ Started threads.log t := by
    intro t
    constructor
    · rintro ⟨param, hp⟩
      rcases List.mem_cons.mp hp with hp | hp
      · exact absurd hp.symm (he t param)
      · exact ⟨param, hp⟩
    · rintro ⟨param, hp⟩
      exact ⟨param, List.mem_cons_of_mem _ hp⟩
  have hjn : ∀ t, .join (some t) ∈ (threads.note e).log ↔ .join (some t) ∈ threads.log := by
    intro t
    constructor
    · intro hp
      rcases List.mem_cons.mp hp with hp | hp
      · exact absurd hp.symm (hj (some t))
      · exact hp
    · exact List.mem_cons_of_mem _
  refine ⟨fun a t ha => ?_, hinv.inj, fun t ht => ?_⟩
  · rw [hst, hjn]
    exact hinv.handles a t ha
  · rw [hst, hjn] at ht
    exact hinv.fresh t ht

theorem Held.note {e : ThreadEvent} (h : Held mgn threads) : Held mgn (threads.note e) :=
  ⟨h.inv, h.record, h.inj⟩

theorem runCancel_some (hm : s.runResMgn = some mgn) (hinv : s.Inv) {p : Ptr} {res : Res Thread}
    {handle : Option Tid} (hg : mgn.get rid = some (p, res))
    (hr : s.threads.insts.read res.data.inst = some handle) :
    s.runCancel rid = .ok ⟨some mgn, s.threads.note (.cancel handle)⟩ := by
  simp only [runCancel, hm, resGet_eq (hinv.held mgn hm).inv.unlocked, hg, Option.map_some, ok_bind,
    deref_of_get hg, orFault, if_neg (Heap.ne_null_of_read hr), hr]
  rfl

theorem runCancel_none (hm : s.runResMgn = some mgn) (hinv : s.Inv) (hg : mgn.get rid = none) :
    s.runCancel rid = .error .nilRecord := by
  simp only [runCancel, hm, resGet_eq (hinv.held mgn hm).inv.unlocked, hg, Option.map_none, ok_bind]

theorem inv_step (s : RunState) (a : Act) (s' : RunState) (hinv : s.Inv)
    (h : step s a = .ok s') : s'.Inv := by
  cases a with
  | run paramSize param mem inst created =>
    obtain ⟨⟨s₁, rid⟩, hrun, hs⟩ := bind_eq_ok.mp h
    cases hs
    have hheld := held_getD hinv
    obtain ⟨hid, ha, hinst⟩ := run_inv hheld.inv rfl hrun
    obtain ⟨mgn', hok, hup⟩ := run_ok paramSize param created hheld.inv rfl hid ha hinst
    rw [hok] at hrun
    cases hrun
    refine ⟨fun mgn hm => ?_, inv_threadsAfter hinv.threads hinst⟩
    cases hm
    exact held_run hheld hid hinst hup
  | cancel rid =>
    cases hm : s.runResMgn with
    | none =>
      simp only [step, runCancel, hm] at h
      cases h
      exact hinv
    | some mgn =>
      have hheld := hinv.held mgn hm
      cases hg : mgn.get rid with
      | none =>
        rw [step, runCancel_none hm hinv hg] at h
        cases h
      | some e =>
        obtain ⟨-, handle, hr⟩ := hheld.record rid e.1 e.2 hg
        rw [step, runCancel_some hm hinv hg hr] at h
        cases h
        refine ⟨fun m hm' => ?_,
          inv_note hinv.threads (fun _ _ h => nomatch h) fun _ h => nomatch h⟩
        cases hm'
        exact Held.note hheld
  | done =>
    cases hm : s.runResMgn with
    | none =>
      simp only [step, runDone, hm] at h
      cases h
      exact hinv
    | some mgn =>
      obtain ⟨mgn', threads', later, hloop, hinv', -⟩ :=
        doneLoop_run _ (Nat.le_refl _) (hinv.held mgn hm) hinv.threads
      rw [step, runDone_some hm hloop] at h
      cases h
      exact ⟨(fun _ h => nomatch h),
        inv_note hinv' (fun _ _ h => nomatch h) fun _ h => nomatch h⟩

/-! ## Stores into the record -/

/-- A `run` leaves the block, does not get a record, or is the call itself. -/
theorem heapStep_run {paramSize : UInt64} {param : Option (List UInt8)} {mem inst : Addr}
    {created : Bool} (hinv : s.Inv) :
    (s.Recorded mem ∧ ¬(param = none ∧ sizeofThread.toNat ≤ resRoom (runSize paramSize)) ∧
        heapStep s (.run paramSize param mem inst created) = .error .outOfBounds) ∨
      Cond s (.run paramSize param mem inst created) ∧
        heapStep s (.run paramSize param mem inst created) =
          step s (.run paramSize param mem inst created) := by
  have hmgn := (held_getD hinv).inv
  have hrec := @recorded_iff _ mem (newThread paramSize) s hmgn.unlocked rfl
  have hwithin := stores_within_iff paramSize param
  cases hc : (s.runResMgn.getD resCreateManagement).resCreate (newThread paramSize) mem with
  | error e =>
    have hnot : ¬s.Recorded mem := fun h => by
      obtain ⟨r, hr⟩ := hrec.mpr h
      rw [hc] at hr
      cases hr
    refine Or.inr ⟨fun h => absurd h hnot, ?_⟩
    simp only [heapStep, step, run, hc, error_bind]
  | ok r =>
    rw [heapStep]
    simp only [hc, ok_bind]
    by_cases hfit : ∀ st ∈ runStores paramSize param, st.Within (resRoom (runSize paramSize))
    · rw [if_pos hfit]
      exact Or.inr ⟨fun _ => hwithin.mp hfit, rfl⟩
    · rw [if_neg hfit]
      exact Or.inl ⟨hrec.mp ⟨r, hc⟩, fun h => hfit (hwithin.mpr h), rfl⟩

theorem heapStep_eq_ok (hinv : s.Inv) {a : Act} (h : heapStep s a = .ok s') :
    step s a = .ok s' := by
  cases a with
  | run paramSize param mem inst created =>
    rcases heapStep_run hinv with ⟨-, -, herr⟩ | ⟨-, heq⟩
    · rw [h] at herr
      cases herr
    · rwa [heq] at h
  | cancel rid => exact h
  | done => exact h

theorem log_run {paramSize : UInt64} {param : Option (List UInt8)} {mem inst : Addr}
    {created : Bool} (hinv : s.Inv) (hlog : ValidLog s.threads.log)
    (h : step s (.run paramSize param mem inst created) = .ok s') : ValidLog s'.threads.log := by
  have hheld := held_getD hinv
  obtain ⟨⟨s₁, rid⟩, hrun, hs⟩ := bind_eq_ok.mp h
  cases hs
  obtain ⟨hid, ha, hinst⟩ := run_inv hheld.inv rfl hrun
  obtain ⟨mgn', hok, -⟩ := run_ok paramSize param created hheld.inv rfl hid ha hinst
  rw [hok] at hrun
  cases hrun
  show ValidLog (threadsAfter _ _ _ _ hinst).log
  rw [log_threadsAfter]
  split
  · exact ⟨trivial, hlog⟩
  · exact hlog

theorem step_run_error {paramSize : UInt64} {param : Option (List UInt8)} {mem inst : Addr}
    {created : Bool} {e : Fault} (hinv : s.Inv)
    (h : step s (.run paramSize param mem inst created) = .error e) :
    e = .diverges ∨ e = .outOfMemory := by
  cases hrun : s.run paramSize param mem inst created with
  | error e' =>
    simp only [step, hrun, error_bind] at h
    cases h
    exact run_error (held_getD hinv).inv rfl hrun
  | ok r =>
    simp only [step, hrun, ok_bind] at h
    cases h

/-- A start is valid exactly when its stores are within the record's block: it joins and
cancels nobody. -/
theorem valid_run_iff {paramSize : UInt64} {param : Option (List UInt8)} {mem inst : Addr}
    {created : Bool} (hinv : s.Inv) (hlog : ValidLog s.threads.log) :
    Valid s (.run paramSize param mem inst created) ↔
      Cond s (.run paramSize param mem inst created) := by
  rcases heapStep_run hinv with ⟨hrec, hnot, herr⟩ | ⟨hcond, heq⟩
  · exact iff_of_false (fun hv => hv.1 herr) fun hc => hnot (hc hrec)
  · refine iff_of_true ⟨fun h => ?_, fun h => ?_, fun s' h => ?_⟩ hcond
    · rcases step_run_error hinv (heq ▸ h) with h | h <;> cases h
    · rcases step_run_error hinv (heq ▸ h) with h | h <;> cases h
    · exact log_run hinv hlog (heq ▸ h)

/-! ## Joins and cancels -/

theorem valid_of_step {a : Act} (hs : heapStep s a = .ok s') (hlog : ValidLog s'.threads.log) :
    Valid s a := by
  rw [Valid, hs]
  refine ⟨nofun, nofun, fun t h => ?_⟩
  cases h
  exact hlog

/-- A cancel is valid exactly when its handle is that of a thread: the invariant says that
it was started and has not been joined. -/
theorem valid_cancel_iff (hinv : s.Inv) (hlog : ValidLog s.threads.log) :
    Valid s (.cancel rid) ↔ Cond s (.cancel rid) := by
  cases hm : s.runResMgn with
  | none =>
    have hstep : step s (.cancel rid) = .ok s := by simp only [step, runCancel, hm]
    constructor
    · intro _ mgn hmgn
      rw [hm] at hmgn
      cases hmgn
    · intro _
      exact valid_of_step hstep hlog
  | some mgn =>
    have hheld := hinv.held mgn hm
    cases hg : mgn.get rid with
    | none =>
      constructor
      · intro hv
        exact absurd (runCancel_none hm hinv hg) hv.2.1
      · intro hc
        obtain ⟨p, res, t, hg', -⟩ := hc mgn hm
        rw [hg] at hg'
        cases hg'
    | some e =>
      obtain ⟨-, handle, hr⟩ := hheld.record rid e.1 e.2 hg
      have hstep : step s (.cancel rid) = .ok ⟨some mgn, s.threads.note (.cancel handle)⟩ :=
        runCancel_some hm hinv hg hr
      constructor
      · intro hv mgn' hmgn'
        rw [hm] at hmgn'
        cases hmgn'
        -- a valid cancel is that of a started thread, so the block has a handle
        obtain ⟨t, rfl, -⟩ := (hv.2.2 _ hstep).1
        exact ⟨e.1, e.2, t, hg, hr⟩
      · intro hc
        obtain ⟨p, res, t, hg', hr'⟩ := hc mgn hm
        rw [hg] at hg'
        cases hg'
        rw [hr] at hr'
        cases hr'
        exact valid_of_step hstep ⟨⟨t, rfl, hinv.threads.handles _ t hr⟩, hlog⟩

/-- `run_done` is valid exactly when it has nothing to wait for: its first iteration
cancels what it has just joined. -/
theorem valid_done_iff (hinv : s.Inv) (hlog : ValidLog s.threads.log) :
    Valid s .done ↔ Cond s .done := by
  cases hm : s.runResMgn with
  | none =>
    have hstep : step s .done = .ok s := by simp only [step, runDone, hm]
    constructor
    · intro _ mgn hmgn
      rw [hm] at hmgn
      cases hmgn
    · intro _
      exact valid_of_step hstep hlog
  | some mgn =>
    obtain ⟨mgn', threads', later, hloop, -, hl, hstop, hgo⟩ :=
      doneLoop_run _ (Nat.le_refl _) (hinv.held mgn hm) hinv.threads
    have hstep := runDone_some hm hloop
    constructor
    · intro hv m hmm
      rw [hm] at hmm
      cases hmm
      by_contra hneg
      obtain ⟨later', handle, rfl⟩ := hgo (Int.not_lt.mp hneg)
      have hvl : ValidLog threads'.log := (hv.2.2 _ hstep).2
      rw [hl, List.append_assoc] at hvl
      -- the cancel comes right after the join of the same handle
      obtain ⟨⟨t, rfl, -, hnj⟩, -⟩ := hvl.tail
      exact hnj List.mem_cons_self
    · intro hc
      rw [hstop (hc mgn hm)] at hl
      refine valid_of_step hstep ⟨trivial, ?_⟩
      rw [hl]
      exact hlog

/-! ## Runs -/

/-- In every run of starts, cancels and `run_done`s, whatever the allocator and
`pthread_create` answer: no step stores past the block of a record or uses a `nil` record, and
every join and cancel so far is valid, at every step, exactly when at every step `run` has no
parameters and a block with room for `sizeof(thread)` (or gets no record), `run_cancel` finds
the record of a started thread (or no manager) and `run_done` finds nothing to wait for. -/
theorem thread_ops_valid_iff (acts : List Act) :
    Along heapStep Valid init acts ↔ Along heapStep Cond init acts := by
  have hinit : init.Inv ∧ ValidLog init.threads.log := ⟨inv_init, trivial⟩
  refine along_congr (fun s => s.Inv ∧ ValidLog s.threads.log) (fun s a hJ => ?_)
    (fun s a s' hJ hv h => ?_) hinit
  · obtain ⟨hinv, hlog⟩ := hJ
    cases a with
    | run paramSize param mem inst created => exact valid_run_iff hinv hlog
    | cancel rid => exact valid_cancel_iff hinv hlog
    | done => exact valid_done_iff hinv hlog
  · exact ⟨inv_step s a s' hJ.1 (heapStep_eq_ok hJ.1 h), hv.2.2 s' h⟩

/-- The state after a first start whose stores are within the record's block. -/
theorem step_first_run (created : Bool) :
    ∃ s mgn p res, heapStep init (.run 24 none 16 16 created) = .ok s ∧ s.Inv ∧
      ValidLog s.threads.log ∧ s.runResMgn = some mgn ∧ mgn.newest = 0 ∧
      mgn.get 0 = some (p, res) ∧ (∀ i, i ≠ 0 → mgn.get i = none) ∧
      s.threads.insts.read res.data.inst = some (if created then some 0 else none) := by
  have hid : (resCreateManagement : ResMgn Thread).FirstFree 0 := firstFree_of_nil rfl
  have ha : (16 : Addr) ≠ NULL ∧ (resCreateManagement : ResMgn Thread).table.heap.cells 16 = none :=
    ⟨by decide, rfl⟩
  have hinst : (16 : Addr) ≠ NULL ∧ init.threads.insts.cells 16 = none := ⟨by decide, rfl⟩
  obtain ⟨mgn, hrun, hup⟩ := run_ok 24 none created inv_create rfl hid ha hinst
  have hother : ∀ i, i ≠ 0 → mgn.get i = none := by
    intro i hi
    rw [hup.other i hi, get_created inv_create hid, if_neg hi]
    rfl
  have hnew : mgn.newest = 0 := by
    rcases newest_cases hup.inv with ⟨hnil, -⟩ | ⟨p, res, -, hg⟩
    · rw [hup.chain] at hnil
      exact absurd hnil (by simp [ResMgn.created, Table.insert, Table.link])
    · by_contra hne
      rw [hother _ hne] at hg
      cases hg
  have hstep := step_run hrun
  have hheap : heapStep init (.run 24 none 16 16 created) =
      step init (.run 24 none 16 16 created) := by
    have hroom : sizeofThread.toNat ≤ resRoom (runSize 24) := by decide
    rcases heapStep_run inv_init with ⟨-, hnot, -⟩ | ⟨-, heq⟩
    · exact absurd ⟨rfl, hroom⟩ hnot
    · exact heq
  refine ⟨_, mgn, _, _, hheap.trans hstep, inv_step _ _ _ inv_init hstep,
    log_run inv_init trivial hstep, rfl, hnew, hup.self, hother, ?_⟩
  exact (read_threadsAfter hinst 16).trans (if_pos rfl)

/-- A start and `run_done`: a joined thread is cancelled. A failed creation and
`run_cancel`: what is cancelled is not a thread. `run_cancel` of an id that was never
issued: a `nil` record is used. In these the stores of `run` are within the block; a start
with a `param_size` of 8 bytes already stores past it. -/
theorem thread_ops_not_valid :
    ¬ Along heapStep Valid init [.run 24 none 16 16 true, .done] ∧
      ¬ Along heapStep Valid init [.run 24 none 16 16 false, .cancel 0] ∧
      ¬ Along heapStep Valid init [.run 24 none 16 16 true, .cancel 7] ∧
      ¬ Along heapStep Valid init [.run 8 none 16 16 true] := by
  refine ⟨fun h => ?_, fun h => ?_, fun h => ?_, fun h => ?_⟩
  · obtain ⟨s, mgn, p, res, hs, hinv, hlog, hm, hnew, -⟩ := step_first_run true
    have hneg := (valid_done_iff hinv hlog).mp (h.2 s hs).1 mgn hm
    rw [hnew] at hneg
    exact absurd hneg (by decide)
  · obtain ⟨s, mgn, p, res, hs, hinv, hlog, hm, -, hg, -, hr⟩ := step_first_run false
    obtain ⟨p', res', t, hg', hr'⟩ := (valid_cancel_iff hinv hlog).mp (h.2 s hs).1 mgn hm
    rw [hg] at hg'
    cases hg'
    rw [hr] at hr'
    cases hr'
  · obtain ⟨s, mgn, p, res, hs, hinv, hlog, hm, -, -, hother, -⟩ := step_first_run true
    obtain ⟨p', res', t, hg', -⟩ := (valid_cancel_iff hinv hlog).mp (h.2 s hs).1 mgn hm
    rw [hother 7 (by decide)] at hg'
    cases hg'
  · have hrec : init.Recorded 16 := ⟨⟨0, firstFree_of_nil rfl⟩, by decide, rfl⟩
    obtain ⟨-, hroom⟩ := (valid_run_iff inv_init trivial).mp h.1 hrec
    exact absurd hroom (by decide)

end RunState

end ShellJs
