import ShellJs.Resource.Limits
import ShellJs.Thread.Validity

/-!
# Draining the managed threads

A batch is a list of successful starts followed by `run_done`. `Phase` describes the
state inside a batch: the `i`-th record in the table has the id `i` and the handle of the
batch's `i`-th thread. A start adds the next record, and the loop of `run_done` takes the
records off again from the tail.

* `phase_run`, `doneLoop_drain`, `phase_done`: one start, the loop, and `run_done`.
* `run_done_drains`: the log of any sequence of batches.
-/

namespace ShellJs

namespace RunState

open Runs ResMgn

/-- A call of `run` whose `pthread_create` succeeds. -/
structure Start where
  paramSize : UInt64
  param : Option (List UInt8)
  mem : Addr
  inst : Addr

def Start.act (start : Start) : Act :=
  .run start.paramSize start.param start.mem start.inst true

/-- The bytes that the started thread finds. -/
def Start.bytes (start : Start) : List UInt8 :=
  (runRecord start.paramSize start.param start.inst).param

/-- The allocations of the step succeed. -/
def Allocates (s : RunState) : Act → Prop
  | .run _ _ mem inst _ =>
    (mem ≠ NULL ∧ (s.runResMgn.getD resCreateManagement).table.heap.cells mem = none) ∧
      inst ≠ NULL ∧ s.threads.insts.cells inst = none
  | .cancel _ => True
  | .done => True

instance (s : RunState) : ∀ a, Decidable (Allocates s a)
  | .run .. => inferInstanceAs (Decidable ((_ ∧ _) ∧ _ ∧ _))
  | .cancel _ => inferInstanceAs (Decidable True)
  | .done => inferInstanceAs (Decidable True)

def program (batches : List (List Start)) : List Act :=
  batches.flatMap fun starts => starts.map Start.act ++ [.done]

/-! ## The log of a program -/

/-- The starts of a batch whose first thread is `first`. -/
def startLog : Tid → List Start → List ThreadEvent
  | _, [] => []
  | first, start :: starts => startLog (first + 1) starts ++ [.started first start.bytes]

/-- `n` iterations of `run_done`: the latest thread comes first, so its events are the
earliest. -/
def drainLog (first : Tid) : Nat → List ThreadEvent
  | 0 => []
  | n + 1 => drainLog first n ++
      [.released (BitVec.ofNat 32 n), .cancel (some (first + n)), .join (some (first + n))]

/-- `run_done` after `n` starts. Without a start there is no manager to release. -/
def doneLog (first : Tid) : Nat → List ThreadEvent
  | 0 => []
  | n + 1 => .managementReleased 0 :: drainLog first (n + 1)

def programLog : Tid → List (List Start) → List ThreadEvent
  | _, [] => []
  | first, starts :: batches =>
    programLog (first + starts.length) batches ++
      (doneLog first starts.length ++ startLog first starts)

/-! ## Inside a batch -/

/-- The records of the first `n` threads of the batch, in the order of their start. -/
structure Batch (mgn : ResMgn Thread) (threads : Threads) (first : Tid) (n : Nat) : Prop where
  length : mgn.table.chain.length = n
  record : ∀ i < n, ∃ p res, mgn.table.chain[i]? = some p.addr ∧
    mgn.get (BitVec.ofNat 32 i) = some (p, res) ∧
    threads.insts.read res.data.inst = some (some (first + i))
  owned : ∀ a h, threads.insts.read a = some h →
    ∃ i < n, ∃ p res, mgn.get (BitVec.ofNat 32 i) = some (p, res) ∧ res.data.inst = a

structure Phase (s : RunState) (first : Tid) (n : Nat) : Prop where
  inv : s.Inv
  batch : Batch (s.runResMgn.getD resCreateManagement) s.threads first n
  young : (s.runResMgn.getD resCreateManagement).Young n
  started : s.threads.started = first + n
  manager : s.runResMgn = none ↔ n = 0

variable {mgn mgn' : ResMgn Thread} {threads threads' : Threads} {s s' : RunState} {first : Tid}
  {n : Nat}

theorem ofNat_ne {i j : Nat} (hi : i < 2 ^ 32) (hj : j < 2 ^ 32) (hij : i ≠ j) :
    (BitVec.ofNat 32 i : CInt) ≠ BitVec.ofNat 32 j := by
  intro h
  refine hij (ofNat_inj hi hj 0 ?_)
  rw [h]

theorem phase_init : Phase init 0 0 := by
  refine ⟨inv_init, ⟨rfl, fun i hi => absurd hi (Nat.not_lt_zero i), ?_⟩, young_create, rfl,
    iff_of_true rfl rfl⟩
  intro a h hr
  cases hr

/-- The table after a start. -/
theorem Batch.add {paramSize : UInt64} {param : Option (List UInt8)} {mem inst : Addr}
    (h : Batch mgn threads first n) (hn : n < 2 ^ 31) (hinv : mgn.Inv)
    (hid : mgn.FirstFree (BitVec.ofNat 32 n)) {ha}
    (hinst : inst ≠ NULL ∧ threads.insts.cells inst = none) (hst : threads.started = first + n)
    (hup : (mgn.created (BitVec.ofNat 32 n) (newThread paramSize) mem ha).Updated mgn'
      (BitVec.ofNat 32 n) ⟨mem, mgn.table.heap.next⟩ (runRecord paramSize param inst)) :
    Batch mgn' (threadsAfter inst (storeParam paramSize param (newThread paramSize)) true threads
      hinst) first (n + 1) := by
  have hchain : mgn'.table.chain = mgn.table.chain ++ [mem] := hup.chain
  have hold : ∀ i < n, mgn'.get (BitVec.ofNat 32 i) = mgn.get (BitVec.ofNat 32 i) := by
    intro i hi
    have hne := ofNat_ne (by omega) (by omega) (Nat.ne_of_lt hi)
    rw [hup.other _ hne, get_created hinv hid, if_neg hne]
  refine ⟨?_, fun i hi => ?_, fun a handle hr => ?_⟩
  · rw [hchain, List.length_append, h.length]
    rfl
  · rcases Nat.lt_succ_iff_lt_or_eq.mp hi with hi | rfl
    · obtain ⟨p, res, hp, hg, hr⟩ := h.record i hi
      refine ⟨p, res, ?_, (hold i hi).trans hg, ?_⟩
      · rw [hchain, List.getElem?_append_left (by rw [h.length]; exact hi), hp]
      · have hne : res.data.inst ≠ inst := by
          intro heq
          rw [heq, Heap.read_eq_none.mpr hinst.2] at hr
          cases hr
        rw [read_threadsAfter, if_neg hne, hr]
    · refine ⟨_, _, ?_, hup.self, ?_⟩
      · rw [hchain, List.getElem?_append_right (Nat.le_of_eq h.length), h.length, Nat.sub_self]
        rfl
      · rw [read_threadsAfter, if_pos (show (runRecord paramSize param inst).inst = inst from rfl),
          hst]
        rfl
  · rw [read_threadsAfter] at hr
    split at hr
    · next hai =>
      exact ⟨n, Nat.lt_succ_self n, _, _, hup.self, hai.symm⟩
    · obtain ⟨i, hi, p, res, hg, hi'⟩ := h.owned a handle hr
      exact ⟨i, Nat.lt_succ_of_lt hi, p, res, (hold i hi).trans hg, hi'⟩

/-- A start creates the next thread. -/
theorem phase_run (h : Phase s first n) (hn : n < 2 ^ 31) (start : Start)
    (ha : Allocates s start.act) :
    ∃ s', step s start.act = .ok s' ∧ Phase s' first (n + 1) ∧
      s'.threads.log = .started (first + n) start.bytes :: s.threads.log := by
  obtain ⟨hmem, hinst⟩ := ha
  have hheld := held_getD h.inv
  have hid := h.young.firstFree (by omega)
  obtain ⟨mgn', hrun, hup⟩ :=
    run_ok start.paramSize start.param true hheld.inv rfl hid hmem hinst
  refine ⟨_, step_run hrun, ⟨inv_step _ _ _ h.inv (step_run hrun),
    h.batch.add hn hheld.inv hid hinst h.started hup, ?_, ?_,
    iff_of_false (Option.some_ne_none _) (Nat.succ_ne_zero n)⟩, ?_⟩
  · refine h.young.add hup.lastId fun i hi => ?_
    show mgn'.get i = _
    rw [hup.other i hi, get_created hheld.inv hid, if_neg hi]
  · rw [started_threadsAfter, if_pos rfl, h.started]
    rfl
  · rw [log_threadsAfter, if_pos rfl, h.started]
    rfl

theorem phase_starts (starts : List Start) (h : Phase s first n)
    (hn : n + starts.length ≤ 2 ^ 31)
    (ha : Along step Allocates s (starts.map Start.act)) :
    ∃ s', exec step s (starts.map Start.act) = .ok s' ∧ Phase s' first (n + starts.length) ∧
      s'.threads.log = startLog (first + n) starts ++ s.threads.log := by
  induction starts generalizing s n with
  | nil => exact ⟨s, rfl, h, rfl⟩
  | cons start starts ih =>
    rw [List.length_cons] at hn
    obtain ⟨s₁, hs₁, h₁, hlog₁⟩ := phase_run h (by omega) start ha.1
    obtain ⟨s', hs', h', hlog'⟩ := ih h₁ (by omega) (ha.2 s₁ hs₁)
    refine ⟨s', by rw [List.map_cons, exec_cons_ok hs₁, hs'], ?_, ?_⟩
    · rw [Nat.add_right_comm, Nat.add_assoc] at h'
      exact h'
    · rw [hlog', hlog₁, startLog, List.append_assoc]
      rfl

/-! ## The end of a batch -/

/-- The newest record of a batch is that of its last thread. -/
theorem Batch.newest (h : Batch mgn threads first (n + 1)) (hinv : mgn.Inv) :
    ∃ p res, mgn.newest = BitVec.ofNat 32 n ∧ mgn.get (BitVec.ofNat 32 n) = some (p, res) ∧
      threads.insts.read res.data.inst = some (some (first + n)) := by
  obtain ⟨p, res, hp, hg, hr⟩ := h.record n (Nat.lt_succ_self n)
  refine ⟨p, res, ?_, hg, hr⟩
  rcases newest_cases hinv with ⟨hnil, -⟩ | ⟨q, res', hlast, hg'⟩
  · have hlen := h.length
    rw [hnil] at hlen
    cases hlen
  · rw [List.getLast?_eq_getElem?, h.length, Nat.add_sub_cancel, hp] at hlast
    obtain ⟨-, he⟩ := Table.get_eq_some.mp hg
    obtain ⟨-, he'⟩ := Table.get_eq_some.mp hg'
    -- the last entry of the table is the batch's last record, so the ids agree
    rw [← Option.some.inj hlast, he] at he'
    cases he'
    exact (Table.key_of_get hg').symm.trans (Table.key_of_get hg)

/-- The table after the iteration for the last thread. -/
theorem Batch.drop {insts : Heap (Option Tid)} {p : Ptr} {res : Res Thread} {e : List ThreadEvent}
    (h : Batch mgn threads first (n + 1)) (hn : n < 2 ^ 31) (hheld : Held mgn threads)
    (hg : mgn.get (BitVec.ofNat 32 n) = some (p, res))
    (hchain : mgn.table.chain = mgn'.table.chain ++ [p.addr])
    (hget : ∀ i, mgn'.get i = if i = BitVec.ofNat 32 n then none else mgn.get i)
    (hfree : threads.insts.free res.data.inst = some insts) :
    Batch mgn' { threads with insts := insts, log := e } first n := by
  obtain ⟨b, hb, rfl⟩ := Heap.free_eq_some.mp hfree
  have hlen : mgn'.table.chain.length = n := by
    have hl := h.length
    rw [hchain, List.length_append] at hl
    exact Nat.succ.inj hl
  have hold : ∀ i < n, mgn'.get (BitVec.ofNat 32 i) = mgn.get (BitVec.ofNat 32 i) := by
    intro i hi
    rw [hget, if_neg (ofNat_ne (by omega) (by omega) (Nat.ne_of_lt hi))]
  refine ⟨hlen, fun i hi => ?_, fun a handle hr => ?_⟩
  · obtain ⟨q, res', hq, hg', hr'⟩ := h.record i (Nat.lt_succ_of_lt hi)
    refine ⟨q, res', ?_, (hold i hi).trans hg', ?_⟩
    · rw [hchain, List.getElem?_append_left (by rw [hlen]; exact hi)] at hq
      exact hq
    · have hne : res'.data.inst ≠ res.data.inst := fun heq =>
        ofNat_ne (by omega) (by omega) (Nat.ne_of_lt hi)
          (hheld.inj _ _ q p res' res hg' hg heq)
      exact (Heap.read_drop_of_ne hb hne).trans hr'
  · have hne : a ≠ res.data.inst := by
      rintro rfl
      rw [Heap.read_drop_self] at hr
      cases hr
    obtain ⟨i, hi, q, res', hg', ha⟩ :=
      h.owned a handle ((Heap.read_drop_of_ne hb hne).symm.trans hr)
    rcases Nat.lt_succ_iff_lt_or_eq.mp hi with hi | rfl
    · exact ⟨i, hi, q, res', (hold i hi).trans hg', ha⟩
    · rw [hg] at hg'
      cases hg'
      exact absurd ha.symm hne

/-- The loop of `run_done` runs once for each record, from the last to the first. -/
theorem doneLoop_drain (n : Nat) (hn : n ≤ 2 ^ 31) (hheld : Held mgn threads) (hinv : threads.Inv)
    (h : Batch mgn threads first n) :
    ∃ mgn' threads', doneLoop n mgn threads = .ok (mgn', threads') ∧ threads'.Inv ∧
      mgn'.table.chain = [] ∧ threads'.log = drainLog first n ++ threads.log ∧
      threads'.started = threads.started ∧ ∀ a, threads'.insts.read a = none := by
  induction n generalizing mgn threads with
  | zero =>
    have hnil := List.length_eq_zero_iff.mp h.length
    have hneg : mgn.newest.toInt < 0 := by
      rcases newest_cases hheld.inv with ⟨-, hm⟩ | ⟨p, res, hlast, -⟩
      · rw [hm]
        decide
      · rw [hnil] at hlast
        cases hlast
    refine ⟨mgn, threads, doneLoop_stop hheld.inv hneg, hinv, hnil, rfl, rfl, fun a => ?_⟩
    cases hr : threads.insts.read a with
    | none => rfl
    | some handle =>
      obtain ⟨i, hi, -⟩ := h.owned a handle hr
      exact absurd hi (Nat.not_lt_zero i)
  | succ n ih =>
    obtain ⟨p, res, hnew, hg, hr⟩ := h.newest hheld.inv
    have hpos : 0 ≤ mgn.newest.toInt := by
      rw [hnew]
      exact toInt_ofNat_nonneg (by omega)
    obtain ⟨q, res', handle, m, insts, hchain, hg', hr', hfree, hb, hheld', hget⟩ :=
      doneBody_newest hheld hpos
    -- the record that the loop takes is that of the last thread of the batch
    rw [hnew] at hg' hget
    rw [hg] at hg'
    cases hg'
    rw [hr] at hr'
    cases hr'
    obtain ⟨mgn', threads', hloop, hinv', hnil, hlog, hst, hnone⟩ := ih (by omega) hheld'
      (inv_drained hinv hr hfree) (h.drop (by omega) hheld hg hchain hget hfree)
    refine ⟨mgn', threads', (doneLoop_next hheld.inv hpos hb).trans hloop, hinv', hnil, ?_, hst,
      hnone⟩
    rw [hlog, drainLog, List.append_assoc, hnew]
    rfl

theorem phase_done (h : Phase s first n) (hn : n ≤ 2 ^ 31) :
    ∃ s', step s .done = .ok s' ∧ Phase s' (first + n) 0 ∧ s'.runResMgn = none ∧
      s'.threads.log = doneLog first n ++ s.threads.log := by
  cases hm : s.runResMgn with
  | none =>
    obtain rfl := h.manager.mp hm
    exact ⟨s, by simp only [step, runDone, hm], h, hm, rfl⟩
  | some mgn =>
    have hbatch := h.batch
    rw [hm, Option.getD_some] at hbatch
    obtain ⟨mgn', threads', hloop, hinv', hnil, hlog, hst, hnone⟩ :=
      doneLoop_drain n hn (h.inv.held mgn hm) h.inv.threads hbatch
    have hpos : n ≠ 0 := fun hn => by
      rw [h.manager.mpr hn] at hm
      cases hm
    rw [← hbatch.length] at hloop
    have hstep := runDone_some hm hloop
    refine ⟨_, hstep, ⟨inv_step _ .done _ h.inv hstep,
      ⟨rfl, fun i hi => absurd hi (Nat.not_lt_zero i),
      fun a handle hr => ?_⟩, young_create, ?_, iff_of_true rfl rfl⟩, rfl, ?_⟩
    · have hr' := (hnone a).symm.trans hr
      cases hr'
    · exact hst.trans h.started
    · obtain ⟨k, rfl⟩ := Nat.exists_eq_succ_of_ne_zero hpos
      show _ :: threads'.log = _
      rw [hnil, hlog]
      rfl

/-! ## Programs -/

theorem phase_program (batches : List (List Start))
    (hlen : ∀ starts ∈ batches, starts.length < 2 ^ 31) (h : Phase s first 0)
    (ha : Along step Allocates s (program batches)) :
    ∃ s' last, exec step s (program batches) = .ok s' ∧ Phase s' last 0 ∧
      s'.threads.log = programLog first batches ++ s.threads.log := by
  induction batches generalizing s first with
  | nil => exact ⟨s, first, rfl, h, rfl⟩
  | cons starts batches ih =>
    have hstarts : starts.length ≤ 2 ^ 31 := Nat.le_of_lt (hlen starts List.mem_cons_self)
    have hsplit : program (starts :: batches) =
        (starts.map Start.act ++ [.done]) ++ program batches := List.flatMap_cons ..
    rw [hsplit] at ha ⊢
    obtain ⟨hbatch, hrest⟩ := along_append.mp ha
    obtain ⟨s₁, hs₁, h₁, hlog₁⟩ :=
      phase_starts starts h (by omega) (along_append.mp hbatch).1
    rw [Nat.zero_add] at h₁
    obtain ⟨s₂, hs₂, h₂, -, hlog₂⟩ := phase_done h₁ hstarts
    have hexec : exec step s (starts.map Start.act ++ [.done]) = .ok s₂ :=
      exec_append.mpr ⟨s₁, hs₁, by rw [exec_cons_ok hs₂]; rfl⟩
    obtain ⟨s', last, hs', h', hlog'⟩ :=
      ih (fun starts hs => hlen starts (List.mem_cons_of_mem _ hs)) h₂ (hrest s₂ hexec)
    refine ⟨s', last, exec_append.mpr ⟨s₂, hexec, hs'⟩, h', ?_⟩
    rw [hlog', hlog₂, hlog₁, programLog, List.append_assoc, List.append_assoc, Nat.add_zero]

/-- Any sequence of batches of fewer than 2^31 starts, each followed by `run_done`, ends
without a fault and without a manager. The log is that of the batches one after the other:
in each, the starts, then for each record from the last to the first one join, one cancel
and one release, then the release of the manager with no record left. No `pthread_t` block
is left either. -/
theorem run_done_drains (batches : List (List Start))
    (hlen : ∀ starts ∈ batches, starts.length < 2 ^ 31)
    (halloc : Along step Allocates init (program batches)) :
    ∃ s, exec step init (program batches) = .ok s ∧ s.runResMgn = none ∧
      s.threads.log = programLog 0 batches ∧ ∀ a, s.threads.insts.read a = none := by
  obtain ⟨s, last, hs, h, hlog⟩ := phase_program batches hlen phase_init halloc
  refine ⟨s, hs, h.manager.mpr rfl, hlog.trans (List.append_nil _), fun a => ?_⟩
  cases hr : s.threads.insts.read a with
  | none => rfl
  | some handle =>
    obtain ⟨i, hi, -⟩ := h.batch.owned a handle hr
    exact absurd hi (Nat.not_lt_zero i)

/-- Two threads, and one more in a second batch, which gets the id 0 again. -/
def twoBatches : List (List Start) :=
  [[⟨8, some [1, 2, 3, 4, 5, 6, 7, 8], 16, 48⟩, ⟨0, none, 32, 64⟩], [⟨24, none, 16, 48⟩]]

theorem run_done_drains_twoBatches : ∃ s,
    exec step init (program twoBatches) = .ok s ∧ s.runResMgn = none ∧
      s.threads.log = [.managementReleased 0, .released 0, .cancel (some 2), .join (some 2),
        .started 2 (List.replicate 24 0),
        .managementReleased 0, .released 0, .cancel (some 0), .join (some 0),
        .released 1, .cancel (some 1), .join (some 1),
        .started 1 (List.replicate 8 0), .started 0 (List.replicate 8 0)] := by
  have halloc : Along step Allocates init (program twoBatches) := by
    decide +kernel
  obtain ⟨s, hs, hm, hlog, -⟩ := run_done_drains twoBatches (by decide) halloc
  exact ⟨s, hs, hm, hlog⟩

end RunState

end ShellJs
