import ShellJs.Resource.Spec
import ShellJs.Thread.Model

/-!
# What each thread function does

* `Held mgn threads`: every record of the manager has a `pthread_t` block of its own.
* `Threads.Inv`: the handles in the blocks are those of threads that were started and
  not joined, each in one block.
* `run_ok`, `run_inv`, `doneBody_ok`: the effect of a start and of one iteration of
  `run_done`; both keep the invariants.
-/

namespace ShellJs

open ResMgn

/-- The records of the manager and their `pthread_t` blocks. -/
structure Held (mgn : ResMgn Thread) (threads : Threads) : Prop where
  inv : mgn.Inv
  record : ∀ id p res, mgn.get id = some (p, res) →
    res.data.shouldFree = false ∧ ∃ handle, threads.insts.read res.data.inst = some handle
  inj : ∀ id id' p p' res res', mgn.get id = some (p, res) → mgn.get id' = some (p', res') →
    res.data.inst = res'.data.inst → id = id'

/-- The log shows that the thread was created. -/
def Started (log : List ThreadEvent) (t : Tid) : Prop := ∃ param, .started t param ∈ log

structure Threads.Inv (threads : Threads) : Prop where
  handles : ∀ a t, threads.insts.read a = some (some t) →
    Started threads.log t ∧ .join (some t) ∉ threads.log
  inj : ∀ a b t, threads.insts.read a = some (some t) → threads.insts.read b = some (some t) →
    a = b
  fresh : ∀ t, Started threads.log t ∨ .join (some t) ∈ threads.log → t < threads.started

structure RunState.Inv (s : RunState) : Prop where
  held : ∀ mgn, s.runResMgn = some mgn → Held mgn s.threads
  threads : s.threads.Inv

namespace RunState

variable {mgn mgn' : ResMgn Thread} {threads : Threads} {id rid : CInt} {p : Ptr}
  {res : Res Thread} {handle : Option Tid} {mem inst : Addr} {created : Bool}
  {paramSize : UInt64} {param : Option (List UInt8)} {s s' : RunState}

theorem inv_init : init.Inv := by
  refine ⟨(fun _ h => nomatch h), (fun _ _ h => nomatch h), (fun _ _ _ h => nomatch h),
    fun t ht => ?_⟩
  rcases ht with ⟨_, h⟩ | h
  · cases h
  · cases h

theorem held_create : Held resCreateManagement threads :=
  ⟨inv_create, (fun _ _ _ h => nomatch h), fun _ _ _ _ _ _ h => nomatch h⟩

theorem held_getD (hinv : s.Inv) : Held (s.runResMgn.getD resCreateManagement) s.threads := by
  cases hm : s.runResMgn with
  | none => exact held_create
  | some mgn => exact hinv.held mgn hm

/-! ## `wait_thread` and `destroy_thread` -/

theorem waitThread_ok (hg : mgn.get id = some (p, res))
    (hr : threads.insts.read res.data.inst = some handle) :
    waitThread p mgn threads = .ok (threads.note (.join handle)) := by
  simp only [waitThread, deref_of_get hg, hr, orFault, ok_bind]
  rfl

theorem destroyThread_ok (hinv : mgn.Inv) (hg : mgn.get id = some (p, res))
    (hr : threads.insts.read res.data.inst = some handle) (hs : res.data.shouldFree = false) :
    ∃ mgn' insts, destroyThread p mgn threads =
        .ok (mgn', { threads.note (.cancel handle) with insts := insts }) ∧
      mgn.Updated mgn' id p { res.data with inst := NULL } ∧
      threads.insts.free res.data.inst = some insts := by
  obtain ⟨mgn', hm, hup⟩ := (updated_self hinv hg).modify fun t => { t with inst := NULL }
  obtain ⟨b, hb, -, hfree⟩ := Heap.free_of_read hr
  refine ⟨mgn', _, ?_, hup, hfree⟩
  simp only [destroyThread, deref_of_get hg, orFault, ok_bind, hm, hr, hfree, hs,
    if_neg (Heap.ne_null_of_read hr)]
  rfl

/-! ## An iteration of `run_done` -/

/-- The threads after the block of a record was freed and three calls were noted. -/
def drained (threads : Threads) (insts : Heap (Option Tid)) (handle : Option Tid) (rid : CInt) :
    Threads :=
  { threads with insts := insts
                 log := .released rid :: .cancel handle :: .join handle :: threads.log }

theorem inv_drained (hinv : threads.Inv) {insts : Heap (Option Tid)} {a : Addr}
    (hr : threads.insts.read a = some handle) (hfree : threads.insts.free a = some insts) :
    (drained threads insts handle rid).Inv := by
  obtain ⟨b, hb, rfl⟩ := Heap.free_eq_some.mp hfree
  have hback : ∀ x t, (threads.insts.drop a b hb).read x = some (some t) →
      x ≠ a ∧ threads.insts.read x = some (some t) := by
    intro x t hx
    have hxa : x ≠ a := by
      rintro rfl
      rw [Heap.read_drop_self] at hx
      cases hx
    exact ⟨hxa, (Heap.read_drop_of_ne hb hxa).symm.trans hx⟩
  have hstarted : ∀ t, Started (drained threads (threads.insts.drop a b hb) handle rid).log t ↔
      Started threads.log t := by
    intro t
    simp [Started, drained]
  refine ⟨fun x t hx => ?_, fun x y t hx hy => ?_, fun t ht => ?_⟩
  · obtain ⟨hxa, hx'⟩ := hback x t hx
    obtain ⟨hst, hnj⟩ := hinv.handles x t hx'
    refine ⟨(hstarted t).mpr hst, ?_⟩
    have hne : handle ≠ some t := by
      rintro rfl
      exact hxa (hinv.inj x a t hx' hr)
    simp [drained, hnj, Ne.symm hne]
  · exact hinv.inj x y t (hback x t hx).2 (hback y t hy).2
  · apply hinv.fresh t
    rcases ht with ht | ht
    · exact .inl ((hstarted t).mp ht)
    · rcases List.mem_cons.mp ht with ht | ht
      · cases ht
      rcases List.mem_cons.mp ht with ht | ht
      · cases ht
      rcases List.mem_cons.mp ht with ht | ht
      · cases ht
        exact .inl (hinv.handles a t hr).1
      · exact .inr ht

/-- One iteration joins, cancels and releases the record `rid`. -/
theorem doneBody_ok (hheld : Held mgn threads) (hg : mgn.get rid = some (p, res))
    (hr : threads.insts.read res.data.inst = some handle) :
    ∃ mgn' insts, doneBody rid mgn threads = .ok (mgn', drained threads insts handle rid) ∧
      threads.insts.free res.data.inst = some insts ∧
      Held mgn' (drained threads insts handle rid) ∧
      mgn'.table.chain = mgn.table.chain.erase p.addr ∧
      ∀ i, mgn'.get i = if i = rid then none else mgn.get i := by
  obtain ⟨hs, -⟩ := hheld.record rid p res hg
  have hr' : (threads.note (.join handle)).insts.read res.data.inst = some handle := hr
  obtain ⟨m, insts, hd, hup, hfree⟩ := destroyThread_ok hheld.inv hg hr' hs
  obtain ⟨table, htable, hrel, hinv', hget'⟩ := resRelease_some hup.inv hup.self
  have hget : ∀ i, ResMgn.get { m with table := table } i =
      if i = rid then none else mgn.get i := by
    intro i
    rw [hget' i]
    split
    · rfl
    · next hi => exact hup.other i hi
  have hback : ∀ i q r, ResMgn.get { m with table := table } i = some (q, r) →
      i ≠ rid ∧ mgn.get i = some (q, r) := by
    intro i q r hi
    rw [hget i] at hi
    split at hi
    · cases hi
    · next hne => exact ⟨hne, hi⟩
  refine ⟨{ m with table := table }, insts, ?_, hfree, ⟨hinv', fun i q r hi => ?_,
    fun i j q q' r r' hi hj => ?_⟩, ?_, hget⟩
  · simp only [doneBody, resGet_eq hheld.inv.unlocked, hg, Option.map_some, ok_bind,
      waitThread_ok hg hr, hd, hrel]
    rfl
  · obtain ⟨hne, hi'⟩ := hback i q r hi
    obtain ⟨hsf, h, hh⟩ := hheld.record i q r hi'
    obtain ⟨b, hb, rfl⟩ := Heap.free_eq_some.mp hfree
    -- another record's block is not the one that was freed
    have hother : r.data.inst ≠ res.data.inst := fun heq =>
      hne (hheld.inj i rid q p r res hi' hg heq)
    exact ⟨hsf, h, (Heap.read_drop_of_ne hb hother).trans hh⟩
  · exact hheld.inj i j q q' r r' (hback i q r hi).2 (hback j q' r' hj).2
  · show table.chain = mgn.table.chain.erase p.addr
    rw [Table.chain_free htable, ← hup.chain]
    rfl

/-! ## The loop of `run_done` -/

theorem doneLoop_stop {n : Nat} (hinv : mgn.Inv) (hn : mgn.newest.toInt < 0) :
    doneLoop n mgn threads = .ok (mgn, threads) := by
  unfold doneLoop
  simp only [resAny_eq hinv, ok_bind, if_neg (Int.not_le.mpr hn)]
  rfl

theorem doneLoop_next {n : Nat} {threads' : Threads} (hinv : mgn.Inv) (hn : 0 ≤ mgn.newest.toInt)
    (hb : doneBody mgn.newest mgn threads = .ok (mgn', threads')) :
    doneLoop (n + 1) mgn threads = doneLoop n mgn' threads' := by
  rw [doneLoop]
  simp only [resAny_eq hinv, ok_bind, if_pos hn, hb]

/-- The iteration for the newest record takes it off the tail of the table. -/
theorem doneBody_newest (hheld : Held mgn threads) (hn : 0 ≤ mgn.newest.toInt) :
    ∃ p res handle mgn' insts, mgn.table.chain = mgn'.table.chain ++ [p.addr] ∧
      mgn.get mgn.newest = some (p, res) ∧
      threads.insts.read res.data.inst = some handle ∧
      threads.insts.free res.data.inst = some insts ∧
      doneBody mgn.newest mgn threads = .ok (mgn', drained threads insts handle mgn.newest) ∧
      Held mgn' (drained threads insts handle mgn.newest) ∧
      ∀ i, mgn'.get i = if i = mgn.newest then none else mgn.get i := by
  rcases newest_cases hheld.inv with ⟨-, hneg⟩ | ⟨p, res, hlast, hg⟩
  · rw [hneg] at hn
    exact absurd hn (by decide)
  · obtain ⟨-, handle, hr⟩ := hheld.record _ p res hg
    obtain ⟨mgn', insts, hb, hfree, hheld', hchain, hget⟩ := doneBody_ok hheld hg hr
    obtain ⟨l, hl⟩ := List.getLast?_eq_some_iff.mp hlast
    refine ⟨p, res, handle, mgn', insts, ?_, hg, hr, hfree, hb, hheld', hget⟩
    have hnd := hheld.inv.wf.nodup
    rw [hl] at hnd
    have hp : p.addr ∉ l := fun hp =>
      (List.nodup_append.mp hnd).2.2 _ hp _ List.mem_cons_self rfl
    rw [hchain, hl, List.erase_append_right _ hp, List.erase_cons_head, List.append_nil]

/-! ## `run_thread` and `run` -/

/-- What `run_thread` makes of a record. -/
def cleared (inst : Addr) (t : Thread) : Thread :=
  { t with inst := inst, shouldFree := false
           param := platMemCopy t.param (zeroBytes sizeofPtr) sizeofPtr }

/-- The threads after `run_thread`. -/
def threadsAfter (inst : Addr) (t : Thread) (created : Bool) (threads : Threads)
    (hinst : inst ≠ NULL ∧ threads.insts.cells inst = none) : Threads :=
  pthreadCreate inst (cleared inst t).param created
    { threads with insts := threads.insts.put inst none hinst }

variable {mgn₀ : ResMgn Thread} {t : Thread}

theorem runThread_ok (created : Bool) (hup : mgn₀.Updated mgn id p t)
    (hinst : inst ≠ NULL ∧ threads.insts.cells inst = none) :
    ∃ mgn', runThread p inst created mgn threads =
        .ok (mgn', threadsAfter inst t created threads hinst) ∧
      mgn₀.Updated mgn' id p (cleared inst t) := by
  obtain ⟨m₁, h₁, hup₁⟩ := hup.modify (cleared NULL)
  obtain ⟨m₂, h₂, hup₂⟩ := hup₁.modify fun t => { t with inst := inst }
  refine ⟨m₂, ?_, hup₂⟩
  unfold cleared at h₁
  simp only [runThread, h₁, ok_bind, Heap.malloc_of_free hinst, h₂, deref_of_get hup₂.self, orFault,
    if_neg hinst.1]
  rfl

theorem runThread_oom (hup : mgn₀.Updated mgn id p t)
    (hinst : ¬ (inst ≠ NULL ∧ threads.insts.cells inst = none)) :
    runThread p inst created mgn threads = .error .outOfMemory := by
  obtain ⟨m₁, h₁, hup₁⟩ := hup.modify (cleared NULL)
  obtain ⟨m₂, h₂, hup₂⟩ := hup₁.modify fun t => { t with inst := NULL }
  unfold cleared at h₁
  simp only [runThread, h₁, ok_bind, Heap.malloc, dif_neg hinst, h₂, deref_of_get hup₂.self,
    orFault, if_true]

/-- The record that `run` leaves in the manager. -/
def runRecord (paramSize : UInt64) (param : Option (List UInt8)) (inst : Addr) : Thread :=
  cleared inst (storeParam paramSize param (newThread paramSize))

theorem storeParam_ok (paramSize : UInt64) (param : Option (List UInt8)) (hinv : mgn.Inv)
    (hid : mgn.FirstFree id) (ha) :
    ∃ m, (mgn.created id (newThread paramSize) mem ha).modify (storeParam paramSize param)
        ⟨mem, mgn.table.heap.next⟩ = .ok m ∧
      (mgn.created id (newThread paramSize) mem ha).Updated m id ⟨mem, mgn.table.heap.next⟩
        (storeParam paramSize param (newThread paramSize)) :=
  (updated_self (inv_created hinv hid ha) (get_created_self hinv hid ha)).modify _

theorem run_ok (paramSize : UInt64) (param : Option (List UInt8)) (created : Bool)
    (hinv : mgn.Inv) (hm : s.runResMgn.getD resCreateManagement = mgn)
    (hid : mgn.FirstFree id) (ha : mem ≠ NULL ∧ mgn.table.heap.cells mem = none)
    (hinst : inst ≠ NULL ∧ s.threads.insts.cells inst = none) :
    ∃ mgn', run paramSize param mem inst created s =
        .ok (⟨some mgn',
          threadsAfter inst (storeParam paramSize param (newThread paramSize)) created
          s.threads hinst⟩, id) ∧
      (mgn.created id (newThread paramSize) mem ha).Updated mgn' id ⟨mem, mgn.table.heap.next⟩
        (runRecord paramSize param inst) := by
  obtain ⟨m₁, h₁, hup₁⟩ := storeParam_ok paramSize param hinv hid ha
  obtain ⟨m₂, h₂, hup₂⟩ := runThread_ok created hup₁ hinst
  refine ⟨m₂, ?_, hup₂⟩
  simp only [run, hm, resCreate_ok hinv.unlocked hid ha, ok_bind, h₁, h₂]
  rfl

/-- A run that returns found an id and both blocks. -/
theorem run_inv (hinv : mgn.Inv) (hm : s.runResMgn.getD resCreateManagement = mgn)
    (h : run paramSize param mem inst created s = .ok (s', rid)) :
    mgn.FirstFree rid ∧ (mem ≠ NULL ∧ mgn.table.heap.cells mem = none) ∧
      inst ≠ NULL ∧ s.threads.insts.cells inst = none := by
  obtain ⟨⟨m, i, p⟩, hc, hrest⟩ := bind_eq_ok.mp h
  rw [hm] at hc
  obtain ⟨hid, ha, rfl, rfl⟩ := resCreate_inv hc
  obtain ⟨m₁, h₁, hup₁⟩ := storeParam_ok paramSize param hinv hid ha
  by_cases hinst : inst ≠ NULL ∧ s.threads.insts.cells inst = none
  · obtain ⟨m₂, h₂, -⟩ := run_ok paramSize param created hinv hm hid ha hinst
    rw [h₂] at h
    cases h
    exact ⟨hid, ha, hinst⟩
  · simp only [h₁, ok_bind, runThread_oom hup₁ hinst, error_bind] at hrest
    cases hrest

theorem run_error {e : Fault} (hinv : mgn.Inv) (hm : s.runResMgn.getD resCreateManagement = mgn)
    (h : run paramSize param mem inst created s = .error e) :
    e = .diverges ∨ e = .outOfMemory := by
  cases hc : mgn.resCreate (newThread paramSize) mem with
  | error e' =>
    simp only [run, hm, hc, error_bind] at h
    cases h
    exact resCreate_error hinv.unlocked hc
  | ok r =>
    obtain ⟨m, i, p⟩ := r
    obtain ⟨hid, ha, rfl, rfl⟩ := resCreate_inv hc
    by_cases hinst : inst ≠ NULL ∧ s.threads.insts.cells inst = none
    · obtain ⟨m₂, h₂, -⟩ := run_ok paramSize param created hinv hm hid ha hinst
      rw [h₂] at h
      cases h
    · obtain ⟨m₁, h₁, hup₁⟩ := storeParam_ok paramSize param hinv hid ha
      simp only [run, hm, hc, ok_bind, h₁, runThread_oom hup₁ hinst, error_bind] at h
      cases h
      exact .inr rfl

/-! ## `run` keeps the invariants -/

theorem read_threadsAfter (hinst : inst ≠ NULL ∧ threads.insts.cells inst = none) (a : Addr) :
    (threadsAfter inst t created threads hinst).insts.read a =
      if a = inst then some (if created then some threads.started else none)
      else threads.insts.read a := by
  cases created with
  | false =>
    split
    · next h => rw [h]; exact Heap.read_put_self hinst
    · next h => exact Heap.read_put_of_ne hinst h
  | true =>
    split
    · next h => rw [h]; exact Heap.read_write_self (Heap.read_put_self hinst)
    · next h => exact (Heap.read_write_of_ne h).trans (Heap.read_put_of_ne hinst h)

theorem log_threadsAfter (hinst : inst ≠ NULL ∧ threads.insts.cells inst = none) :
    (threadsAfter inst t created threads hinst).log =
      if created then .started threads.started (cleared inst t).param :: threads.log
      else threads.log := by
  cases created <;> rfl

theorem started_threadsAfter (hinst : inst ≠ NULL ∧ threads.insts.cells inst = none) :
    (threadsAfter inst t created threads hinst).started =
      if created then threads.started + 1 else threads.started := by
  cases created <;> rfl

theorem inv_threadsAfter (hinv : threads.Inv)
    (hinst : inst ≠ NULL ∧ threads.insts.cells inst = none) :
    (threadsAfter inst t created threads hinst).Inv := by
  cases created with
  | false =>
    -- the block stays without a handle: the handles are those from before
    have hback : ∀ x u, (threadsAfter inst t false threads hinst).insts.read x = some (some u) →
        threads.insts.read x = some (some u) := by
      intro x u hx
      rw [read_threadsAfter] at hx
      split at hx
      · cases hx
      · exact hx
    exact ⟨fun x u hx => hinv.handles x u (hback x u hx),
      fun x y u hx hy => hinv.inj x y u (hback x u hx) (hback y u hy), hinv.fresh⟩
  | true =>
    -- the handle in the new block is a new one
    have hback : ∀ x u, (threadsAfter inst t true threads hinst).insts.read x = some (some u) →
        (x = inst ∧ u = threads.started) ∨
          (u < threads.started ∧ threads.insts.read x = some (some u)) := by
      intro x u hx
      rw [read_threadsAfter] at hx
      split at hx
      · next hxi =>
        cases hx
        exact .inl ⟨hxi, rfl⟩
      · exact .inr ⟨hinv.fresh u (.inl (hinv.handles x u hx).1), hx⟩
    refine ⟨fun x u hx => ?_, fun x y u hx hy => ?_, fun u hu => ?_⟩
    · rcases hback x u hx with ⟨-, rfl⟩ | ⟨hlt, hx'⟩
      · refine ⟨⟨_, List.mem_cons_self⟩, fun hj => ?_⟩
        rcases List.mem_cons.mp hj with hj | hj
        · cases hj
        · exact absurd (hinv.fresh _ (.inr hj)) (Nat.lt_irrefl _)
      · obtain ⟨⟨prm, hst⟩, hnj⟩ := hinv.handles x u hx'
        refine ⟨⟨prm, List.mem_cons_of_mem _ hst⟩, fun hj => ?_⟩
        rcases List.mem_cons.mp hj with hj | hj
        · cases hj
        · exact hnj hj
    · rcases hback x u hx with ⟨hxi, hu⟩ | ⟨hlt, hx'⟩
      · rcases hback y u hy with ⟨hyi, -⟩ | ⟨hlt, -⟩
        · rw [hxi, hyi]
        · exact absurd hlt (hu ▸ Nat.lt_irrefl _)
      · rcases hback y u hy with ⟨-, hu⟩ | ⟨-, hy'⟩
        · exact absurd hlt (hu ▸ Nat.lt_irrefl _)
        · exact hinv.inj x y u hx' hy'
    · show u < threads.started + 1
      rcases hu with ⟨prm, hu⟩ | hu
      · rcases List.mem_cons.mp hu with hu | hu
        · cases hu
          exact Nat.lt_succ_self _
        · exact Nat.lt_succ_of_lt (hinv.fresh u (.inl ⟨prm, hu⟩))
      · rcases List.mem_cons.mp hu with hu | hu
        · cases hu
        · exact Nat.lt_succ_of_lt (hinv.fresh u (.inr hu))

theorem held_run (hheld : Held mgn threads) (hid : mgn.FirstFree id) {ha}
    (hinst : inst ≠ NULL ∧ threads.insts.cells inst = none)
    (hup : (mgn.created id (newThread paramSize) mem ha).Updated mgn' id
      ⟨mem, mgn.table.heap.next⟩ (runRecord paramSize param inst)) :
    Held mgn' (threadsAfter inst t created threads hinst) := by
  have hback : ∀ i q r, mgn'.get i = some (q, r) →
      (i = id ∧ r.data = runRecord paramSize param inst) ∨
        (mgn.get i = some (q, r) ∧ r.data.inst ≠ inst) := by
    intro i q r hi
    by_cases hii : i = id
    · rw [hii, hup.self] at hi
      cases hi
      exact .inl ⟨hii, rfl⟩
    · rw [hup.other i hii, get_created hheld.inv hid, if_neg hii] at hi
      refine .inr ⟨hi, fun heq => ?_⟩
      obtain ⟨-, h, hh⟩ := hheld.record i q r hi
      rw [heq, Heap.read_eq_none.mpr hinst.2] at hh
      cases hh
  refine ⟨hup.inv, fun i q r hi => ?_, fun i j q q' r r' hi hj heq => ?_⟩
  · rcases hback i q r hi with ⟨-, hd⟩ | ⟨hi', hne⟩
    · rw [hd, read_threadsAfter]
      exact ⟨rfl, _, if_pos rfl⟩
    · obtain ⟨hsf, h, hh⟩ := hheld.record i q r hi'
      refine ⟨hsf, h, ?_⟩
      rw [read_threadsAfter, if_neg hne, hh]
  · rcases hback i q r hi with ⟨hii, hd⟩ | ⟨hi', hne⟩
    · rcases hback j q' r' hj with ⟨hjj, -⟩ | ⟨-, hne'⟩
      · rw [hii, hjj]
      · rw [hd] at heq
        exact absurd heq.symm hne'
    · rcases hback j q' r' hj with ⟨-, hd'⟩ | ⟨hj', -⟩
      · rw [hd'] at heq
        exact absurd heq hne
      · exact hheld.inj i j q q' r r' hi' hj' heq

end RunState

end ShellJs
