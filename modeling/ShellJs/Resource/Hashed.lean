import ShellJs.Hash.Clients
import ShellJs.Resource.FiniteMap

/-!
# The resource manager over its hash

The functions of `Resource.Model` work on a table in application order. Here they call the macros
of `uthash.h` as `common.c` does, and the manager holds the hash itself. `Sim` relates the two.

* `UTMgn.resCreate` and so on: the functions of `common.c`.
* `create_spec`: what a creation does, with every answer of the allocator.
* `create_agrees`, `release_agrees`, `releaseAll_agrees`: every function returns what the one of
  `Resource.Model` returns, unless `HASH_ADD_INT` does not return (`CreateStops`).
* `manager_refines`: the threads of `FiniteMap` on both managers, along every run.
-/

namespace ShellJs

open Runs Function UTHash

/-- `struct res_mgn_`, with the blocks. -/
structure UTMgn (α : Type) where
  lastId : CInt
  hash : UTHash
  heap : Heap (Res α)
  locked : Bool

def liftFault {ρ : Type} : Except Fault ρ → Except Stop ρ
  | .ok r => .ok r
  | .error f => .error (.fault f)

namespace UTMgn

open ResMgn (exists_firstFree resCreate_ok resCreate_outOfMemory inv_created)

variable {α σ ρ : Type}

/-- The key of the block at `a`. -/
def idAt (mgn : UTMgn α) (a : Addr) : Option CInt := (mgn.heap.read a).map Res.id

/-- `HASH_FIND_INT`. -/
def find (hashFcn : CInt → UInt32) (mgn : UTMgn α) (id : CInt) : Except Stop Addr :=
  mgn.hash.hashFind .v1_9_9 mgn.idAt id (hashFcn id)

/-- `res_create_management`: zeroed memory, so `head` is `NULL`. -/
def resCreateManagement : UTMgn α := ⟨0, zeroed, Heap.empty, false⟩

/-- `pthread_mutex_lock`, the critical section, `pthread_mutex_unlock`. -/
def withLock (mgn : UTMgn α) (f : UTMgn α → Except Stop (UTMgn α × ρ)) :
    Except Stop (UTMgn α × ρ) :=
  if mgn.locked then .error (.fault .deadlock)
  else
    match f { mgn with locked := true } with
    | .ok (mgn', r) => .ok ({ mgn' with locked := false }, r)
    | .error e => .error e

/-- The loop of `res_create`, as far as the probes given suffice. -/
def probe (hashFcn : CInt → UInt32) : Nat → UTMgn α → Except Stop (UTMgn α × CInt)
  | 0, _ => .error (.fault .diverges)
  | n + 1, mgn => do
    let id := mgn.lastId
    let mgn := { mgn with lastId := mgn.lastId + 1 }
    let res ← mgn.find hashFcn id
    if res = NULL then return (mgn, id) else probe hashFcn n mgn

/-- The rest of `res_create(size)` once `id` is free: `plat_mem_allocate`, whose block must hold a
`struct res_`, and `HASH_ADD_INT`, whose requests `malloc` serves or not. -/
def addRes (hashFcn : CInt → UInt32) (malloc : Nat → Bool) (zero : α) (size : UInt64) (mem : Addr)
    (mgn : UTMgn α) (id : CInt) : Except Stop (UTMgn α × CInt × Ptr) :=
  if ha : mem ≠ NULL ∧ mgn.heap.cells mem = none then
    if sizeofRes.toNat ≤ platMemSize (sizeofRes + size) then do
      let heap := mgn.heap.put mem ⟨id, zero⟩ ha
      let hash ← mgn.hash.hashAdd .v1_9_9 malloc mem (hashFcn id)
      return ({ mgn with hash := hash, heap := heap }, id, ⟨mem, mgn.heap.next⟩)
    else .error (.fault .outOfBounds)
  else .error (.fault .outOfMemory)

/-- `res_create`. -/
def resCreate (hashFcn : CInt → UInt32) (malloc : Nat → Bool) (zero : α) (size : UInt64)
    (mem : Addr) (mgn : UTMgn α) : Except Stop (UTMgn α × CInt × Ptr) :=
  mgn.withLock fun mgn => do
    let n ← mgn.hash.hashCount
    let (mgn, id) ← mgn.probe hashFcn (n.toNat + 1)
    mgn.addRes hashFcn malloc zero size mem id

/-- A store through the pointer to a resource's data. -/
def modify (f : α → α) (resource : Ptr) (mgn : UTMgn α) : Except Stop (UTMgn α) :=
  match mgn.heap.deref resource with
  | none => .error (.fault .badPointer)
  | some res =>
    .ok { mgn with heap := mgn.heap.write resource.addr { res with data := f res.data } }

/-- The rest of `res_create_and_clone` after `res_create`. -/
def cloneCopy (clone : α → α) (id : CInt) (resource : Ptr) (mgn : UTMgn α) :
    Except Stop (UTMgn α) :=
  if 0 ≤ id.toInt then mgn.modify clone resource else .ok mgn

/-- `res_create_and_clone`. -/
def resCreateAndClone (hashFcn : CInt → UInt32) (malloc : Nat → Bool) (zero : α) (clone : α → α)
    (size : UInt64) (mem : Addr) (mgn : UTMgn α) : Except Stop (UTMgn α × CInt) := do
  let (mgn, id, resource) ← mgn.resCreate hashFcn malloc zero size mem
  let mgn ← mgn.cloneCopy clone id resource
  return (mgn, id)

/-- `res_get`. -/
def resGet (hashFcn : CInt → UInt32) (id : CInt) (mgn : UTMgn α) :
    Except Stop (UTMgn α × Option Ptr) :=
  mgn.withLock fun mgn => do
    let res ← mgn.find hashFcn id
    return (mgn, if res = NULL then none else (mgn.heap.entry res).map Prod.fst)

/-- `HASH_DEL` of the block at `res`, `plat_mem_release`. -/
def delRes (mgn : UTMgn α) (res : Addr) : Except Stop (UTMgn α) := do
  let hash ← mgn.hash.hashDelete res
  let heap ← liftFault (orFault .badFree (mgn.heap.free res))
  return { mgn with hash := hash, heap := heap }

/-- `res_release`. -/
def resRelease (hashFcn : CInt → UInt32) (id : CInt) (mgn : UTMgn α) :
    Except Stop (UTMgn α × Unit) :=
  mgn.withLock fun mgn => do
    let res ← mgn.find hashFcn id
    if res = NULL then return (mgn, ())
    else
      let mgn ← mgn.delRes res
      return (mgn, ())

/-- The loop of `res_release_all`: `res` and `tmp` are the variables of `HASH_ITER`. -/
def releaseLoop (callback : CInt → α → σ → Except Fault σ) :
    Nat → Addr → Addr → UTMgn α → σ → Except Stop (UTMgn α × σ)
  | 0, res, _, mgn, user => if res = NULL then .ok (mgn, user) else .error (.fault .diverges)
  | n + 1, res, tmp, mgn, user =>
    if res = NULL then .ok (mgn, user)
    else do
      let hash ← mgn.hash.hashDelete res
      let r ← liftFault (orFault .badPointer (mgn.heap.read res))
      let user ← liftFault (callback r.id r.data user)
      let heap ← liftFault (orFault .badFree (mgn.heap.free res))
      releaseLoop callback n tmp (if tmp = NULL then NULL else hash.next tmp)
        { mgn with hash := hash, heap := heap } user

/-- `res_release_all`. -/
def resReleaseAll (callback : CInt → α → σ → Except Fault σ) (user : σ) (mgn : UTMgn α) :
    Except Stop (UTMgn α × σ) :=
  mgn.withLock fun mgn => do
    let n ← mgn.hash.hashCount
    releaseLoop callback n.toNat mgn.hash.head
      (if mgn.hash.head = NULL then NULL else mgn.hash.next mgn.hash.head) mgn user

/-- `res_any`. -/
def resAny (mgn : UTMgn α) : Except Stop (UTMgn α × CInt) :=
  mgn.withLock fun mgn => do
    let l ← mgn.hash.hashIter
    return (mgn, l.foldl (fun id res => ((mgn.heap.read res).map Res.id).getD id) (-1))

/-! ## The two managers -/

structure Sim (hashFcn : CInt → UInt32) (c : UTMgn α) (m : ResMgn α) : Prop where
  lastId : m.lastId = c.lastId
  locked : m.locked = c.locked
  heap : m.table.heap = c.heap
  inv : c.hash.Inv m.table.chain
  hashed : ∀ x ∈ m.table.chain, ∀ r, c.heap.read x = some r → c.hash.hashv x = hashFcn r.id

/-- The hashed manager does not return, for a reason among `stops`, or it has the fault of the
other one, or both return the same. -/
def Agrees (hashFcn : CInt → UInt32) (stops : Stop → Prop) (x : Except Stop (UTMgn α × ρ))
    (y : Except Fault (ResMgn α × ρ)) : Prop :=
  (∃ e, x = .error e ∧ stops e) ∨ (∃ f, x = .error (.fault f) ∧ y = .error f) ∨
    ∃ c m r, x = .ok (c, r) ∧ y = .ok (m, r) ∧ Sim hashFcn c m ∧ m.table.WF Res.id

/-- The first id from `last_id` on under which `HASH_FIND_INT` finds nothing. -/
def FirstFree (hashFcn : CInt → UInt32) (mgn : UTMgn α) (id : CInt) : Prop :=
  ∃ j : Nat, id = mgn.lastId + BitVec.ofNat 32 j ∧ mgn.find hashFcn id = .ok NULL ∧
    ∀ i < j, mgn.find hashFcn (mgn.lastId + BitVec.ofNat 32 i) ≠ .ok NULL

/-- Why `res_create` does not return from `HASH_ADD_INT`. -/
def CreateStops (hashFcn : CInt → UInt32) (malloc : Nat → Bool) (mgn : UTMgn α) (e : Stop) : Prop :=
  ∃ id, mgn.FirstFree hashFcn id ∧ AddStops .v1_9_9 malloc mgn.hash (hashFcn id) e

section
variable {hashFcn : CInt → UInt32} {c : UTMgn α} {m : ResMgn α} {stops : Stop → Prop}
  {malloc : Nat → Bool} {id : CInt} {mem : Addr}

theorem sim_create : Sim hashFcn (resCreateManagement : UTMgn α) ResMgn.resCreateManagement :=
  ⟨rfl, rfl, rfl, empty_inv rfl rfl, fun _ hx => absurd hx List.not_mem_nil⟩

theorem Sim.keyed (h : Sim hashFcn c m) (hw : m.table.WF Res.id) :
    Keyed c.hash c.idAt hashFcn m.table.chain := by
  refine ⟨fun x hx => ?_, fun x hx y hy hxy => hw.keys x hx y hy ?_⟩
  · obtain ⟨r, hr⟩ := hw.linked x hx
    rw [h.heap] at hr
    exact ⟨r.id, by rw [idAt, hr]; rfl, h.hashed x hx r hr⟩
  · unfold Table.keyAt
    rw [h.heap]
    exact hxy

/-- `HASH_FIND_INT` finds the block that the table has under the id. -/
theorem Sim.find (h : Sim hashFcn c m) (hw : m.table.WF Res.id) (id : CInt) :
    c.find hashFcn id = .ok ((m.table.find Res.id id).getD NULL) := by
  have hsame : (fun x => decide (c.idAt x = some id)) =
      fun x => decide (m.table.keyAt Res.id x = some id) := by
    unfold idAt Table.keyAt
    rw [h.heap]
  unfold UTMgn.find
  rw [find_spec .v1_9_9 h.inv (h.keyed hw), hsame]
  rfl

theorem Sim.find_ne_null (h : Sim hashFcn c m) {a : Addr}
    (hf : m.table.find Res.id id = some a) : a ≠ NULL :=
  fun ha => h.inv.null (ha ▸ (Table.mem_of_find hf).1)

theorem Sim.find_eq_null (h : Sim hashFcn c m) (hw : m.table.WF Res.id) (id : CInt) :
    c.find hashFcn id = .ok NULL ↔ m.table.find Res.id id = none := by
  rw [h.find hw]
  cases hf : m.table.find Res.id id with
  | none => exact iff_of_true rfl rfl
  | some a =>
    exact iff_of_false (fun hnull => h.find_ne_null hf (Except.ok.inj hnull))
      (Option.some_ne_none a)

theorem Sim.firstFree (h : Sim hashFcn c m) (hw : m.table.WF Res.id) :
    c.FirstFree hashFcn id ↔ m.FirstFree id := by
  unfold FirstFree ResMgn.FirstFree
  simp only [h.lastId, h.find_eq_null hw, ne_eq]

theorem Sim.lock (h : Sim hashFcn c m) (b : Bool) :
    Sim hashFcn { c with locked := b } { m with locked := b } :=
  ⟨h.lastId, rfl, h.heap, h.inv, h.hashed⟩

theorem withLock_agrees {f : UTMgn α → Except Stop (UTMgn α × ρ)}
    {g : ResMgn α → Except Fault (ResMgn α × ρ)} (h : Sim hashFcn c m) (hw : m.table.WF Res.id)
    (hfg : ∀ c m', Sim hashFcn c m' → m'.table.WF Res.id → m'.table = m.table →
      Agrees hashFcn stops (f c) (g m')) :
    Agrees hashFcn stops (c.withLock f) (m.withLock g) := by
  unfold withLock ResMgn.withLock
  rw [h.locked]
  cases c.locked with
  | true => exact Or.inr (Or.inl ⟨.deadlock, rfl, rfl⟩)
  | false =>
    rw [if_neg Bool.false_ne_true, if_neg Bool.false_ne_true]
    rcases hfg _ _ (h.lock true) hw rfl with
      ⟨e, hx, he⟩ | ⟨e, hx, hy⟩ | ⟨c', m', r, hx, hy, hs, hw'⟩
    · exact Or.inl ⟨e, by rw [hx], he⟩
    · exact Or.inr (Or.inl ⟨e, by rw [hx], by rw [hy]⟩)
    · exact Or.inr (Or.inr ⟨_, _, r, by rw [hx], by rw [hy], hs.lock false, hw'⟩)

theorem get_agrees (h : Sim hashFcn c m) (hw : m.table.WF Res.id) (id : CInt) :
    Agrees hashFcn stops (c.resGet hashFcn id) (m.resGet id) := by
  refine withLock_agrees h hw fun c m h hw _ => Or.inr (Or.inr ⟨c, m, _, ?_, rfl, h, hw⟩)
  rw [h.find hw]
  show Except.ok (c, _) = Except.ok (c, _)
  unfold Table.get
  cases hf : m.table.find Res.id id with
  | none => rfl
  | some a =>
    rw [Option.getD_some, if_neg (h.find_ne_null hf), Option.bind_some, h.heap]

theorem any_agrees (h : Sim hashFcn c m) (hw : m.table.WF Res.id) :
    Agrees hashFcn stops c.resAny m.resAny := by
  refine withLock_agrees h hw fun c m h hw _ => Or.inr (Or.inr ⟨c, m, _, ?_, rfl, h, hw⟩)
  rw [iter_spec h.inv, h.heap]
  rfl

/-- `HASH_DEL` and `plat_mem_release` are the removal from the table. -/
theorem Sim.remove (h : Sim hashFcn c m) (hw : m.table.WF Res.id) {a : Addr}
    (ha : a ∈ m.table.chain) :
    ∃ hash heap table, c.hash.hashDelete a = .ok hash ∧ c.heap.free a = some heap ∧
      (m.table.unlink a).free a = some table ∧ table.chain = m.table.chain.erase a ∧
      Sim hashFcn { c with hash := hash, heap := heap } { m with table := table } ∧
      table.WF Res.id := by
  obtain ⟨hash, hdel, hinv, hv⟩ := delete_spec h.inv ha
  obtain ⟨v, hr⟩ := hw.linked a ha
  obtain ⟨table, hfree⟩ := Table.free_of_read (t := m.table.unlink a) hr
  obtain ⟨heap, hheap, rfl⟩ := Option.map_eq_some_iff.mp hfree
  have hheap' : c.heap.free a = some heap := h.heap ▸ hheap
  refine ⟨hash, heap, _, hdel, hheap', hfree, rfl, ⟨h.lastId, h.locked, rfl, hinv, ?_⟩,
    (Table.find_remove hw ha hr hfree).1⟩
  intro x hx r hxr
  have hxa : x ≠ a := fun hxa => h.inv.nodup.not_mem_erase (hxa ▸ hx)
  have hread : heap.read x = m.table.heap.read x := Table.read_free_of_ne hfree hxa
  rw [hread, h.heap] at hxr
  show hash.hashv x = _
  rw [hv]
  exact h.hashed x (List.mem_of_mem_erase hx) r hxr

theorem release_agrees (h : Sim hashFcn c m) (hw : m.table.WF Res.id) (id : CInt) :
    Agrees hashFcn stops (c.resRelease hashFcn id) (m.resRelease id) := by
  refine withLock_agrees h hw fun c m h hw _ => Or.inr (Or.inr ?_)
  rw [h.find hw]
  cases hf : m.table.find Res.id id with
  | none => exact ⟨c, m, (), rfl, rfl, h, hw⟩
  | some a =>
    obtain ⟨hash, heap, table, hdel, hheap, hfree, -, hs, hw'⟩ :=
      h.remove hw (Table.mem_of_find hf).1
    refine ⟨_, _, (), ?_, ?_, hs, hw'⟩
    · rw [Option.getD_some]
      show (if a = NULL then _ else _) = _
      rw [if_neg (h.find_ne_null hf), delRes, hdel]
      show (liftFault (orFault .badFree (c.heap.free a)) >>= _) >>= _ = _
      rw [hheap]
      rfl
    · dsimp only
      rw [hfree]

theorem releaseLoop_agrees (callback : CInt → α → σ → Except Fault σ) {l : List Addr} {n : Nat}
    (hn : l.length ≤ n) (user : σ) (h : Sim hashFcn c m) (hw : m.table.WF Res.id)
    (hl : m.table.chain = l) :
    (∃ f, releaseLoop callback n (l.headD NULL) (l.tail.headD NULL) c user = .error (.fault f) ∧
        ResMgn.releaseLoop callback l m.table user = .error f) ∨
      ∃ c' table user', releaseLoop callback n (l.headD NULL) (l.tail.headD NULL) c user =
          .ok (c', user') ∧ ResMgn.releaseLoop callback l m.table user = .ok (table, user') ∧
        Sim hashFcn c' { m with table := table } ∧ table.WF Res.id := by
  induction l generalizing n c m user with
  | nil =>
    refine Or.inr ⟨c, m.table, user, ?_, rfl, h, hw⟩
    cases n with
    | zero => exact if_pos rfl
    | succ n => exact if_pos rfl
  | cons a l ih =>
    obtain ⟨n, rfl⟩ : ∃ k, n = k + 1 := Nat.exists_eq_succ_of_ne_zero (Nat.ne_of_gt
      (Nat.lt_of_lt_of_le (Nat.succ_pos _) hn))
    have ha : a ∈ m.table.chain := hl ▸ List.mem_cons_self
    have hane : a ≠ NULL := fun hane => h.inv.null (hane ▸ ha)
    obtain ⟨hash, heap, table, hdel, hheap, hfree, hchain, hs, hw'⟩ := h.remove hw ha
    obtain ⟨r, hr⟩ := hw.linked a ha
    have hr' : c.heap.read a = some r := h.heap ▸ hr
    rw [hl, List.erase_cons_head] at hchain
    -- the successor of `tmp` is read after the body
    have htmp := hs.inv.iter_next
    rw [show ({ m with table := table } : ResMgn α).table.chain = l from hchain] at htmp
    have hstep : releaseLoop callback (n + 1) a (l.headD NULL) c user =
        liftFault (callback r.id r.data user) >>= fun user =>
          releaseLoop callback n (l.headD NULL) (l.tail.headD NULL)
            { c with hash := hash, heap := heap } user := by
      conv_lhs => unfold releaseLoop
      rw [if_neg hane, hdel]
      show (liftFault (orFault .badPointer (c.heap.read a)) >>= _) = _
      rw [hr', hheap, htmp]
      rfl
    have hstep' : ResMgn.releaseLoop callback (a :: l) m.table user =
        callback r.id r.data user >>= fun user => ResMgn.releaseLoop callback l table user := by
      conv_lhs => unfold ResMgn.releaseLoop
      rw [hr, hfree]
      rfl
    rw [List.headD_cons, List.tail_cons, hstep, hstep']
    cases callback r.id r.data user with
    | error f => exact Or.inl ⟨f, rfl, rfl⟩
    | ok user => exact ih (Nat.le_of_succ_le_succ hn) user hs hw' hchain

theorem releaseAll_agrees (callback : CInt → α → σ → Except Fault σ) (user : σ)
    (h : Sim hashFcn c m) (hw : m.table.WF Res.id) :
    Agrees hashFcn stops (c.resReleaseAll callback user) (m.resReleaseAll callback user) := by
  refine withLock_agrees h hw fun c m h hw _ => Or.inr ?_
  obtain ⟨n, hn, hlen⟩ := count_spec h.inv
  have hloop := releaseLoop_agrees callback (Nat.le_of_eq hlen.symm) user h hw rfl
  have htmp := h.inv.iter_next
  rw [← h.inv.head] at htmp hloop
  rw [← htmp] at hloop
  rw [hn]
  rcases hloop with ⟨f, hx, hy⟩ | ⟨c', table, user', hx, hy, hs, hw'⟩
  · exact Or.inl ⟨f, hx, by rw [hy]; rfl⟩
  · exact Or.inr ⟨c', { m with table := table }, user', hx, by rw [hy]; rfl, hs, hw'⟩

/-- The two loops of `res_create` find the same id. -/
theorem Sim.probe_eq {n : Nat} (h : Sim hashFcn c m) (hw : m.table.WF Res.id) :
    c.probe hashFcn n =
      match m.probe n with
      | none => .error (.fault .diverges)
      | some (_, id) => .ok ({ c with lastId := id + 1 }, id) := by
  induction n generalizing c m with
  | zero => rfl
  | succ n ih =>
    have h' : Sim hashFcn { c with lastId := c.lastId + 1 } { m with lastId := m.lastId + 1 } :=
      ⟨congrArg (· + 1) h.lastId, h.locked, h.heap, h.inv, h.hashed⟩
    have hfind := h'.find hw c.lastId
    unfold ResMgn.probe probe
    dsimp only
    rw [hfind, h.lastId]
    rw [h.lastId] at h'
    cases hf : m.table.find Res.id c.lastId with
    | none => rfl
    | some a =>
      show (if a = NULL then _ else _) = _
      rw [if_neg (h.find_ne_null hf)]
      exact ih h' hw

theorem Sim.probe_ok (h : Sim hashFcn c m) (hw : m.table.WF Res.id) (hid : m.FirstFree id) :
    c.probe hashFcn (m.table.chain.length + 1) = .ok ({ c with lastId := id + 1 }, id) := by
  rw [h.probe_eq hw, ResMgn.probe_of_firstFree hid]

/-- `plat_mem_allocate` and `HASH_ADD_INT` are the insertion into the table. -/
theorem add_spec (malloc : Nat → Bool) (zero : α) (size : UInt64) (id : CInt)
    (h : Sim hashFcn c m) (hw : m.table.WF Res.id) (hlen : m.table.chain.length + 1 < 2 ^ 32)
    (ha : mem ≠ NULL ∧ m.table.heap.cells mem = none)
    (hsize : sizeofRes.toNat ≤ platMemSize (sizeofRes + size)) :
    (∃ e, c.addRes hashFcn malloc zero size mem id = .error e ∧
        AddStops .v1_9_9 malloc c.hash (hashFcn id) e) ∨
      (∀ e, ¬ AddStops .v1_9_9 malloc c.hash (hashFcn id) e) ∧
        ∃ c', c.addRes hashFcn malloc zero size mem id = .ok (c', id, ⟨mem, m.table.heap.next⟩) ∧
          Sim hashFcn c' { m with table := m.table.insert mem ⟨id, zero⟩ ha } := by
  have ha' : mem ≠ NULL ∧ c.heap.cells mem = none := h.heap ▸ ha
  have hmem : mem ∉ m.table.chain := Table.not_mem_chain hw ha.2
  unfold addRes
  rw [dif_pos ha', if_pos hsize]
  rcases UTHash.add_spec .v1_9_9 malloc h.inv hmem ha.1 hlen (hashFcn id) with
    ⟨e, hs, hstop⟩ | ⟨hno, -, hash, -, -, hs, -, -, hinv, hv⟩
  · exact Or.inl ⟨e, by rw [hs]; rfl, hstop⟩
  refine Or.inr ⟨hno, { c with hash := hash, heap := c.heap.put mem ⟨id, zero⟩ ha' }, ?_,
    h.lastId, h.locked, ?_, hinv, fun x hx r hxr => ?_⟩
  · rw [hs, h.heap]
    rfl
  · show m.table.heap.put mem _ ha = c.heap.put mem _ ha'
    simp only [h.heap]
  · show hash.hashv x = _
    rw [hv]
    rcases List.mem_append.mp hx with hx | hx
    · have hxm : x ≠ mem := fun hxm => hmem (hxm ▸ hx)
      rw [update_of_ne hxm]
      exact h.hashed x hx r ((Heap.read_put_of_ne ha' hxm).symm.trans hxr)
    · obtain rfl := List.mem_singleton.mp hx
      obtain rfl := Option.some.inj ((Heap.read_put_self ha').symm.trans hxr)
      exact update_self ..

/-- `res_create` takes the first free id. -/
theorem resCreate_eq (malloc : Nat → Bool) (zero : α) (size : UInt64) (mem : Addr)
    (h : Sim hashFcn c m) (hinv : m.Inv) (hid : m.FirstFree id) :
    c.resCreate hashFcn malloc zero size mem =
      match addRes hashFcn malloc zero size mem { c with lastId := id + 1, locked := true } id with
      | .ok (mgn, r) => .ok ({ mgn with locked := false }, r)
      | .error e => .error e := by
  have hu : c.locked = false := h.locked.symm.trans hinv.unlocked
  obtain ⟨n, hn, hcount⟩ := count_spec h.inv
  have hbody : (do
      let n ← c.hash.hashCount
      let (mgn, id) ← probe hashFcn (n.toNat + 1) { c with locked := true }
      mgn.addRes hashFcn malloc zero size mem id) =
      addRes hashFcn malloc zero size mem { c with lastId := id + 1, locked := true } id := by
    rw [hn]
    show (probe hashFcn (n.toNat + 1) { c with locked := true } >>= _) = _
    rw [hcount, (h.lock true).probe_ok hinv.wf hid]
    rfl
  unfold resCreate withLock
  rw [if_neg (by rw [hu]; exact Bool.false_ne_true)]
  dsimp only
  rw [hbody]
  cases addRes hashFcn malloc zero size mem { c with lastId := id + 1, locked := true } id with
  | ok r => rfl
  | error e => rfl

/-- What a creation does: it needs a block for the record that holds a `struct res_`, and a
`HASH_ADD_INT` that returns. -/
theorem create_spec (malloc : Nat → Bool) (zero : α) (size : UInt64) (mem : Addr)
    (h : Sim hashFcn c m) (hinv : m.Inv) (hlen : m.table.chain.length + 1 < 2 ^ 32)
    (hid : m.FirstFree id) :
    (¬ (mem ≠ NULL ∧ m.table.heap.cells mem = none) ∧
        c.resCreate hashFcn malloc zero size mem = .error (.fault .outOfMemory)) ∨
      (¬ sizeofRes.toNat ≤ platMemSize (sizeofRes + size) ∧
        c.resCreate hashFcn malloc zero size mem = .error (.fault .outOfBounds)) ∨
      (∃ e, AddStops .v1_9_9 malloc c.hash (hashFcn id) e ∧
        c.resCreate hashFcn malloc zero size mem = .error e) ∨
      ∃ ha, sizeofRes.toNat ≤ platMemSize (sizeofRes + size) ∧
        (∀ e, ¬ AddStops .v1_9_9 malloc c.hash (hashFcn id) e) ∧
        ∃ c', c.resCreate hashFcn malloc zero size mem = .ok (c', id, ⟨mem, m.table.heap.next⟩) ∧
          Sim hashFcn c' (m.created id zero mem ha) := by
  rw [resCreate_eq malloc zero size mem h hinv hid]
  have hs : Sim hashFcn { c with lastId := id + 1, locked := true }
      { m with lastId := id + 1, locked := true } := ⟨rfl, rfl, h.heap, h.inv, h.hashed⟩
  by_cases ha : mem ≠ NULL ∧ m.table.heap.cells mem = none
  · by_cases hsize : sizeofRes.toNat ≤ platMemSize (sizeofRes + size)
    · rcases add_spec malloc zero size id hs hinv.wf hlen ha hsize with
        ⟨e, hadd, hstop⟩ | ⟨hno, c', hadd, hs'⟩
      · exact Or.inr (Or.inr (Or.inl ⟨e, hstop, by rw [hadd]⟩))
      · exact Or.inr (Or.inr (Or.inr ⟨ha, hsize, hno, { c' with locked := false },
          by rw [hadd], hs'.lock false⟩))
    · refine Or.inr (Or.inl ⟨hsize, ?_⟩)
      rw [h.heap] at ha
      unfold addRes
      rw [dif_pos ha, if_neg hsize]
  · refine Or.inl ⟨ha, ?_⟩
    rw [h.heap] at ha
    unfold addRes
    rw [dif_neg ha]

/-- With fewer than 2^32 - 1 resources and a size that `plat_mem_allocate` takes, a creation does
what the one on the table does, unless `HASH_ADD_INT` does not return. -/
theorem create_agrees (malloc : Nat → Bool) (zero : α) (size : UInt64) (mem : Addr)
    (h : Sim hashFcn c m) (hinv : m.Inv) (hlen : m.table.chain.length + 1 < 2 ^ 32)
    (hsize : sizeofRes.toNat ≤ platMemSize (sizeofRes + size)) :
    Agrees hashFcn (CreateStops hashFcn malloc c) (c.resCreate hashFcn malloc zero size mem)
      (m.resCreate zero mem) := by
  obtain ⟨id, hid⟩ := exists_firstFree (Nat.lt_of_succ_lt hlen)
  rcases create_spec malloc zero size mem h hinv hlen hid with
    ⟨ha, hx⟩ | ⟨hsize', -⟩ | ⟨e, hstop, hx⟩ | ⟨ha, -, -, c', hx, hs⟩
  · exact Or.inr (Or.inl ⟨.outOfMemory, hx, resCreate_outOfMemory hinv.unlocked hid ha⟩)
  · exact absurd hsize hsize'
  · exact Or.inl ⟨e, hx, id, (h.firstFree hinv.wf).mpr hid, hstop⟩
  · exact Or.inr (Or.inr ⟨c', _, _, hx, resCreate_ok hinv.unlocked hid ha, hs,
      (inv_created hinv hid ha).wf⟩)

theorem Sim.write (h : Sim hashFcn c m) {p : Ptr} {res : Res α} {data : α}
    (hd : c.heap.deref p = some res) :
    Sim hashFcn { c with heap := c.heap.write p.addr { res with data := data } }
      { m with table := m.table.store p.addr { res with data := data } } := by
  refine ⟨h.lastId, h.locked, congrArg (Heap.write · p.addr _) h.heap, h.inv, fun x hx r hr => ?_⟩
  by_cases hxp : x = p.addr
  · -- the id of the block stays
    subst hxp
    have hold : c.heap.read p.addr = some res := Heap.read_of_entry (Heap.entry_of_deref hd)
    obtain rfl := Option.some.inj ((Heap.read_write_self hold).symm.trans hr)
    exact h.hashed p.addr hx res hold
  · exact h.hashed x hx r ((Heap.read_write_of_ne hxp).symm.trans hr)

theorem cloneCopy_agrees (clone : α → α) (id : CInt) (p : Ptr) (h : Sim hashFcn c m)
    {m' : ResMgn α} (hm : m.cloneCopy clone id p = .ok m') :
    ∃ c', c.cloneCopy clone id p = .ok c' ∧ Sim hashFcn c' m' := by
  unfold ResMgn.cloneCopy at hm
  unfold cloneCopy
  by_cases hid : 0 ≤ id.toInt
  · rw [if_pos hid] at hm ⊢
    unfold ResMgn.modify at hm
    unfold modify
    rw [h.heap] at hm
    cases hd : c.heap.deref p with
    | none =>
      rw [hd] at hm
      cases hm
    | some res =>
      rw [hd] at hm
      obtain rfl := Except.ok.inj hm
      exact ⟨_, rfl, h.write hd⟩
  · rw [if_neg hid] at hm ⊢
    obtain rfl := Except.ok.inj hm
    exact ⟨c, rfl, h⟩

end

end UTMgn

/-! ## The threads -/

namespace FiniteMap

open UTMgn ResMgn

/-- The threads of `FiniteMap` on the manager with its hash. -/
structure UTShared where
  mgn : UTMgn Bytes
  calls : Nat → Option CloneCall
  hist : List Event

/-- A step of a thread; `malloc` serves the hash. -/
def utStep (hashFcn : CInt → UInt32) (s : UTShared) (a : Act × (Nat → Bool)) :
    Except Stop UTShared :=
  match a.1 with
  | .create _ size mem => do
    let (mgn, id, p) ← s.mgn.resCreate hashFcn a.2 (resBytes size) size mem
    return { s with mgn := mgn, hist := .created id p (resBytes size) :: s.hist }
  | .clone t size source mem => do
    let (mgn, id, p) ← s.mgn.resCreate hashFcn a.2 (resBytes size) size mem
    return { mgn := mgn, calls := update s.calls t (some ⟨id, p, source, size⟩),
             hist := .created id p (resBytes size) :: s.hist }
  | .copy t =>
    match s.calls t with
    | none => .ok s
    | some c => do
      let mgn ← s.mgn.cloneCopy c.clone c.id c.resource
      return { mgn := mgn, calls := update s.calls t none, hist := .copied c.id c.source :: s.hist }
  | .get _ id => do
    let (mgn, r) ← s.mgn.resGet hashFcn id
    return { s with mgn := mgn, hist := .got id r :: s.hist }
  | .release _ id => do
    let (mgn, _) ← s.mgn.resRelease hashFcn id
    return { s with mgn := mgn, hist := .released id :: s.hist }
  | .any _ => do
    let (mgn, id) ← s.mgn.resAny
    return { s with mgn := mgn, hist := .any id :: s.hist }
  | .releaseAll _ => do
    let (mgn, seen) ← s.mgn.resReleaseAll note []
    return { s with mgn := mgn, hist := .releasedAll seen :: s.hist }

/-- The two systems of threads. -/
structure SharedSim (hashFcn : CInt → UInt32) (c : UTShared) (s : Shared) : Prop where
  mgn : Sim hashFcn c.mgn s.mgn
  calls : s.calls = c.calls
  hist : s.hist = c.hist
  inv : s.Inv

/-- What is asked of a step: what `FiniteMap` asks, and a counter that does not overflow. -/
def UTAllowed (s : Shared) (a : Act × (Nat → Bool)) : Prop :=
  Allowed s a.1 ∧ s.mgn.table.chain.length + 1 < 2 ^ 32

/-- Why a step does not return. -/
def UTStops (hashFcn : CInt → UInt32) (s : UTShared) (a : Act × (Nat → Bool)) (e : Stop) : Prop :=
  match a.1 with
  | .create _ _ _ => CreateStops hashFcn a.2 s.mgn e
  | .clone _ _ _ _ => CreateStops hashFcn a.2 s.mgn e
  | _ => False

/-- A step that calls the manager and notes what it returned. -/
theorem step_of_agrees {ρ : Type} {hashFcn : CInt → UInt32} {stops : Stop → Prop}
    {x : Except Stop (UTMgn Bytes × ρ)} {y : Except Fault (ResMgn Bytes × ρ)}
    (hxy : Agrees hashFcn stops x y) (calls : ρ → Nat → Option CloneCall) (hist : ρ → List Event)
    {s' : Shared} (hs' : (y >>= fun r => .ok ⟨r.1, calls r.2, hist r.2⟩) = .ok s')
    (hinv : s'.Inv) :
    (∃ e, (x >>= fun r => .ok (⟨r.1, calls r.2, hist r.2⟩ : UTShared)) = .error e ∧ stops e) ∨
      ∃ c' s'', (x >>= fun r => .ok (⟨r.1, calls r.2, hist r.2⟩ : UTShared)) = .ok c' ∧
        (y >>= fun r => .ok ⟨r.1, calls r.2, hist r.2⟩) = .ok s'' ∧ SharedSim hashFcn c' s'' := by
  rcases hxy with ⟨e, rfl, he⟩ | ⟨f, -, rfl⟩ | ⟨c', m', r, rfl, rfl, hs, -⟩
  · exact Or.inl ⟨e, rfl, he⟩
  · cases hs'
  · obtain rfl := Except.ok.inj hs'
    exact Or.inr ⟨_, _, rfl, rfl, hs, rfl, rfl, hinv⟩

/-- A record whose size fits 32 bits has room for its header. -/
theorem header_fits {size : UInt64} (h : sizeofRes.toNat + size.toNat < 2 ^ 32) :
    sizeofRes.toNat ≤ platMemSize (sizeofRes + size) := by
  have h64 : sizeofRes.toNat = 64 := rfl
  have hsum : (sizeofRes + size).toNat = 64 + size.toNat := by
    rw [UInt64.toNat_add, h64, Nat.mod_eq_of_lt (by omega)]
  rw [platMemSize_of_lt (by omega), hsum, h64]
  exact Nat.le_add_right ..

theorem utStep_refines {hashFcn : CInt → UInt32} {c : UTShared} {s : Shared}
    (h : SharedSim hashFcn c s) (a : Act × (Nat → Bool)) (ha : UTAllowed s a) :
    (∃ e, utStep hashFcn c a = .error e ∧ UTStops hashFcn c a e) ∨
      ∃ c' s', utStep hashFcn c a = .ok c' ∧ step s a.1 = .ok s' ∧ SharedSim hashFcn c' s' := by
  obtain ⟨hall, hlen⟩ := ha
  obtain ⟨s', hs', hinv'⟩ := inv_step s a.1 h.inv hall
  have hw := h.inv.mgn.wf
  obtain ⟨act, malloc⟩ := a
  obtain ⟨mgn, calls, hist⟩ := c
  obtain ⟨hmgn, rfl, rfl, hinv⟩ := h
  cases act with
  | create t size mem =>
    exact step_of_agrees (create_agrees malloc (resBytes size) size mem hmgn hinv.mgn hlen
      (header_fits hall.2.2.1)) (fun _ => s.calls)
      (fun r => .created r.1 r.2 (resBytes size) :: s.hist) hs' hinv'
  | clone t size source mem =>
    exact step_of_agrees (create_agrees malloc (resBytes size) size mem hmgn hinv.mgn hlen
      (header_fits hall.2.1.2.1))
      (fun r => update s.calls t (some ⟨r.1, r.2, source, size⟩))
      (fun r => .created r.1 r.2 (resBytes size) :: s.hist) hs' hinv'
  | copy t =>
    cases hc : s.calls t with
    | none => exact absurd hc hall
    | some cl =>
      simp only [step, hc] at hs'
      obtain ⟨m', hm', hs'⟩ := bind_eq_ok.mp hs'
      obtain rfl := Except.ok.inj hs'
      obtain ⟨c', hc', hsim⟩ := cloneCopy_agrees cl.clone cl.id cl.resource hmgn hm'
      refine Or.inr ⟨⟨c', update s.calls t none, .copied cl.id cl.source :: s.hist⟩, _, ?_, ?_,
        hsim, rfl, rfl, hinv'⟩
      · simp only [utStep, hc, hc']
        rfl
      · simp only [step, hc, hm', ok_bind]
        rfl
  | get t id =>
    exact step_of_agrees (get_agrees hmgn hw id) (fun _ => s.calls)
      (fun r => .got id r :: s.hist) hs' hinv'
  | release t id =>
    exact step_of_agrees (release_agrees hmgn hw id) (fun _ => s.calls)
      (fun _ => .released id :: s.hist) hs' hinv'
  | any t =>
    exact step_of_agrees (any_agrees hmgn hw) (fun _ => s.calls)
      (fun r => .any r :: s.hist) hs' hinv'
  | releaseAll t =>
    exact step_of_agrees (releaseAll_agrees note [] hmgn hw) (fun _ => s.calls)
      (fun r => .releasedAll r :: s.hist) hs' hinv'

def utInit : UTShared := ⟨UTMgn.resCreateManagement, fun _ => none, []⟩

theorem sim_init (hashFcn : CInt → UInt32) : SharedSim hashFcn utInit init :=
  ⟨UTMgn.sim_create, rfl, rfl, inv_init⟩

/-- Whatever the threads do, the manager with its hash does what the manager on a table in
application order does: it shows the same events, so it is the finite map of `res_finite_map`, it
has the same blocks, and the hash holds them in the same order. Only a creation ends a run early,
when `HASH_ADD_INT` under the id that it takes does not return. -/
theorem manager_refines (hashFcn : CInt → UInt32) (acts : List (Act × (Nat → Bool)))
    (hallowed : Along (fun s a => step s a.1) UTAllowed init acts) :
    (∃ e, StopsAt (utStep hashFcn) (UTStops hashFcn) utInit acts e) ∨
      ∃ c s, exec (utStep hashFcn) utInit acts = .ok c ∧
        exec step init (acts.map Prod.fst) = .ok s ∧ c.hist = s.hist ∧
        c.mgn.heap = s.mgn.table.heap ∧ c.mgn.lastId = s.mgn.lastId ∧ c.mgn.locked = false ∧
        c.mgn.hash.hashIter = .ok s.mgn.table.chain ∧ c.mgn.hash.hashFsck = .ok () := by
  have hrun := exec_simulation (SharedSim hashFcn) (UTStops hashFcn)
    (fun c s a hR hP => utStep_refines hR a hP) (sim_init hashFcn) hallowed
  have hmap : exec (fun s a => step s a.1) init acts = exec step init (acts.map Prod.fst) :=
    exec_map
  rw [hmap] at hrun
  refine hrun.imp_right ?_
  rintro ⟨c, s, hc, hs, hR⟩
  refine ⟨c, s, hc, hs, hR.hist.symm, hR.mgn.heap.symm, hR.mgn.lastId.symm, ?_,
    iter_spec hR.mgn.inv, fsck_spec hR.mgn.inv⟩
  exact hR.mgn.locked.symm.trans hR.inv.mgn.unlocked

/-- Creations, copies and lookups, with conditions that can be decided. -/
def Checked (s : Shared) (a : Act × (Nat → Bool)) : Prop :=
  s.mgn.table.chain.length + 1 < 2 ^ 32 ∧
    match a.1 with
    | .create t size mem => s.calls t = none ∧ Allocates s size mem
    | .clone t size source mem =>
      s.calls t = none ∧ Allocates s size mem ∧ source.length = size.toNat
    | .copy t => s.calls t ≠ none
    | .get t _ => s.calls t = none
    | _ => False

instance (s : Shared) (a : Act × (Nat → Bool)) : Decidable (Checked s a) := by
  obtain ⟨act, malloc⟩ := a
  cases act <;> unfold Checked Allocates <;> infer_instance

theorem allowed_of_checked (s : Shared) (a : Act × (Nat → Bool)) (h : Checked s a) :
    UTAllowed s a := by
  obtain ⟨act, malloc⟩ := a
  obtain ⟨hlen, h⟩ := h
  refine ⟨?_, hlen⟩
  cases act with
  | create t size mem => exact h
  | clone t size source mem => exact h
  | copy t => exact h
  | get t id => exact h
  | release t id => exact absurd h not_false
  | any t => exact absurd h not_false
  | releaseAll t => exact absurd h not_false

/-- Nine resources and a tenth one, all in one bucket, so that the hash expands its buckets between
the two steps of `res_create_and_clone` of the first. -/
def tenCreations : List (Act × (Nat → Bool)) :=
  (.clone 0 3 [7, 8, 9] 16, fun _ => true) ::
    ((List.range 9).map fun k => (.create 1 8 (1024 * (k + 1)), fun _ => true)) ++
      [(.copy 0, fun _ => false), (.get 1 0, fun _ => false)]

theorem manager_refines_ten :
    ∃ c, exec (utStep fun id => UInt32.ofNat (32 * id.toNat)) utInit tenCreations = .ok c ∧
      c.mgn.hash.hashIter =
        .ok [16, 1024, 2048, 3072, 4096, 5120, 6144, 7168, 8192, 9216] ∧
      c.mgn.hash.hashFsck = .ok () := by
  have hok : (exec (utStep fun id => UInt32.ofNat (32 * id.toNat)) utInit tenCreations).isOk =
      true := by
    decide +kernel
  have hchecked : Along (fun s a => step s a.1) Checked init tenCreations := by decide +kernel
  rcases manager_refines (fun id => UInt32.ofNat (32 * id.toNat)) tenCreations
    (hchecked.imp (J := fun _ => True) (fun s a _ h => allowed_of_checked s a h)
      (fun _ _ _ _ _ _ => trivial) trivial) with
    ⟨e, hstop⟩ | ⟨c, s, hc, hs, -, -, -, -, hiter, hf⟩
  · rw [hstop.exec_eq] at hok
    cases hok
  · cases hs
    exact ⟨c, hc, hiter, hf⟩

end FiniteMap

end ShellJs
