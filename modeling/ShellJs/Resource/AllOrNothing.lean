import ShellJs.Resource.Hashed

/-!
# Resource creation at the limits

Callers take a negative id for a failed creation and any other one for a resource. But the id comes
from a counter that wraps, and `res_create` has no path for a failure: a record that is not
allocated, or too small for its header, is written to, and a request of `HASH_ADD_INT` that is
refused ends the process with the mutex held.

* `AllOrNothing`: what the callers rely on.
* `Room`: the block, its size, the first free id and the requests of `HASH_ADD_INT`.
* `allOrNothing_create`, `allOrNothing_clone`: the two are the same, with fewer than 2^32 - 1
  resources.
* `create_all_or_nothing`: the consequences for runs. While every creation has room, the sign of
  `res_any` tells whether there is a resource.
* `create_past_intMax`: after 2^31 creations the next one succeeds with a negative id.
-/

namespace ShellJs.UTMgn

open Runs UTHash
open ResMgn (exists_firstFree firstFree_unique NonnegIds)

variable {α : Type} {hashFcn : CInt → UInt32} {c c' : UTMgn α} {m : ResMgn α} {id : CInt}
  {zero : α} {clone : α → α} {size : UInt64} {mem : Addr} {malloc : Nat → Bool}

/-! ## Creations and releases -/

/-- A call; `mem` is the block that the record gets, `malloc` serves the hash. -/
inductive Act (α : Type)
  | create (zero : α) (size : UInt64) (mem : Addr) (malloc : Nat → Bool)
  | clone (zero : α) (clone : α → α) (size : UInt64) (mem : Addr) (malloc : Nat → Bool)
  | release (id : CInt)
  | releaseAll

def step (hashFcn : CInt → UInt32) (mgn : UTMgn α) : Act α → Except Stop (UTMgn α)
  | .create zero size mem malloc => do
    let (mgn, _, _) ← mgn.resCreate hashFcn malloc zero size mem
    return mgn
  | .clone zero clone size mem malloc => do
    let (mgn, _) ← mgn.resCreateAndClone hashFcn malloc zero clone size mem
    return mgn
  | .release id => do
    let (mgn, _) ← mgn.resRelease hashFcn id
    return mgn
  | .releaseAll => do
    let (mgn, _) ← mgn.resReleaseAll (fun _ _ user => .ok user) ()
    return mgn

/-- `res_create` for the callers that look at the id only. -/
def resCreateId (hashFcn : CInt → UInt32) (malloc : Nat → Bool) (zero : α) (size : UInt64)
    (mem : Addr) (mgn : UTMgn α) : Except Stop (UTMgn α × CInt) := do
  let (mgn, id, _) ← mgn.resCreate hashFcn malloc zero size mem
  return (mgn, id)

/-- The id is non-negative and has a block with `data`, which it had not before, or it is negative
and the table and the blocks are as they were. Either way the mutex is free. -/
def AllOrNothing (hashFcn : CInt → UInt32) (mgn : UTMgn α) (data : α)
    (r : Except Stop (UTMgn α × CInt)) : Prop :=
  ∃ mgn' id, r = .ok (mgn', id) ∧ mgn'.locked = false ∧
    ((0 ≤ id.toInt ∧ mgn.resGet hashFcn id = .ok (mgn, none) ∧
        ∃ p, mgn'.resGet hashFcn id = .ok (mgn', some p) ∧ mgn'.heap.deref p = some ⟨id, data⟩) ∨
      (id.toInt < 0 ∧ mgn'.hash = mgn.hash ∧ mgn'.heap = mgn.heap))

/-- The record gets a block, the block holds a `struct res_`, the first free id is not negative, and
`HASH_ADD_INT` gets the memory that it asks for under this id. -/
structure Room (hashFcn : CInt → UInt32) (mgn : UTMgn α) (size : UInt64) (mem : Addr)
    (malloc : Nat → Bool) : Prop where
  block : mem ≠ NULL ∧ mgn.heap.cells mem = none
  header : sizeofRes.toNat ≤ platMemSize (sizeofRes + size)
  id : ∃ id, mgn.FirstFree hashFcn id ∧ 0 ≤ id.toInt ∧
    ∀ e, ¬ AddStops .v1_9_9 malloc mgn.hash (hashFcn id) e

def HasRoom (hashFcn : CInt → UInt32) (mgn : UTMgn α) : Act α → Prop
  | .create _ size mem malloc => mgn.Room hashFcn size mem malloc
  | .clone _ _ size mem malloc => mgn.Room hashFcn size mem malloc
  | .release _ => True
  | .releaseAll => True

/-- There are fewer than 2^32 - 1 resources, so `num_items` does not wrap. -/
def Few (mgn : UTMgn α) : Prop := ∀ n, mgn.hash.hashCount = .ok n → n.toNat + 1 < 2 ^ 32

/-! ## Reading the manager -/

theorem Sim.unlocked (h : Sim hashFcn c m) (hinv : m.Inv) : c.locked = false :=
  h.locked.symm.trans hinv.unlocked

/-- A call that looks at the manager only. -/
theorem withLock_eq {ρ : Type} {f : UTMgn α → Except Stop (UTMgn α × ρ)} {r : ρ}
    (hu : c.locked = false)
    (hf : f { c with locked := true } = .ok ({ c with locked := true }, r)) :
    c.withLock f = .ok (c, r) := by
  have hc : ({ c with locked := false } : UTMgn α) = c := by rw [← hu]
  unfold withLock
  rw [if_neg (by rw [hu]; exact Bool.false_ne_true), hf]
  exact congrArg (fun c => Except.ok (c, r)) hc

theorem Sim.resGet_eq (h : Sim hashFcn c m) (hinv : m.Inv) (id : CInt) :
    c.resGet hashFcn id = .ok (c, (m.get id).map Prod.fst) := by
  refine withLock_eq (h.unlocked hinv) ?_
  rw [(h.lock true).find hinv.wf]
  show Except.ok (_, _) = _
  unfold ResMgn.get Table.get
  cases hf : m.table.find Res.id id with
  | none => rfl
  | some a => rw [Option.getD_some, if_neg (h.find_ne_null hf), Option.bind_some, h.heap]

theorem Sim.resAny_eq (h : Sim hashFcn c m) (hinv : m.Inv) : c.resAny = .ok (c, m.newest) := by
  have hm : m.resAny = .ok (m, m.table.chain.foldl
      (fun id res => ((m.table.heap.read res).map Res.id).getD id) (-1)) := by
    refine (ResMgn.withLock_ok { m with locked := true } _ hinv.unlocked rfl).trans ?_
    rw [← hinv.unlocked]
  have hnew := (Except.ok.inj (hm.symm.trans (ResMgn.resAny_eq hinv)))
  refine withLock_eq (h.unlocked hinv) ?_
  show (c.hash.hashIter >>= _) = _
  rw [iter_spec h.inv, ← (Prod.mk.inj hnew).2, h.heap]
  rfl

/-- While no negative id is live, the sign of `res_any` tells whether `res_get` finds something. -/
theorem Sim.resAny_sign (h : Sim hashFcn c m) (hinv : m.Inv) (hids : m.NonnegIds) :
    ∃ id, c.resAny = .ok (c, id) ∧
      (0 ≤ id.toInt ↔ ∃ i p, c.resGet hashFcn i = .ok (c, some p)) := by
  refine ⟨m.newest, h.resAny_eq hinv, ?_⟩
  rcases ResMgn.newest_cases hinv with ⟨hnil, hn⟩ | ⟨p, res, -, hg⟩
  · rw [hn]
    refine iff_of_false (by decide) fun ⟨i, p, hp⟩ => ?_
    rw [h.resGet_eq hinv, ResMgn.get_of_nil hnil] at hp
    cases hp
  · refine iff_of_true (hids _ _ hg) ⟨m.newest, p, ?_⟩
    rw [h.resGet_eq hinv, hg]
    rfl

theorem Sim.few (h : Sim hashFcn c m) : c.Few ↔ m.table.chain.length + 1 < 2 ^ 32 := by
  obtain ⟨n, hn, hlen⟩ := count_spec h.inv
  unfold Few
  rw [hn, ← hlen]
  exact ⟨fun hf => hf n rfl, fun hf k hk => Except.ok.inj hk ▸ hf⟩

/-! ## One creation -/

/-- The ways in which a creation under the id `id` can end; `made` is the manager after one that
succeeds. -/
def Ends (hashFcn : CInt → UInt32) (c : UTMgn α) (m : ResMgn α) (id : CInt) (size : UInt64)
    (mem : Addr) (malloc : Nat → Bool)
    (made : (mem ≠ NULL ∧ m.table.heap.cells mem = none) → ResMgn α)
    (r : Except Stop (UTMgn α × CInt)) : Prop :=
  (¬ (mem ≠ NULL ∧ m.table.heap.cells mem = none) ∧ r = .error (.fault .outOfMemory)) ∨
    (¬ sizeofRes.toNat ≤ platMemSize (sizeofRes + size) ∧ r = .error (.fault .outOfBounds)) ∨
    (∃ e, AddStops .v1_9_9 malloc c.hash (hashFcn id) e ∧ r = .error e) ∨
    ∃ ha, sizeofRes.toNat ≤ platMemSize (sizeofRes + size) ∧
      (∀ e, ¬ AddStops .v1_9_9 malloc c.hash (hashFcn id) e) ∧
      ∃ c', r = .ok (c', id) ∧ Sim hashFcn c' (made ha)

theorem create_ends (malloc : Nat → Bool) (zero : α) (size : UInt64) (mem : Addr)
    (h : Sim hashFcn c m) (hinv : m.Inv) (hlen : m.table.chain.length + 1 < 2 ^ 32)
    (hid : m.FirstFree id) :
    Ends hashFcn c m id size mem malloc (m.created id zero mem)
      (c.resCreateId hashFcn malloc zero size mem) := by
  unfold resCreateId
  rcases create_spec malloc zero size mem h hinv hlen hid with
    ⟨ha, hx⟩ | ⟨hsize, hx⟩ | ⟨e, hstop, hx⟩ | ⟨ha, hsize, hno, c', hx, hs⟩
  · exact Or.inl ⟨ha, by rw [hx]; rfl⟩
  · exact Or.inr (Or.inl ⟨hsize, by rw [hx]; rfl⟩)
  · exact Or.inr (Or.inr (Or.inl ⟨e, hstop, by rw [hx]; rfl⟩))
  · exact Or.inr (Or.inr (Or.inr ⟨ha, hsize, hno, c', by rw [hx]; rfl, hs⟩))

theorem clone_ends (malloc : Nat → Bool) (zero : α) (clone : α → α) (size : UInt64) (mem : Addr)
    (h : Sim hashFcn c m) (hinv : m.Inv) (hlen : m.table.chain.length + 1 < 2 ^ 32)
    (hid : m.FirstFree id) :
    Ends hashFcn c m id size mem malloc (m.createdAndCloned id zero clone mem)
      (c.resCreateAndClone hashFcn malloc zero clone size mem) := by
  unfold resCreateAndClone
  rcases create_spec malloc zero size mem h hinv hlen hid with
    ⟨ha, hx⟩ | ⟨hsize, hx⟩ | ⟨e, hstop, hx⟩ | ⟨ha, hsize, hno, c', hx, hs⟩
  · exact Or.inl ⟨ha, by rw [hx]; rfl⟩
  · exact Or.inr (Or.inl ⟨hsize, by rw [hx]; rfl⟩)
  · exact Or.inr (Or.inr (Or.inl ⟨e, hstop, by rw [hx]; rfl⟩))
  · -- the copy goes into the block that was just created
    have hget : (m.created id zero mem ha).get id = some (⟨mem, m.table.heap.next⟩, ⟨id, zero⟩) :=
      ResMgn.get_created_self hinv hid ha
    have hcopy := ResMgn.cloneCopy_ok clone hget
    obtain ⟨c'', hc'', hs'⟩ := cloneCopy_agrees clone id _ hs hcopy
    refine Or.inr (Or.inr (Or.inr ⟨ha, hsize, hno, c'', ?_, hs'⟩))
    rw [hx]
    show (cloneCopy clone id ⟨mem, m.table.heap.next⟩ c' >>= _) = _
    rw [hc'']
    rfl

theorem Ends.sim_of_ok {made} {r : Except Stop (UTMgn α × CInt)}
    (hr : Ends hashFcn c m id size mem malloc made r) (hok : r.map Prod.fst = .ok c') :
    ∃ ha, Sim hashFcn c' (made ha) := by
  rcases hr with ⟨-, rfl⟩ | ⟨-, rfl⟩ | ⟨_, -, rfl⟩ | ⟨ha, -, -, c₁, rfl, hs⟩
  · cases hok
  · cases hok
  · cases hok
  · cases hok
    exact ⟨ha, hs⟩

/-- With room the creation succeeds. -/
theorem Ends.of_room {made} {r : Except Stop (UTMgn α × CInt)}
    (hr : Ends hashFcn c m id size mem malloc made r) (h : Sim hashFcn c m) (hinv : m.Inv)
    (hid : m.FirstFree id) (hroom : c.Room hashFcn size mem malloc) :
    0 ≤ id.toInt ∧ ∃ ha c', r = .ok (c', id) ∧ Sim hashFcn c' (made ha) := by
  obtain ⟨hblock, hheader, i, hi, hnn, hnone⟩ := hroom
  obtain rfl := firstFree_unique ((h.firstFree hinv.wf).mp hi) hid
  rcases hr with ⟨ha, -⟩ | ⟨hsize, -⟩ | ⟨e, hstop, -⟩ | ⟨ha, -, -, c', hr, hs⟩
  · exact absurd (h.heap ▸ hblock) ha
  · exact absurd hheader hsize
  · exact absurd hstop (hnone e)
  · exact ⟨hnn, ha, c', hr, hs⟩

/-- A creation is all-or-nothing exactly when it has room. -/
theorem Ends.allOrNothing_iff {made} {r : Except Stop (UTMgn α × CInt)} {data : α}
    (hr : Ends hashFcn c m id size mem malloc made r) (h : Sim hashFcn c m) (hinv : m.Inv)
    (hid : m.FirstFree id) (hinv' : ∀ ha, (made ha).Inv)
    (hnext : ∀ ha, (made ha).table.heap.next = m.table.heap.next + 1)
    (hget : ∀ ha, 0 ≤ id.toInt → ∃ p, (made ha).get id = some (p, ⟨id, data⟩)) :
    c.AllOrNothing hashFcn data r ↔ c.Room hashFcn size mem malloc := by
  constructor
  · rintro ⟨_, _, rfl, -, hcase⟩
    rcases hr with ⟨-, hr⟩ | ⟨-, hr⟩ | ⟨_, -, hr⟩ | ⟨ha, hsize, hno, c', hr, hs⟩
    · cases hr
    · cases hr
    · cases hr
    · cases hr
      refine ⟨h.heap ▸ ha, hsize, id, (h.firstFree hinv.wf).mpr hid, ?_, hno⟩
      rcases hcase with ⟨hnn, -⟩ | ⟨-, -, hheap⟩
      · exact hnn
      · -- a resource with a negative id is there all the same
        have hn := hnext ha
        rw [hs.heap, h.heap, hheap] at hn
        exact absurd hn (Nat.ne_of_lt (Nat.lt_succ_self _))
  · intro hroom
    obtain ⟨hnn, ha, c', rfl, hs⟩ := hr.of_room h hinv hid hroom
    obtain ⟨p, hp⟩ := hget ha hnn
    refine ⟨c', id, rfl, hs.unlocked (hinv' ha), Or.inl ⟨hnn, ?_, p, ?_, ?_⟩⟩
    · rw [h.resGet_eq hinv, ResMgn.get_eq_none_of_firstFree hid]
      rfl
    · rw [hs.resGet_eq (hinv' ha), hp]
      rfl
    · rw [← hs.heap]
      exact ResMgn.deref_of_get hp

theorem allOrNothing_create (h : Sim hashFcn c m) (hinv : m.Inv) (hf : c.Few) :
    c.AllOrNothing hashFcn zero (c.resCreateId hashFcn malloc zero size mem) ↔
      c.Room hashFcn size mem malloc := by
  have hlen := h.few.mp hf
  obtain ⟨id, hid⟩ := exists_firstFree (Nat.lt_of_succ_lt hlen)
  exact (create_ends malloc zero size mem h hinv hlen hid).allOrNothing_iff h hinv hid
    (ResMgn.inv_created hinv hid) (fun _ => rfl)
    fun ha _ => ⟨_, ResMgn.get_created_self hinv hid ha⟩

theorem allOrNothing_clone (h : Sim hashFcn c m) (hinv : m.Inv) (hf : c.Few) :
    c.AllOrNothing hashFcn (clone zero)
        (c.resCreateAndClone hashFcn malloc zero clone size mem) ↔
      c.Room hashFcn size mem malloc := by
  have hlen := h.few.mp hf
  obtain ⟨id, hid⟩ := exists_firstFree (Nat.lt_of_succ_lt hlen)
  refine (clone_ends malloc zero clone size mem h hinv hlen hid).allOrNothing_iff h hinv hid
    (ResMgn.inv_createdAndCloned hinv hid) (ResMgn.next_createdAndCloned ·) fun ha hnn => ?_
  refine ⟨⟨mem, m.table.heap.next⟩, ?_⟩
  rw [ResMgn.get_createdAndCloned hinv hid ha, if_pos rfl, if_pos hnn]

/-! ## Runs -/

theorem step_create : step hashFcn c (.create zero size mem malloc) =
    (c.resCreateId hashFcn malloc zero size mem).map Prod.fst := by
  simp only [step, resCreateId]
  cases c.resCreate hashFcn malloc zero size mem with
  | ok r => rfl
  | error e => rfl

theorem step_clone : step hashFcn c (.clone zero clone size mem malloc) =
    (c.resCreateAndClone hashFcn malloc zero clone size mem).map Prod.fst := by
  simp only [step]
  cases c.resCreateAndClone hashFcn malloc zero clone size mem with
  | ok r => rfl
  | error e => rfl

theorem agrees_ok {ρ : Type} {x : Except Stop (UTMgn α × ρ)} {r : ρ}
    (hxy : Agrees hashFcn (fun _ => False) x (.ok (m, r))) :
    ∃ c, x = .ok (c, r) ∧ Sim hashFcn c m := by
  rcases hxy with ⟨_, _, hno⟩ | ⟨_, _, hy⟩ | ⟨c, _, _, hx, hy, hs, -⟩
  · exact absurd hno not_false
  · cases hy
  · cases hy
    exact ⟨c, hx, hs⟩

/-- A step that creates nothing. -/
theorem release_step (h : Sim hashFcn c m) (hinv : m.Inv) {a : Act α}
    (ha : (∃ id, a = .release id) ∨ a = .releaseAll) :
    ∃ c' m', step hashFcn c a = .ok c' ∧ Sim hashFcn c' m' ∧ m'.Inv ∧
      m'.lastId = m.lastId ∧ ∀ i e, m'.get i = some e → m.get i = some e := by
  rcases ha with ⟨id, rfl⟩ | rfl
  · obtain ⟨m', hrel, hinv', hlast, hget⟩ := ResMgn.inv_resRelease hinv id
    obtain ⟨c', hc', hs⟩ := agrees_ok (hrel ▸ release_agrees h hinv.wf id)
    refine ⟨c', m', ?_, hs, hinv', hlast, fun i e hi => ?_⟩
    · simp only [step, hc']
      rfl
    · rw [hget i] at hi
      split at hi
      · cases hi
      · exact hi
  · obtain ⟨m', hrel, hinv', hlast, -, -, hget⟩ :=
      ResMgn.resReleaseAll_ok hinv (ResMgn.callbacks_ok _)
    obtain ⟨c', hc', hs⟩ := agrees_ok (hrel ▸ releaseAll_agrees _ () h hinv.wf)
    refine ⟨c', m', ?_, hs, hinv', hlast, fun i e hi => ?_⟩
    · simp only [step, hc']
      rfl
    · rw [hget i] at hi
      cases hi

/-- A step from a state with few resources leads to a table again. -/
theorem sim_step (h : Sim hashFcn c m) (hinv : m.Inv) (hf : c.Few) {a : Act α}
    (hs : step hashFcn c a = .ok c') : ∃ m', Sim hashFcn c' m' ∧ m'.Inv := by
  have hlen := h.few.mp hf
  obtain ⟨id, hid⟩ := exists_firstFree (Nat.lt_of_succ_lt hlen)
  cases a with
  | create zero size mem malloc =>
    obtain ⟨ha, hsim⟩ :=
      (create_ends malloc zero size mem h hinv hlen hid).sim_of_ok (step_create ▸ hs)
    exact ⟨_, hsim, ResMgn.inv_created hinv hid ha⟩
  | clone zero clone size mem malloc =>
    obtain ⟨ha, hsim⟩ :=
      (clone_ends malloc zero clone size mem h hinv hlen hid).sim_of_ok (step_clone ▸ hs)
    exact ⟨_, hsim, ResMgn.inv_createdAndCloned hinv hid ha⟩
  | release id =>
    obtain ⟨c₁, m', hc₁, hsim, hinv', -⟩ := release_step h hinv (.inl ⟨id, rfl⟩)
    rw [hc₁] at hs
    cases hs
    exact ⟨m', hsim, hinv'⟩
  | releaseAll =>
    obtain ⟨c₁, m', hc₁, hsim, hinv', -⟩ := release_step h hinv (.inr rfl)
    rw [hc₁] at hs
    cases hs
    exact ⟨m', hsim, hinv'⟩

/-- Resources whose ids are not negative are at most 2^31. -/
theorem length_of_nonnegIds (hinv : m.Inv) (hids : m.NonnegIds) :
    m.table.chain.length ≤ 2 ^ 31 := by
  have hkey : ∀ a ∈ m.table.chain, ∃ i : CInt, m.table.keyAt Res.id a = some i ∧
      i.toNat < 2 ^ 31 := by
    intro a ha
    obtain ⟨res, hres⟩ := hinv.wf.linked a ha
    obtain ⟨p, hp, rfl⟩ := Heap.entry_of_read hres
    have hnn := hids res.id (p, res)
      (Table.get_eq_some.mpr ⟨Table.find_of_read hinv.wf ha hres, hp⟩)
    refine ⟨res.id, Table.keyAt_of_read hres, ?_⟩
    have hlt := res.id.isLt
    rw [BitVec.toInt_eq_toNat_cond] at hnn
    split at hnn <;> omega
  -- the ids, as numbers, are distinct and small
  have hnd : (m.table.chain.map fun a =>
      ((m.table.keyAt Res.id a).map BitVec.toNat).getD 0).Nodup := by
    refine hinv.wf.nodup.map_on fun a ha b hb hab => hinv.wf.keys a ha b hb ?_
    obtain ⟨i, hi, -⟩ := hkey a ha
    obtain ⟨j, hj, -⟩ := hkey b hb
    rw [hi, hj] at hab ⊢
    exact congrArg some (BitVec.eq_of_toNat_eq hab)
  have hsub : (m.table.chain.map fun a => ((m.table.keyAt Res.id a).map BitVec.toNat).getD 0) ⊆
      List.range (2 ^ 31) := by
    intro k hk
    obtain ⟨a, ha, rfl⟩ := List.mem_map.mp hk
    obtain ⟨i, hi, hlt⟩ := hkey a ha
    rw [hi]
    exact List.mem_range.mpr hlt
  have hle := (List.subperm_of_subset hnd hsub).length_le
  rwa [List.length_map, List.length_range] at hle

/-- A step that has room leads to a state without negative ids again. -/
theorem room_step (h : Sim hashFcn c m) (hinv : m.Inv) (hids : m.NonnegIds) {a : Act α}
    (hroom : c.HasRoom hashFcn a) :
    ∃ c' m', step hashFcn c a = .ok c' ∧ Sim hashFcn c' m' ∧ m'.Inv ∧ m'.NonnegIds := by
  have hlen := length_of_nonnegIds hinv hids
  obtain ⟨id, hid⟩ := exists_firstFree (Nat.lt_of_le_of_lt hlen (by decide))
  cases a with
  | create zero size mem malloc =>
    obtain ⟨hnn, ha, c', hr, hs⟩ := (create_ends malloc zero size mem h hinv
      (Nat.lt_of_le_of_lt (Nat.succ_le_succ hlen) (by decide)) hid).of_room h hinv hid hroom
    refine ⟨c', _, by rw [step_create, hr]; rfl, hs, ResMgn.inv_created hinv hid ha,
      hids.add hnn fun i hi => ?_⟩
    rw [ResMgn.get_created hinv hid ha, if_neg hi]
  | clone zero clone size mem malloc =>
    obtain ⟨hnn, ha, c', hr, hs⟩ := (clone_ends malloc zero clone size mem h hinv
      (Nat.lt_of_le_of_lt (Nat.succ_le_succ hlen) (by decide)) hid).of_room h hinv hid hroom
    refine ⟨c', _, by rw [step_clone, hr]; rfl, hs, ResMgn.inv_createdAndCloned hinv hid ha,
      hids.add hnn fun i hi => ?_⟩
    rw [ResMgn.get_createdAndCloned hinv hid ha, if_neg hi]
  | release id =>
    obtain ⟨c', m', hc', hs, hinv', -, hget⟩ := release_step h hinv (.inl ⟨id, rfl⟩)
    exact ⟨c', m', hc', hs, hinv', fun i e hi => hids i e (hget i e hi)⟩
  | releaseAll =>
    obtain ⟨c', m', hc', hs, hinv', -, hget⟩ := release_step h hinv (.inr rfl)
    exact ⟨c', m', hc', hs, hinv', fun i e hi => hids i e (hget i e hi)⟩

/-- Both functions that create are all-or-nothing exactly when they have room. -/
def RoomDecides (hashFcn : CInt → UInt32) (mgn : UTMgn α) : Prop :=
  (∀ zero size mem malloc,
    mgn.AllOrNothing hashFcn zero (mgn.resCreateId hashFcn malloc zero size mem) ↔
      mgn.Room hashFcn size mem malloc) ∧
  ∀ zero clone size mem malloc,
    mgn.AllOrNothing hashFcn (clone zero)
        (mgn.resCreateAndClone hashFcn malloc zero clone size mem) ↔
      mgn.Room hashFcn size mem malloc

/-- In every state that creations, clones and releases reach, with any answers of the allocator and
fewer than 2^32 - 1 resources at any time, a creation is all-or-nothing exactly when it has room.
In runs whose creations all have room, whatever their number, the same holds, no creation fails,
and `res_any` answers a non-negative id exactly when a resource exists. -/
theorem create_all_or_nothing (hashFcn : CInt → UInt32) (acts : List (Act α)) :
    (Along (step hashFcn) (fun mgn _ => mgn.Few) resCreateManagement acts →
      ∀ mgn : UTMgn α, exec (step hashFcn) resCreateManagement acts = .ok mgn → mgn.Few →
        mgn.RoomDecides hashFcn) ∧
    (Along (step hashFcn) (HasRoom hashFcn) resCreateManagement acts →
      ∃ mgn : UTMgn α, exec (step hashFcn) resCreateManagement acts = .ok mgn ∧
        mgn.RoomDecides hashFcn ∧
        ∃ id, mgn.resAny = .ok (mgn, id) ∧
          (0 ≤ id.toInt ↔ ∃ i p, mgn.resGet hashFcn i = .ok (mgn, some p))) := by
  constructor
  · intro hfew mgn hreach hf
    obtain ⟨m, hs, hinv⟩ := exec_invariant (J := fun c => ∃ m, Sim hashFcn c m ∧ m.Inv)
      (fun c a c' ⟨m, hs, hinv⟩ hf hstep => sim_step hs hinv hf hstep)
      ⟨_, sim_create, ResMgn.inv_create⟩ hfew hreach
    exact ⟨fun _ _ _ _ => allOrNothing_create hs hinv hf,
      fun _ _ _ _ _ => allOrNothing_clone hs hinv hf⟩
  · intro hroom
    have hnone : (ResMgn.resCreateManagement : ResMgn α).NonnegIds := fun id e h => by cases h
    obtain ⟨mgn, hmgn, m, hs, hinv, hids⟩ := exec_progress
      (J := fun c => ∃ m, Sim hashFcn c m ∧ m.Inv ∧ m.NonnegIds)
      (fun c a ⟨m, hs, hinv, hids⟩ hr => by
        obtain ⟨c', m', hc', h⟩ := room_step hs hinv hids hr
        exact ⟨c', hc', m', h⟩)
      ⟨_, sim_create, ResMgn.inv_create, hnone⟩ hroom
    have hlen := length_of_nonnegIds hinv hids
    have hf : mgn.Few := hs.few.mpr (Nat.lt_of_le_of_lt (Nat.succ_le_succ hlen) (by decide))
    exact ⟨mgn, hmgn, ⟨fun _ _ _ _ => allOrNothing_create hs hinv hf,
      fun _ _ _ _ _ => allOrNothing_clone hs hinv hf⟩, hs.resAny_sign hinv hids⟩

/-! ## Past `INT_MAX` -/

/-- The first element gets its table when nothing is refused. -/
theorem not_stops_of_empty {s : UTHash} {v : UInt32} (ht : s.tbl = none) (e : Stop) :
    ¬ AddStops .v1_9_9 (fun _ => true) s v e := by
  intro h
  cases h with
  | table _ hm => cases hm
  | buckets _ hm => cases hm
  | expand h _ _ => rw [ht] at h; cases h
  | shift h _ _ _ => rw [ht] at h; cases h

/-- A creation in a manager without resources takes `last_id`, whatever its sign. -/
theorem create_of_nil {m : ResMgn α} (h : Sim hashFcn c m) (hinv : m.Inv)
    (hc : m.table.chain = []) (zero : α) :
    ∃ c' p ha, c.resCreate hashFcn (fun _ => true) zero 8 16 = .ok (c', m.lastId, p) ∧
      Sim hashFcn c' (m.created m.lastId zero 16 ha) := by
  have htbl : c.hash.tbl = none := by
    rcases h.inv.cases with ⟨-, -, ht⟩ | ⟨hne, -⟩
    · exact ht
    · exact absurd hc hne
  rcases create_spec (fun _ => true) zero 8 16 h hinv (by rw [hc]; decide)
    (ResMgn.firstFree_of_nil hc) with
    ⟨ha, -⟩ | ⟨hsize, -⟩ | ⟨e, hstop, -⟩ | ⟨ha, -, -, c', hx, hs⟩
  · exact absurd ⟨by decide, ResMgn.cells_of_nil hinv hc 16⟩ ha
  · exact absurd (by decide) hsize
  · exact absurd hstop (not_stops_of_empty htbl e)
  · exact ⟨c', _, ha, hx, hs⟩

/-- `n` times a creation and a release of everything. -/
def cycles : Nat → List (Act Unit)
  | 0 => []
  | n + 1 => .create () 8 16 (fun _ => true) :: .releaseAll :: cycles n

theorem exec_cycles (n : Nat) {c : UTMgn Unit} {m : ResMgn Unit} (h : Sim hashFcn c m)
    (hinv : m.Inv) (hc : m.table.chain = []) :
    ∃ c' m', exec (step hashFcn) c (cycles n) = .ok c' ∧ Sim hashFcn c' m' ∧ m'.Inv ∧
      m'.table.chain = [] ∧ m'.lastId = m.lastId + BitVec.ofNat 32 n := by
  induction n generalizing c m with
  | zero => exact ⟨c, m, rfl, h, hinv, hc, (BitVec.add_zero m.lastId).symm⟩
  | succ n ih =>
    obtain ⟨c₁, p, ha, hc₁, hs₁⟩ := create_of_nil h hinv hc ()
    obtain ⟨m₁, q, m₂, hm₁, hrel, hinv₁, hinv₂, hlast, hc₂⟩ :=
      ResMgn.cycle_ok () (by decide : (16 : Addr) ≠ NULL) (fun _ _ user => .ok user) () hinv hc rfl
    rw [ResMgn.resCreate_ok hinv.unlocked (ResMgn.firstFree_of_nil hc) ha] at hm₁
    cases hm₁
    obtain ⟨c₂, hc₂', hs₂⟩ := agrees_ok (hrel ▸ releaseAll_agrees _ () hs₁ hinv₁.wf)
    obtain ⟨c', m', hrun, hs', hinv', hc', hlast'⟩ := ih hs₂ hinv₂ hc₂
    refine ⟨c', m', ?_, hs', hinv', hc', ?_⟩
    · have hstep₁ : step hashFcn c (.create () 8 16 fun _ => true) = .ok c₁ := by
        simp only [step, hc₁]
        rfl
      have hstep₂ : step hashFcn c₁ .releaseAll = .ok c₂ := by
        simp only [step, hc₂']
        rfl
      rw [cycles, exec_cons_ok hstep₁, exec_cons_ok hstep₂]
      exact hrun
    · rw [hlast', hlast, BitVec.add_assoc, BitVec.ofNat_add, BitVec.add_comm 1]
      rfl

/-- After 2^31 creations, all released, the next creation succeeds with a negative id, which
`res_any` answers as well. And a creation does not return when the record's block or a request of
`HASH_ADD_INT` is refused, or when the block is smaller than `struct res_`. -/
theorem create_past_intMax :
    (∃ mgn, exec (step hashInt) resCreateManagement (cycles (2 ^ 31)) = .ok mgn ∧
      ¬ mgn.AllOrNothing hashInt () (mgn.resCreateId hashInt (fun _ => true) () 8 16) ∧
      ∃ mgn' id p, mgn.resCreateId hashInt (fun _ => true) () 8 16 = .ok (mgn', id) ∧
        id.toInt < 0 ∧ mgn'.resGet hashInt id = .ok (mgn', some p) ∧
        mgn'.resAny = .ok (mgn', id)) ∧
    (resCreateManagement : UTMgn Unit).resCreateId hashInt (fun _ => true) () 8 NULL =
      .error (.fault .outOfMemory) ∧
    (resCreateManagement : UTMgn Unit).resCreateId hashInt (fun _ => false) () 8 16 =
      .error .exit ∧
    (resCreateManagement : UTMgn Unit).resCreateId hashInt (fun _ => true) () 4294967232 16 =
      .error (.fault .outOfBounds) := by
  refine ⟨?_, rfl, rfl, rfl⟩
  obtain ⟨c, m, hrun, hs, hinv, hc, hlast⟩ := exec_cycles (2 ^ 31)
    (sim_create : Sim hashInt resCreateManagement _) ResMgn.inv_create rfl
  have hneg : m.lastId.toInt < 0 := by
    rw [hlast]
    decide
  obtain ⟨c', p, ha, hcreate, hs'⟩ := create_of_nil hs hinv hc ()
  have hid := ResMgn.firstFree_of_nil hc
  have hinv' : (m.created m.lastId () 16 ha).Inv := ResMgn.inv_created hinv hid ha
  have hresult : c.resCreateId hashInt (fun _ => true) () 8 16 = .ok (c', m.lastId) := by
    unfold resCreateId
    rw [hcreate]
    rfl
  refine ⟨c, hrun, fun hall => ?_, c', m.lastId, ⟨16, m.table.heap.next⟩, hresult, hneg, ?_, ?_⟩
  · have hf : c.Few := hs.few.mpr (by rw [hc]; decide)
    obtain ⟨i, hi, hnn, -⟩ := ((allOrNothing_create hs hinv hf).mp hall).id
    rw [firstFree_unique hid ((hs.firstFree hinv.wf).mp hi)] at hneg
    exact absurd hnn (Int.not_le.mpr hneg)
  · rw [hs'.resGet_eq hinv', ResMgn.get_created_self hinv hid ha]
    rfl
  · rw [hs'.resAny_eq hinv']
    simp [ResMgn.newest, ResMgn.created, Table.insert, Table.link, Table.alloc, hc]

end ShellJs.UTMgn
