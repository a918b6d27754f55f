import Mathlib.Data.Nat.Find
import ShellJs.Resource.Model

/-!
# What each resource manager function does

Under the invariant `Inv` every function has one equation or one specification here;
no later module unfolds the functions themselves.

* `FirstFree mgn id`: `id` is the first id at or after `last_id`, in the wrapping
  order of `int`, that no resource has. `exists_firstFree` finds one among fewer
  than 2^32 resources, `probe_of_firstFree` shows that the loop stops at it.
* `resCreate_ok`, `resCreate_inv`: a creation inserts the first free id.
* `modify_ok`, `resGet_eq`, `resAny_eq`, `resRelease_some`, `resReleaseAll_ok`: the others.
-/

namespace ShellJs.ResMgn

variable {α σ ρ : Type}

structure Inv (mgn : ResMgn α) : Prop where
  wf : mgn.table.WF Res.id
  owned : mgn.table.Owned
  unlocked : mgn.locked = false

/-- The manager as a finite map from ids to blocks. -/
def get (mgn : ResMgn α) (id : CInt) : Option (Ptr × Res α) := mgn.table.get Res.id id

/-- The first id at or after `last_id` that no resource has. -/
def FirstFree (mgn : ResMgn α) (id : CInt) : Prop :=
  ∃ j : Nat, id = mgn.lastId + BitVec.ofNat 32 j ∧ mgn.table.find Res.id id = none ∧
    ∀ i < j, mgn.table.find Res.id (mgn.lastId + BitVec.ofNat 32 i) ≠ none

variable {mgn mgn' : ResMgn α} {id id' : CInt} {zero : α} {mem : Addr} {p : Ptr}

theorem inv_create : (resCreateManagement : ResMgn α).Inv :=
  ⟨Table.wf_empty, Table.owned_empty, rfl⟩

theorem withLock_ok {f : ResMgn α → Except Fault (ResMgn α × ρ)} (mgn' : ResMgn α) (r : ρ)
    (hu : mgn.locked = false) (hf : f { mgn with locked := true } = .ok (mgn', r)) :
    mgn.withLock f = .ok ({ mgn' with locked := false }, r) := by
  simp only [withLock, hu, hf, Bool.false_eq_true, if_false]

theorem withLock_inv {f : ResMgn α → Except Fault (ResMgn α × ρ)} {r : ρ}
    (h : mgn.withLock f = .ok (mgn', r)) :
    ∃ m, f { mgn with locked := true } = .ok (m, r) ∧ mgn' = { m with locked := false } := by
  unfold withLock at h
  split at h
  · cases h
  · split at h
    · next m r' hf =>
      cases h
      exact ⟨m, hf, rfl⟩
    · cases h

/-! ## The search for a free id -/

theorem ofNat_inj {i j : Nat} (hi : i < 2 ^ 32) (hj : j < 2 ^ 32) (k : CInt)
    (h : k + BitVec.ofNat 32 i = k + BitVec.ofNat 32 j) : i = j := by
  have h' := congrArg BitVec.toNat ((BitVec.add_right_inj k).mp h)
  rwa [BitVec.toNat_ofNat, BitVec.toNat_ofNat, Nat.mod_eq_of_lt hi, Nat.mod_eq_of_lt hj] at h'

/-- One more probe than there are resources suffices while the probes are distinct. -/
theorem exists_probe_free {n : Nat} (hlen : mgn.table.chain.length < n) (hn : n ≤ 2 ^ 32) :
    ∃ j < n, mgn.table.find Res.id (mgn.lastId + BitVec.ofNat 32 j) = none :=
  Table.exists_find_none (fun j => mgn.lastId + BitVec.ofNat 32 j)
    (fun _ hi _ hj => ofNat_inj (by omega) (by omega) _) hlen

theorem exists_firstFree_of_free (hfree : mgn.table.find Res.id id = none) :
    ∃ id', mgn.FirstFree id' := by
  have hex : ∃ j, mgn.table.find Res.id (mgn.lastId + BitVec.ofNat 32 j) = none := by
    refine ⟨(id - mgn.lastId).toNat, ?_⟩
    rw [BitVec.ofNat_toNat, BitVec.setWidth_eq, BitVec.add_comm, BitVec.sub_add_cancel]
    exact hfree
  exact ⟨_, Nat.find hex, rfl, Nat.find_spec hex, fun i hi => Nat.find_min hex hi⟩

/-- Fewer than 2^32 resources leave an id free. -/
theorem exists_firstFree (hlen : mgn.table.chain.length < 2 ^ 32) : ∃ id, mgn.FirstFree id := by
  obtain ⟨j, -, hj⟩ := exists_probe_free hlen (Nat.le_refl _)
  exact exists_firstFree_of_free hj

theorem firstFree_unique (h : mgn.FirstFree id) (h' : mgn.FirstFree id') : id = id' := by
  obtain ⟨i, rfl, hi, hi'⟩ := h
  obtain ⟨j, rfl, hj, hj'⟩ := h'
  rcases Nat.lt_trichotomy i j with hij | hij | hij
  · exact absurd hi (hj' i hij)
  · rw [hij]
  · exact absurd hj (hi' j hij)

theorem probe_inv {n : Nat} (h : mgn.probe n = some (mgn', id)) :
    mgn.FirstFree id ∧ mgn' = { mgn with lastId := id + 1 } := by
  induction n generalizing mgn with
  | zero => cases h
  | succ n ih =>
    simp only [probe] at h
    cases hf : mgn.table.find Res.id mgn.lastId with
    | none =>
      rw [hf] at h
      cases h
      exact ⟨⟨0, by simp, hf, fun i hi => absurd hi (Nat.not_lt_zero i)⟩, rfl⟩
    | some res =>
      rw [hf] at h
      obtain ⟨⟨j, hj, hfree, hbelow⟩, hm⟩ := ih h
      have hstep : ∀ i : Nat, mgn.lastId + 1 + BitVec.ofNat 32 i =
          mgn.lastId + BitVec.ofNat 32 (i + 1) := by
        intro i
        rw [BitVec.ofNat_add, BitVec.add_assoc, BitVec.add_comm 1]
        rfl
      refine ⟨⟨j + 1, hj.trans (hstep j), hfree, fun i hi => ?_⟩, hm⟩
      cases i with
      | zero => simpa using Option.ne_none_iff_exists'.mpr ⟨res, hf⟩
      | succ i =>
        rw [← hstep i]
        exact hbelow i (Nat.lt_of_succ_lt_succ hi)

theorem probe_of_index {j n : Nat} (hjn : j < n)
    (hj : mgn.table.find Res.id (mgn.lastId + BitVec.ofNat 32 j) = none)
    : ∃ r, mgn.probe n = some r := by
  induction n generalizing mgn j with
  | zero => exact absurd hjn (Nat.not_lt_zero j)
  | succ n ih =>
    simp only [probe]
    cases hf : mgn.table.find Res.id mgn.lastId with
    | none => exact ⟨_, rfl⟩
    | some res =>
      cases j with
      | zero => simp [hf] at hj
      | succ j =>
        refine @ih { mgn with lastId := mgn.lastId + 1 } j (Nat.lt_of_succ_lt_succ hjn) ?_
        rw [BitVec.ofNat_add, BitVec.add_comm (BitVec.ofNat 32 j), ← BitVec.add_assoc] at hj
        exact hj

/-- The loop of `res_create` stops at the first free id, after at most one probe more
than there are resources. -/
theorem probe_of_firstFree (h : mgn.FirstFree id) :
    mgn.probe (mgn.table.chain.length + 1) = some ({ mgn with lastId := id + 1 }, id) := by
  have hex : ∃ r, mgn.probe (mgn.table.chain.length + 1) = some r := by
    by_cases hlen : mgn.table.chain.length < 2 ^ 32
    · obtain ⟨j, hj, hfree⟩ := exists_probe_free (Nat.lt_succ_self _) hlen
      exact probe_of_index hj hfree
    -- the probes wrap: a free id shows up among the first 2^32 of them
    · obtain ⟨j, rfl, hfree, -⟩ := h
      have hmod : BitVec.ofNat 32 j = BitVec.ofNat 32 (j % 2 ^ 32) :=
        BitVec.eq_of_toNat_eq (by simp only [BitVec.toNat_ofNat, Nat.mod_mod])
      rw [hmod] at hfree
      exact probe_of_index (Nat.lt_of_lt_of_le (Nat.mod_lt j (by decide)) (by omega)) hfree
  obtain ⟨⟨m, id'⟩, hr⟩ := hex
  obtain ⟨hfirst, rfl⟩ := probe_inv hr
  rw [hr, firstFree_unique h hfirst]

/-! ## `res_create` and `res_create_and_clone` -/

/-- The manager after a creation that took `id` and put the block at `mem`. -/
def created (mgn : ResMgn α) (id : CInt) (zero : α) (mem : Addr)
    (ha : mem ≠ NULL ∧ mgn.table.heap.cells mem = none) : ResMgn α :=
  { lastId := id + 1, table := mgn.table.insert mem ⟨id, zero⟩ ha, locked := false }

theorem resCreate_ok (hu : mgn.locked = false) (hid : mgn.FirstFree id) (ha) :
    mgn.resCreate zero mem =
      .ok (mgn.created id zero mem ha, id, ⟨mem, mgn.table.heap.next⟩) := by
  refine withLock_ok { mgn.created id zero mem ha with locked := true } _ hu ?_
  have hid' : FirstFree { mgn with locked := true } id := hid
  simp only [probe_of_firstFree hid']
  rw [dif_pos ha]
  rfl

theorem resCreate_outOfMemory (hu : mgn.locked = false) (hid : mgn.FirstFree id)
    (ha : ¬ (mem ≠ NULL ∧ mgn.table.heap.cells mem = none)) :
    mgn.resCreate zero mem = .error .outOfMemory := by
  have hid' : FirstFree { mgn with locked := true } id := hid
  simp only [resCreate, withLock, hu, Bool.false_eq_true, if_false, probe_of_firstFree hid']
  rw [dif_neg ha]

theorem resCreate_inv (h : mgn.resCreate zero mem = .ok (mgn', id, p)) :
    mgn.FirstFree id ∧ ∃ ha, mgn' = mgn.created id zero mem ha ∧
      p = ⟨mem, mgn.table.heap.next⟩ := by
  obtain ⟨m, hm, rfl⟩ := withLock_inv h
  split at hm
  · cases hm
  · next m' id' hp =>
    obtain ⟨hid, rfl⟩ := probe_inv hp
    split at hm
    · next ha =>
      cases hm
      exact ⟨hid, ha, rfl, rfl⟩
    · cases hm

/-- A creation that does not return hangs in the search or has no block. -/
theorem resCreate_error {e : Fault} (hu : mgn.locked = false)
    (h : mgn.resCreate zero mem = .error e) : e = .diverges ∨ e = .outOfMemory := by
  simp only [resCreate, withLock, hu, Bool.false_eq_true, if_false] at h
  split at h
  · cases h
  · next heq =>
    cases h
    split at heq
    · cases heq
      exact .inl rfl
    · split at heq
      · cases heq
      · cases heq
        exact .inr rfl

theorem inv_created (hinv : mgn.Inv) (hid : mgn.FirstFree id) (ha) :
    (mgn.created id zero mem ha).Inv := by
  obtain ⟨j, -, hfree, -⟩ := hid
  exact ⟨hinv.wf.insert ha hfree, hinv.owned.insert ha, rfl⟩

theorem get_created (hinv : mgn.Inv) (hid : mgn.FirstFree id) (ha) (id' : CInt) :
    (mgn.created id zero mem ha).get id' =
      if id' = id then some (⟨mem, mgn.table.heap.next⟩, ⟨id, zero⟩) else mgn.get id' := by
  obtain ⟨j, -, hfree, -⟩ := hid
  exact Table.get_insert hinv.wf ha hfree

theorem get_created_self (hinv : mgn.Inv) (hid : mgn.FirstFree id) (ha) :
    (mgn.created id zero mem ha).get id = some (⟨mem, mgn.table.heap.next⟩, ⟨id, zero⟩) := by
  rw [get_created hinv hid ha, if_pos rfl]

theorem get_eq_none_of_firstFree (hid : mgn.FirstFree id) : mgn.get id = none := by
  obtain ⟨j, -, hfree, -⟩ := hid
  exact Table.get_eq_none.mpr hfree

/-- The manager after a store through the pointer `p` to the resource `res`. -/
def cloned (mgn : ResMgn α) (clone : α → α) (p : Ptr) (res : Res α) : ResMgn α :=
  { mgn with table := mgn.table.store p.addr { res with data := clone res.data } }

theorem modify_ok (f : α → α) {res : Res α} (hg : mgn.get id = some (p, res)) :
    mgn.modify f p = .ok (mgn.cloned f p res) := by
  obtain ⟨-, he⟩ := Table.get_eq_some.mp hg
  rw [modify, Heap.deref_of_entry he]
  rfl

theorem cloneCopy_ok (clone : α → α) {res : Res α} (hg : mgn.get id = some (p, res)) :
    mgn.cloneCopy clone id p =
      .ok (if 0 ≤ id.toInt then mgn.cloned clone p res else mgn) := by
  rw [cloneCopy, modify_ok clone hg]
  split <;> rfl

theorem inv_cloned {clone : α → α} {res : Res α} (hinv : mgn.Inv)
    (hg : mgn.get id = some (p, res)) : (mgn.cloned clone p res).Inv := by
  obtain ⟨-, he⟩ := Table.get_eq_some.mp hg
  exact ⟨hinv.wf.store (Heap.read_of_entry he) rfl, hinv.owned.store, hinv.unlocked⟩

theorem get_cloned (clone : α → α) {res : Res α} (hinv : mgn.Inv)
    (hg : mgn.get id = some (p, res)) (id' : CInt) :
    (mgn.cloned clone p res).get id' =
      if id' = id then some (p, { res with data := clone res.data }) else mgn.get id' := by
  obtain ⟨hf, he⟩ := Table.get_eq_some.mp hg
  have hid : res.id = id := Table.key_of_get hg
  subst hid
  have hs : (mgn.cloned clone p res).get id' = _ :=
    Table.get_store id' hinv.wf (Table.mem_of_find hf).1 (Heap.read_of_entry he) rfl
  rw [hs]
  split
  · next hii =>
    rw [hii, show mgn.table.get Res.id res.id = some (p, res) from hg]
    rfl
  · rfl

theorem deref_of_get {res : Res α} (hg : mgn.get id = some (p, res)) :
    mgn.table.heap.deref p = some res :=
  Heap.deref_of_entry (Table.get_eq_some.mp hg).2

/-- A block that can be accessed is that of a resource in the table. -/
theorem get_of_deref {res : Res α} (hinv : mgn.Inv) (hd : mgn.table.heap.deref p = some res) :
    mgn.get res.id = some (p, res) := by
  have he := Heap.entry_of_deref hd
  have hr := Heap.read_of_entry he
  exact Table.get_eq_some.mpr ⟨Table.find_of_read hinv.wf (hinv.owned p.addr res hr) hr, he⟩

theorem id_of_get {res res' : Res α} (hg : mgn.get id = some (p, res))
    (hg' : mgn.get id' = some (p, res')) : id = id' := by
  have hd := deref_of_get hg
  rw [deref_of_get hg'] at hd
  cases hd
  exact (Table.key_of_get hg).symm.trans (Table.key_of_get hg')

theorem birth_lt_of_get {res : Res α} (hg : mgn.get id = some (p, res)) :
    p.birth < mgn.table.heap.next :=
  Heap.birth_lt_of_entry (Table.get_eq_some.mp hg).2

/-- `mgn'` is `mgn` with other data in the resource `id`. -/
structure Updated (mgn mgn' : ResMgn α) (id : CInt) (p : Ptr) (data : α) : Prop where
  inv : mgn'.Inv
  self : mgn'.get id = some (p, ⟨id, data⟩)
  other : ∀ i, i ≠ id → mgn'.get i = mgn.get i
  lastId : mgn'.lastId = mgn.lastId
  chain : mgn'.table.chain = mgn.table.chain

/-- Another store through the pointer to the resource. -/
theorem Updated.modify {data : α} (h : mgn.Updated mgn' id p data) (f : α → α) :
    ∃ m, mgn'.modify f p = .ok m ∧ mgn.Updated m id p (f data) := by
  refine ⟨_, modify_ok f h.self, inv_cloned h.inv h.self, ?_, fun i hi => ?_, h.lastId, h.chain⟩
  · rw [get_cloned f h.inv h.self, if_pos rfl]
  · rw [get_cloned f h.inv h.self, if_neg hi, h.other i hi]

theorem updated_self {res : Res α} (hinv : mgn.Inv) (hg : mgn.get id = some (p, res)) :
    mgn.Updated mgn id p res.data := by
  have hid : res.id = id := Table.key_of_get hg
  refine ⟨hinv, ?_, fun _ _ => rfl, rfl, rfl⟩
  rw [hg, ← hid]

/-! ## `res_get` and `res_any` -/

theorem resGet_eq (hu : mgn.locked = false) :
    mgn.resGet id = .ok (mgn, (mgn.get id).map Prod.fst) := by
  have hm : mgn = { mgn with locked := false } := by rw [← hu]
  refine (withLock_ok { mgn with locked := true } _ hu rfl).trans ?_
  rw [← hm]
  rfl

/-- The id of the newest resource, `-1` when there is none. -/
def newest (mgn : ResMgn α) : CInt :=
  match mgn.table.chain.getLast? with
  | none => -1
  | some res => ((mgn.table.heap.read res).map Res.id).getD (-1)

theorem foldl_last (f : Addr → Option CInt) (l : List Addr) (k : CInt)
    (hl : ∀ x ∈ l, ∃ v, f x = some v) :
    l.foldl (fun id x => (f x).getD id) k =
      match l.getLast? with
      | none => k
      | some x => (f x).getD (-1) := by
  rcases List.eq_nil_or_concat l with rfl | ⟨l, x, rfl⟩
  · rfl
  · obtain ⟨v, hv⟩ := hl x (by simp)
    simp [hv]

theorem resAny_eq (hinv : mgn.Inv) : mgn.resAny = .ok (mgn, mgn.newest) := by
  have hm : mgn = { mgn with locked := false } := by rw [← hinv.unlocked]
  have hlast := foldl_last (fun x => (mgn.table.heap.read x).map Res.id) mgn.table.chain (-1) (by
    intro x hx
    obtain ⟨v, hv⟩ := hinv.wf.linked x hx
    exact ⟨v.id, by rw [hv]; rfl⟩)
  refine (withLock_ok { mgn with locked := true } _ hinv.unlocked rfl).trans ?_
  rw [← hm]
  exact congrArg (fun id => Except.ok (mgn, id)) hlast

theorem get_of_nil (hc : mgn.table.chain = []) (id : CInt) : mgn.get id = none := by
  refine Table.get_eq_none.mpr (Table.find_eq_none.mpr fun x hx => ?_)
  rw [hc] at hx
  cases hx

theorem firstFree_of_nil (hc : mgn.table.chain = []) : mgn.FirstFree mgn.lastId :=
  ⟨0, by simp, Table.get_eq_none.mp (get_of_nil hc _), fun i hi => absurd hi (Nat.not_lt_zero i)⟩

theorem cells_of_nil (hinv : mgn.Inv) (hc : mgn.table.chain = []) (a : Addr) :
    mgn.table.heap.cells a = none := by
  rw [← Heap.read_eq_none]
  cases hr : mgn.table.heap.read a with
  | none => rfl
  | some res =>
    have hmem := hinv.owned a res hr
    rw [hc] at hmem
    cases hmem

/-- `res_any` finds the resource at the tail, or there is none. -/
theorem newest_cases (hinv : mgn.Inv) :
    (mgn.table.chain = [] ∧ mgn.newest = -1) ∨
      ∃ p res, mgn.table.chain.getLast? = some p.addr ∧ mgn.get mgn.newest = some (p, res) := by
  cases hl : mgn.table.chain.getLast? with
  | none => exact .inl ⟨List.getLast?_eq_none_iff.mp hl, by rw [newest, hl]⟩
  | some a =>
    have ha := List.mem_of_getLast? hl
    obtain ⟨res, hres⟩ := hinv.wf.linked a ha
    obtain ⟨p, hp, rfl⟩ := Heap.entry_of_read hres
    have hn : mgn.newest = res.id := by
      rw [newest, hl]
      show ((mgn.table.heap.read p.addr).map Res.id).getD (-1) = res.id
      rw [hres]
      rfl
    refine .inr ⟨p, res, rfl, ?_⟩
    rw [hn]
    exact Table.get_eq_some.mpr ⟨Table.find_of_read hinv.wf ha hres, hp⟩

/-! ## `res_release` -/

theorem resRelease_none (hu : mgn.locked = false) (hg : mgn.get id = none) :
    mgn.resRelease id = .ok (mgn, ()) := by
  have hm : mgn = { mgn with locked := false } := by rw [← hu]
  refine (withLock_ok { mgn with locked := true } () hu ?_).trans ?_
  · show (match mgn.table.find Res.id id with
      | none => _
      | some res => _) = _
    rw [Table.get_eq_none.mp hg]
  · rw [← hm]

/-- The release of a resource unlinks its block and frees it. -/
theorem resRelease_some {res : Res α} (hinv : mgn.Inv) (hg : mgn.get id = some (p, res)) :
    ∃ table, (mgn.table.unlink p.addr).free p.addr = some table ∧
      mgn.resRelease id = .ok ({ mgn with table := table }, ()) ∧
      ResMgn.Inv { mgn with table := table } ∧
      ∀ id', ResMgn.get { mgn with table := table } id' =
        if id' = id then none else mgn.get id' := by
  obtain ⟨hf, he⟩ := Table.get_eq_some.mp hg
  have hr := Heap.read_of_entry he
  have hmem := (Table.mem_of_find hf).1
  have hid : res.id = id := Table.key_of_get hg
  obtain ⟨table, htable⟩ := Table.free_of_read ((Table.read_unlink p.addr p.addr).trans hr)
  have hrem := Table.find_remove hinv.wf hmem hr htable
  refine ⟨table, htable, ?_, ⟨hrem.1, hinv.owned.remove htable, hinv.unlocked⟩, fun id' => ?_⟩
  · have hu := hinv.unlocked
    have hm : ({ mgn with table := table } : ResMgn α) =
        { mgn with table := table, locked := false } := by
      rw [← hu]
    rw [hm]
    refine withLock_ok { mgn with table := table, locked := true } () hu ?_
    simp only [hf, htable]
  · rw [← hid]
    exact Table.get_remove hinv.wf hmem hr htable

/-- A release, whether there is a resource or not. -/
theorem inv_resRelease (hinv : mgn.Inv) (id : CInt) :
    ∃ mgn', mgn.resRelease id = .ok (mgn', ()) ∧ mgn'.Inv ∧ mgn'.lastId = mgn.lastId ∧
      ∀ i, mgn'.get i = if i = id then none else mgn.get i := by
  cases hg : mgn.get id with
  | none =>
    refine ⟨mgn, resRelease_none hinv.unlocked hg, hinv, rfl, fun i => ?_⟩
    split
    · next hi => rw [hi, hg]
    · rfl
  | some e =>
    obtain ⟨table, -, hrel, hinv', hget⟩ := resRelease_some hinv hg
    exact ⟨_, hrel, hinv', rfl, hget⟩

/-! ## `res_release_all` -/

/-- The resources in application order. -/
def records (mgn : ResMgn α) : List (Res α) := mgn.table.chain.filterMap mgn.table.heap.read

theorem mem_records {res : Res α} (hinv : mgn.Inv) :
    res ∈ mgn.records ↔ ∃ p, mgn.get res.id = some (p, res) := by
  rw [records, List.mem_filterMap]
  constructor
  · rintro ⟨a, ha, hr⟩
    obtain ⟨p, hp, rfl⟩ := Heap.entry_of_read hr
    exact ⟨p, Table.get_eq_some.mpr ⟨Table.find_of_read hinv.wf ha hr, hp⟩⟩
  · rintro ⟨p, hg⟩
    obtain ⟨hf, he⟩ := Table.get_eq_some.mp hg
    exact ⟨p.addr, (Table.mem_of_find hf).1, Heap.read_of_entry he⟩

theorem records_pairwise (hinv : mgn.Inv) : mgn.records.Pairwise fun r r' => r.id ≠ r'.id := by
  rw [records, List.pairwise_filterMap]
  refine hinv.wf.nodup.imp_of_mem fun {a b} ha hb hab r hr r' hr' hid => hab ?_
  have hfa := Table.find_of_read hinv.wf ha hr
  have hfb := Table.find_of_read hinv.wf hb hr'
  rw [hid, hfb] at hfa
  exact (Option.some.inj hfa).symm

/-- The callbacks of `res_release_all`, in application order. -/
def callbacks (callback : CInt → α → σ → Except Fault σ) (user : σ) (l : List (Res α)) :
    Except Fault σ :=
  l.foldlM (fun user res => callback res.id res.data user) user

theorem callbacks_ok (l : List (Res α)) :
    callbacks (fun _ _ user => .ok user) () l = .ok () := by
  induction l with
  | nil => rfl
  | cons res l ih => exact ih

theorem releaseLoop_ok {callback : CInt → α → σ → Except Fault σ} {todo : List Addr}
    {t : Table (Res α)} {user user' : σ} (hw : t.WF Res.id) (hc : t.chain = todo)
    (hcb : callbacks callback user (todo.filterMap t.heap.read) = .ok user') :
    ∃ t', releaseLoop callback todo t user = .ok (t', user') ∧ t'.chain = [] ∧
      t'.heap.next = t.heap.next ∧
      ∀ x, t'.heap.read x = if x ∈ todo then none else t.heap.read x := by
  induction todo generalizing t user with
  | nil =>
    cases hcb
    exact ⟨t, rfl, hc, rfl, fun x => by simp⟩
  | cons a rest ih =>
    have ha : a ∈ t.chain := by rw [hc]; exact List.mem_cons_self
    obtain ⟨r, hr⟩ := hw.linked a ha
    have hnd : a ∉ rest ∧ rest.Nodup := List.nodup_cons.mp (hc ▸ hw.nodup)
    rw [List.filterMap_cons_some hr] at hcb
    obtain ⟨u₁, hu₁, hcb'⟩ := bind_eq_ok.mp hcb
    obtain ⟨t₁, ht₁⟩ := Table.free_of_read ((Table.read_unlink a a).trans hr)
    have hc₁ : t₁.chain = rest := by
      rw [Table.chain_free ht₁]
      show t.chain.erase a = rest
      rw [hc, List.erase_cons_head]
    have hread : ∀ x, x ≠ a → t₁.heap.read x = (t.unlink a).heap.read x :=
      fun x => Table.read_free_of_ne ht₁
    -- the callbacks that are left see the records that were there at the start
    have hsame : rest.filterMap t₁.heap.read = rest.filterMap t.heap.read :=
      List.filterMap_congr fun x hx => hread x fun hxa => hnd.1 (hxa ▸ hx)
    have hnext : t₁.heap.next = (t.unlink a).heap.next := Table.next_free ht₁
    obtain ⟨t', ht', hc', hn', hr'⟩ :=
      ih (Table.find_remove hw ha hr ht₁).1 hc₁ (by rw [hsame]; exact hcb')
    refine ⟨t', ?_, hc', hn'.trans hnext, fun x => ?_⟩
    · simp only [releaseLoop, hr, hu₁, ht₁, orFault, ok_bind, ht']
    · rw [hr' x]
      by_cases hx : x = a
      · subst hx
        simp [hnd.1, Table.read_free_self ht₁]
      · simp [hx, hread x hx]

/-- The manager after `res_release_all`: the callback saw every resource, and no
resource and no block is left. -/
theorem resReleaseAll_ok {callback : CInt → α → σ → Except Fault σ} {user user' : σ}
    (hinv : mgn.Inv) (hcb : callbacks callback user mgn.records = .ok user') :
    ∃ mgn', mgn.resReleaseAll callback user = .ok (mgn', user') ∧ mgn'.Inv ∧
      mgn'.lastId = mgn.lastId ∧ mgn'.table.chain = [] ∧
      mgn'.table.heap.next = mgn.table.heap.next ∧ ∀ id, mgn'.get id = none := by
  obtain ⟨t', ht', hc', hn', hr'⟩ := releaseLoop_ok hinv.wf rfl hcb
  have hnone : ∀ x, t'.heap.read x = none := by
    intro x
    rw [hr' x]
    split
    · rfl
    · next hx =>
      cases hrx : mgn.table.heap.read x with
      | none => rfl
      | some v => exact absurd (hinv.owned x v hrx) hx
  refine ⟨{ mgn with table := t', locked := false }, ?_, ⟨⟨?_, ?_, ?_⟩, ?_, rfl⟩, rfl, hc', hn', ?_⟩
  · refine withLock_ok { mgn with table := t', locked := true } user' hinv.unlocked ?_
    simp only [ht', ok_bind]
    rfl
  · intro x hx
    exact absurd hx (by simp [hc'])
  · simp [hc']
  · intro x hx
    exact absurd hx (by simp [hc'])
  · intro x v hx
    rw [hnone x] at hx
    cases hx
  · exact get_of_nil hc'

end ShellJs.ResMgn
