import ShellJs.Resource.Spec

/-!
# Ids at the limits

Callers tell a failed creation from a successful one by the sign of the id. The id comes from a
counter that wraps, so the sign says what the callers take it to say only in part of the states.

* `distance`, `NonnegFirst`: counting up from `last_id`, the first free id is not negative.
* `createdAndCloned`: the manager after `res_create_and_clone`, which copies nothing into a
  resource with a negative id.
* `NonnegIds`: no negative id is live.
* `cycle_ok`: a creation and a release of everything, which move the counter on.
* `Young`: before the counter wraps, the ids count up from 0.
-/

namespace ShellJs.ResMgn

variable {α σ : Type} {mgn mgn' : ResMgn α} {id : CInt} {zero : α} {clone : α → α} {mem : Addr}

/-! ## The first free id by its distance -/

/-- How far the counter is from `id`, counting up and wrapping. -/
def distance (mgn : ResMgn α) (id : CInt) : Nat := (id - mgn.lastId).toNat

/-- Some free non-negative id is nearer to the counter than every free negative id. -/
def NonnegFirst (mgn : ResMgn α) : Prop :=
  ∃ id, 0 ≤ id.toInt ∧ mgn.get id = none ∧
    ∀ neg : CInt, neg.toInt < 0 → mgn.get neg = none → mgn.distance id < mgn.distance neg

theorem lastId_add_distance : mgn.lastId + BitVec.ofNat 32 (mgn.distance id) = id := by
  rw [distance, BitVec.ofNat_toNat, BitVec.setWidth_eq, BitVec.add_comm, BitVec.sub_add_cancel]

theorem distance_add (j : Nat) : mgn.distance (mgn.lastId + BitVec.ofNat 32 j) = j % 2 ^ 32 := by
  rw [distance, BitVec.add_comm, BitVec.add_sub_cancel, BitVec.toNat_ofNat]

theorem distance_lt : mgn.distance id < 2 ^ 32 := (id - mgn.lastId).isLt

theorem firstFree_iff : mgn.FirstFree id ↔
    mgn.get id = none ∧ ∀ id', mgn.get id' = none → mgn.distance id ≤ mgn.distance id' := by
  constructor
  · rintro ⟨j, rfl, hfree, hbelow⟩
    refine ⟨Table.get_eq_none.mpr hfree, fun id' hid' => ?_⟩
    rw [distance_add]
    by_contra hlt
    have hlt' : mgn.distance id' < j := Nat.lt_of_lt_of_le (Nat.not_le.mp hlt) (Nat.mod_le ..)
    apply hbelow _ hlt'
    rw [lastId_add_distance]
    exact Table.get_eq_none.mp hid'
  · rintro ⟨hfree, hmin⟩
    refine ⟨mgn.distance id, lastId_add_distance.symm, Table.get_eq_none.mp hfree,
      fun i hi hnone => ?_⟩
    have hle := hmin _ (Table.get_eq_none.mpr hnone)
    rw [distance_add, Nat.mod_eq_of_lt (Nat.lt_trans hi distance_lt)] at hle
    exact absurd hi (Nat.not_lt.mpr hle)

theorem nonnegFirst_iff : mgn.NonnegFirst ↔ ∃ id, mgn.FirstFree id ∧ 0 ≤ id.toInt := by
  constructor
  · rintro ⟨id, hid, hfree, hneg⟩
    obtain ⟨id', hfirst⟩ := exists_firstFree_of_free (Table.get_eq_none.mp hfree)
    refine ⟨id', hfirst, ?_⟩
    obtain ⟨hfree', hmin⟩ := firstFree_iff.mp hfirst
    by_contra hn
    exact absurd (hmin id hfree) (Nat.not_le.mpr (hneg id' (Int.not_le.mp hn) hfree'))
  · rintro ⟨id, hfirst, hid⟩
    obtain ⟨hfree, hmin⟩ := firstFree_iff.mp hfirst
    refine ⟨id, hid, hfree, fun neg hneg hn => ?_⟩
    refine Nat.lt_of_le_of_ne (hmin neg hn) fun heq => ?_
    have hsame : id = neg := calc
      id = mgn.lastId + BitVec.ofNat 32 (mgn.distance id) := lastId_add_distance.symm
      _ = mgn.lastId + BitVec.ofNat 32 (mgn.distance neg) := by rw [heq]
      _ = neg := lastId_add_distance
    rw [hsame] at hid
    exact absurd hneg (Int.not_lt.mpr hid)

/-! ## `res_create_and_clone` -/

/-- The manager after `res_create_and_clone` that took `id` and put the block at `mem`. -/
def createdAndCloned (mgn : ResMgn α) (id : CInt) (zero : α) (clone : α → α) (mem : Addr)
    (ha : mem ≠ NULL ∧ mgn.table.heap.cells mem = none) : ResMgn α :=
  if 0 ≤ id.toInt then
    (mgn.created id zero mem ha).cloned clone ⟨mem, mgn.table.heap.next⟩ ⟨id, zero⟩
  else mgn.created id zero mem ha

theorem resCreateAndClone_ok (hinv : mgn.Inv) (hid : mgn.FirstFree id) (ha) :
    mgn.resCreateAndClone zero clone mem = .ok (mgn.createdAndCloned id zero clone mem ha, id) := by
  unfold resCreateAndClone
  rw [resCreate_ok hinv.unlocked hid ha]
  show (mgn.created id zero mem ha).cloneCopy clone id ⟨mem, mgn.table.heap.next⟩ >>= _ = _
  rw [cloneCopy_ok clone (get_created_self hinv hid ha)]
  rfl

theorem resCreateAndClone_inv (hinv : mgn.Inv)
    (h : mgn.resCreateAndClone zero clone mem = .ok (mgn', id)) :
    mgn.FirstFree id ∧ ∃ ha, mgn' = mgn.createdAndCloned id zero clone mem ha := by
  obtain ⟨⟨m, i, p⟩, hc, -⟩ := bind_eq_ok.mp h
  obtain ⟨hid, ha, -, -⟩ := resCreate_inv hc
  rw [resCreateAndClone_ok hinv hid ha] at h
  cases h
  exact ⟨hid, ha, rfl⟩

theorem resCreateAndClone_error {e : Fault} (hinv : mgn.Inv)
    (h : mgn.resCreateAndClone zero clone mem = .error e) : e = .diverges ∨ e = .outOfMemory := by
  cases hc : mgn.resCreate zero mem with
  | error e' =>
    have he : mgn.resCreateAndClone zero clone mem = .error e' := by
      rw [resCreateAndClone, hc, error_bind]
    rw [he] at h
    cases h
    exact resCreate_error hinv.unlocked hc
  | ok r =>
    obtain ⟨m, id, p⟩ := r
    obtain ⟨hid, ha, -, -⟩ := resCreate_inv hc
    rw [resCreateAndClone_ok hinv hid ha] at h
    cases h

theorem inv_createdAndCloned (hinv : mgn.Inv) (hid : mgn.FirstFree id) (ha) :
    (mgn.createdAndCloned id zero clone mem ha).Inv := by
  unfold createdAndCloned
  split
  · exact inv_cloned (inv_created hinv hid ha) (get_created_self hinv hid ha)
  · exact inv_created hinv hid ha

theorem get_createdAndCloned (hinv : mgn.Inv) (hid : mgn.FirstFree id) (ha) (i : CInt) :
    (mgn.createdAndCloned id zero clone mem ha).get i =
      if i = id then
        some (⟨mem, mgn.table.heap.next⟩, ⟨id, if 0 ≤ id.toInt then clone zero else zero⟩)
      else mgn.get i := by
  unfold createdAndCloned
  split
  · rw [get_cloned clone (inv_created hinv hid ha) (get_created_self hinv hid ha),
      get_created hinv hid ha]
    split <;> rfl
  · exact get_created hinv hid ha i

theorem lastId_createdAndCloned (ha) :
    (mgn.createdAndCloned id zero clone mem ha).lastId = id + 1 := by
  unfold createdAndCloned
  split <;> rfl

theorem next_createdAndCloned (ha) :
    (mgn.createdAndCloned id zero clone mem ha).table.heap.next = mgn.table.heap.next + 1 := by
  unfold createdAndCloned
  split <;> rfl

/-! ## No negative ids -/

/-- No negative id is live. -/
def NonnegIds (mgn : ResMgn α) : Prop := ∀ id e, mgn.get id = some e → 0 ≤ id.toInt

theorem NonnegIds.add (hids : mgn.NonnegIds) (hid : 0 ≤ id.toInt)
    (hget : ∀ i, i ≠ id → mgn'.get i = mgn.get i) : mgn'.NonnegIds := by
  intro i e hi
  by_cases hii : i = id
  · rw [hii]
    exact hid
  · exact hids i e ((hget i hii).symm.trans hi)

/-! ## Past `INT_MAX` -/

/-- A creation in a manager without resources, and a release of everything. -/
theorem cycle_ok (zero : α) {mem : Addr} (hmem : mem ≠ NULL)
    (callback : CInt → α → σ → Except Fault σ) (user : σ) {user' : σ} (hinv : mgn.Inv)
    (hc : mgn.table.chain = []) (hcb : callback mgn.lastId zero user = .ok user') :
    ∃ c p m, mgn.resCreate zero mem = .ok (c, mgn.lastId, p) ∧
      c.resReleaseAll callback user = .ok (m, user') ∧ c.Inv ∧ m.Inv ∧
      m.lastId = mgn.lastId + 1 ∧ m.table.chain = [] := by
  have ha : mem ≠ NULL ∧ mgn.table.heap.cells mem = none := ⟨hmem, cells_of_nil hinv hc mem⟩
  have hid := firstFree_of_nil hc
  have hinv' : (mgn.created mgn.lastId zero mem ha).Inv := inv_created hinv hid ha
  -- the new resource is the only one
  have hrec : (mgn.created mgn.lastId zero mem ha).records = [⟨mgn.lastId, zero⟩] := by
    have hchain : (mgn.created mgn.lastId zero mem ha).table.chain = [mem] := by
      show mgn.table.chain ++ [mem] = [mem]
      rw [hc]
      rfl
    rw [records, hchain]
    exact List.filterMap_cons_some (Heap.read_put_self ha)
  obtain ⟨m, hrel, hm, hlast, hc', -⟩ := resReleaseAll_ok hinv' (by
    rw [hrec]
    show (callback mgn.lastId zero user >>= fun u => .ok u) = .ok user'
    rw [hcb]
    rfl)
  exact ⟨_, _, m, resCreate_ok hinv.unlocked hid ha, hrel, hinv', hm, hlast, hc'⟩

/-! ## Before the counter wraps -/

/-- Fewer than `n` creations so far: the ids count up from 0. -/
structure Young (mgn : ResMgn α) (n : Nat) : Prop where
  lastId : mgn.lastId = BitVec.ofNat 32 n
  ids : ∀ id e, mgn.get id = some e → id.toNat < n

section
variable {n : Nat}

theorem young_create : (resCreateManagement : ResMgn α).Young 0 :=
  ⟨rfl, fun id e h => by cases h⟩

theorem Young.firstFree (h : mgn.Young n) (hn : n < 2 ^ 32) :
    mgn.FirstFree (BitVec.ofNat 32 n) := by
  refine ⟨0, by simp [h.lastId], ?_, fun i hi => absurd hi (Nat.not_lt_zero i)⟩
  cases hf : mgn.table.find Res.id (BitVec.ofNat 32 n) with
  | none => rfl
  | some a =>
    obtain ⟨p, res, hg, -, -⟩ := Table.get_of_find hf
    have hlt := h.ids _ _ hg
    rw [BitVec.toNat_ofNat, Nat.mod_eq_of_lt hn] at hlt
    exact absurd hlt (Nat.lt_irrefl n)

/-- A creation takes the id `n`. -/
theorem Young.add (h : mgn.Young n) (hl : mgn'.lastId = BitVec.ofNat 32 n + 1)
    (hget : ∀ i, i ≠ BitVec.ofNat 32 n → mgn'.get i = mgn.get i) : mgn'.Young (n + 1) := by
  refine ⟨hl.trans (BitVec.ofNat_add n 1).symm, fun i e hi => ?_⟩
  by_cases hii : i = BitVec.ofNat 32 n
  · rw [hii, BitVec.toNat_ofNat]
    exact Nat.lt_succ_of_le (Nat.mod_le ..)
  · exact Nat.lt_succ_of_lt (h.ids i e ((hget i hii).symm.trans hi))

/-- A step that creates nothing. -/
theorem Young.mono (h : mgn.Young n) (hl : mgn'.lastId = mgn.lastId)
    (hget : ∀ i e, mgn'.get i = some e → ∃ e', mgn.get i = some e') : mgn'.Young n := by
  refine ⟨hl.trans h.lastId, fun i e hi => ?_⟩
  obtain ⟨e', he'⟩ := hget i e hi
  exact h.ids i e' he'

theorem Young.created (h : mgn.Young n) (hinv : mgn.Inv)
    (hid : mgn.FirstFree (BitVec.ofNat 32 n)) (ha : mem ≠ NULL ∧ mgn.table.heap.cells mem = none) :
    (mgn.created (BitVec.ofNat 32 n) zero mem ha).Young (n + 1) := by
  refine h.add rfl fun i hi => ?_
  rw [get_created hinv hid ha, if_neg hi]

theorem Young.createdAndCloned (h : mgn.Young n) (hinv : mgn.Inv)
    (hid : mgn.FirstFree (BitVec.ofNat 32 n)) (ha : mem ≠ NULL ∧ mgn.table.heap.cells mem = none) :
    (mgn.createdAndCloned (BitVec.ofNat 32 n) zero clone mem ha).Young (n + 1) := by
  refine h.add (lastId_createdAndCloned ha) fun i hi => ?_
  rw [get_createdAndCloned hinv hid ha, if_neg hi]

theorem Young.released (h : mgn.Young n) (hl : mgn'.lastId = mgn.lastId)
    (hget : ∀ i, mgn'.get i = if i = id then none else mgn.get i) : mgn'.Young n := by
  refine h.mono hl fun i e hi => ?_
  rw [hget i] at hi
  split at hi
  · cases hi
  · exact ⟨e, hi⟩

theorem Young.emptied (h : mgn.Young n) (hl : mgn'.lastId = mgn.lastId)
    (hget : ∀ i, mgn'.get i = none) : mgn'.Young n := by
  refine h.mono hl fun i e hi => ?_
  rw [hget i] at hi
  cases hi

theorem toInt_ofNat_nonneg (hn : n < 2 ^ 31) : 0 ≤ (BitVec.ofNat 32 n : CInt).toInt := by
  rw [BitVec.toInt_eq_toNat_of_lt]
  · exact Int.natCast_nonneg _
  · rw [BitVec.toNat_ofNat]
    omega

end

end ShellJs.ResMgn
