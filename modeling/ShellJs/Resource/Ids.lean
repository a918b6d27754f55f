import Mathlib.Data.Finset.Card
import ShellJs.Lib.Runs
import ShellJs.Resource.Limits

/-!
# The ids that `res_create` gives out

The loop of `res_create` tries `last_id`, `last_id + 1`, .. in the wrapping order of `int`.
Among fewer than 2^32 live ids it ends.

* `nthId`: the ids in the order of the probes. `exists_first_index` finds the first of them that is
  not live, after at most as many as there are live ids.
* `probe_eq`: the loop makes exactly the probes up to it.
* `Issuing`: a manager with the ids that its creations have returned. `Issues` says that they are
  the numbers from 0 on, `exec_issues` that runs keep this until the counter wraps.
* `id_search`: one search in any state, and the ids of whole runs.
-/

namespace ShellJs.ResMgn

open Runs

variable {α : Type} {mgn mgn' : ResMgn α} {id : CInt} {zero : α} {clone : α → α} {mem : Addr}

/-! ## One search -/

/-- The id that the loop of `res_create` tries after `i` others. -/
def nthId (mgn : ResMgn α) (i : Nat) : CInt := mgn.lastId + BitVec.ofNat 32 i

theorem nthId_zero (mgn : ResMgn α) : mgn.nthId 0 = mgn.lastId := by
  unfold nthId
  exact BitVec.add_zero mgn.lastId

theorem nthId_succ (mgn : ResMgn α) (i : Nat) :
    nthId { mgn with lastId := mgn.lastId + 1 } i = mgn.nthId (i + 1) := by
  unfold nthId
  show mgn.lastId + 1 + BitVec.ofNat 32 i = _
  rw [BitVec.ofNat_add, BitVec.add_assoc, BitVec.add_comm 1]
  rfl

/-- Fewer than 2^32 live ids leave one of as many probes and one more free. -/
theorem exists_first_index (mgn : ResMgn α) {live : Finset CInt} (hcard : live.card < 2 ^ 32) :
    ∃ j ≤ live.card, mgn.nthId j ∉ live ∧ ∀ i < j, mgn.nthId i ∈ live := by
  have hinj : Set.InjOn mgn.nthId (Finset.range (live.card + 1)) := by
    intro i hi j hj h
    have hi' := Finset.mem_range.mp hi
    have hj' := Finset.mem_range.mp hj
    exact ofNat_inj (by omega) (by omega) mgn.lastId h
  have hmore : live.card < ((Finset.range (live.card + 1)).image mgn.nthId).card := by
    rw [Finset.card_image_of_injOn hinj, Finset.card_range]
    exact Nat.lt_succ_self _
  obtain ⟨id, hid, hfree⟩ := Finset.exists_mem_notMem_of_card_lt_card hmore
  obtain ⟨k, hk, rfl⟩ := Finset.mem_image.mp hid
  have hex : ∃ k, mgn.nthId k ∉ live := ⟨k, hfree⟩
  refine ⟨Nat.find hex, ?_, Nat.find_spec hex, fun i hi => not_not.mp (Nat.find_min hex hi)⟩
  exact Nat.le_trans (Nat.find_min' hex hfree) (Nat.le_of_lt_succ (Finset.mem_range.mp hk))

/-- The loop tries the ids up to the first one that is free, no more and no fewer. -/
theorem probe_eq {j : Nat} (hfree : mgn.get (mgn.nthId j) = none)
    (htaken : ∀ i < j, mgn.get (mgn.nthId i) ≠ none) (n : Nat) :
    mgn.probe n =
      if j < n then some ({ mgn with lastId := mgn.nthId (j + 1) }, mgn.nthId j) else none := by
  induction n generalizing mgn j with
  | zero => rfl
  | succ n ih =>
    unfold probe
    cases j with
    | zero =>
      rw [nthId_zero] at hfree
      simp only [Table.get_eq_none.mp hfree]
      rw [if_pos (Nat.succ_pos n), nthId_zero, ← nthId_succ, nthId_zero]
    | succ j =>
      have htaken₀ := htaken 0 (Nat.succ_pos j)
      rw [nthId_zero] at htaken₀
      obtain ⟨res, hres⟩ := Option.ne_none_iff_exists'.mp fun h => htaken₀ (Table.get_eq_none.mpr h)
      simp only [hres]
      -- the rest of the loop is the loop from the next id on
      have hrest := @ih { mgn with lastId := mgn.lastId + 1 } j
        (by rw [nthId_succ]; exact hfree)
        (fun i hi => by rw [nthId_succ]; exact htaken (i + 1) (Nat.succ_lt_succ hi))
      rw [nthId_succ, nthId_succ] at hrest
      simp only [hrest, Nat.succ_lt_succ_iff]

theorem firstFree_nthId {j : Nat} (hfree : mgn.get (mgn.nthId j) = none)
    (htaken : ∀ i < j, mgn.get (mgn.nthId i) ≠ none) : mgn.FirstFree (mgn.nthId j) :=
  ⟨j, rfl, Table.get_eq_none.mp hfree, fun i hi h => htaken i hi (Table.get_eq_none.mpr h)⟩

/-! ## Runs -/

inductive Act (α : Type)
  | create (zero : α) (mem : Addr)
  | clone (zero : α) (clone : α → α) (mem : Addr)
  | release (id : CInt)
  | releaseAll

/-- The number of creations in a run. -/
def creations : List (Act α) → Nat
  | [] => 0
  | .create _ _ :: as => creations as + 1
  | .clone _ _ _ :: as => creations as + 1
  | .release _ :: as => creations as
  | .releaseAll :: as => creations as

/-- The allocations of the run succeed. -/
def Allocates (mgn : ResMgn α) : Act α → Prop
  | .create _ mem => mem ≠ NULL ∧ mgn.table.heap.cells mem = none
  | .clone _ _ mem => mem ≠ NULL ∧ mgn.table.heap.cells mem = none
  | .release _ => True
  | .releaseAll => True

theorem creations_cons (a : Act α) (acts : List (Act α)) :
    creations (a :: acts) = creations [a] + creations acts := by
  cases a with
  | create zero mem => exact Nat.add_comm _ 1
  | clone zero clone mem => exact Nat.add_comm _ 1
  | release id => exact (Nat.zero_add _).symm
  | releaseAll => exact (Nat.zero_add _).symm

/-- A manager, and the ids that its creations have returned so far. -/
structure Issuing (α : Type) where
  mgn : ResMgn α
  ids : List CInt

namespace Issuing

def init : Issuing α := ⟨resCreateManagement, []⟩

/-- A call, which keeps the answers of creations. -/
def step (s : Issuing α) : Act α → Except Fault (Issuing α)
  | .create zero mem => do
    let (mgn, id, _) ← s.mgn.resCreate zero mem
    return ⟨mgn, s.ids ++ [id]⟩
  | .clone zero clone mem => do
    let (mgn, id) ← s.mgn.resCreateAndClone zero clone mem
    return ⟨mgn, s.ids ++ [id]⟩
  | .release id => do
    let (mgn, _) ← s.mgn.resRelease id
    return ⟨mgn, s.ids⟩
  | .releaseAll => do
    let (mgn, _) ← s.mgn.resReleaseAll (fun _ _ user => .ok user) ()
    return ⟨mgn, s.ids⟩

/-- There were `n` creations, and they returned the numbers from 0 on. -/
structure Issues (s : Issuing α) (n : Nat) : Prop where
  inv : s.mgn.Inv
  young : s.mgn.Young n
  ids : s.ids = (List.range n).map (BitVec.ofNat 32)

variable {s s' : Issuing α} {n : Nat} {a : Act α} {acts : List (Act α)}

theorem issues_init : (init : Issuing α).Issues 0 := ⟨inv_create, young_create, rfl⟩

theorem ids_succ (h : s.Issues n) :
    s.ids ++ [BitVec.ofNat 32 n] = (List.range (n + 1)).map (BitVec.ofNat 32) := by
  rw [h.ids, List.range_succ, List.map_append]
  rfl

/-- A step whose allocation succeeds returns, and a creation returns the number of those
before it. -/
theorem step_issues (h : s.Issues n) (hn : n + creations [a] ≤ 2 ^ 32) (ha : s.mgn.Allocates a) :
    ∃ s', step s a = .ok s' ∧ s'.Issues (n + creations [a]) := by
  cases a with
  | create zero mem =>
    have hid := h.young.firstFree hn
    have ha : mem ≠ NULL ∧ s.mgn.table.heap.cells mem = none := ha
    refine ⟨⟨s.mgn.created (BitVec.ofNat 32 n) zero mem ha, s.ids ++ [BitVec.ofNat 32 n]⟩, ?_,
      inv_created h.inv hid ha, h.young.created h.inv hid ha, ids_succ h⟩
    simp only [step, resCreate_ok h.inv.unlocked hid ha, ok_bind]
    rfl
  | clone zero clone mem =>
    have hid := h.young.firstFree hn
    have ha : mem ≠ NULL ∧ s.mgn.table.heap.cells mem = none := ha
    refine ⟨⟨s.mgn.createdAndCloned (BitVec.ofNat 32 n) zero clone mem ha,
      s.ids ++ [BitVec.ofNat 32 n]⟩, ?_, inv_createdAndCloned h.inv hid ha,
      h.young.createdAndCloned h.inv hid ha, ids_succ h⟩
    simp only [step, resCreateAndClone_ok h.inv hid ha, ok_bind]
    rfl
  | release id =>
    obtain ⟨mgn, hrel, hinv, hl, hget⟩ := inv_resRelease h.inv id
    refine ⟨⟨mgn, s.ids⟩, ?_, hinv, h.young.released hl hget, h.ids⟩
    simp only [step, hrel, ok_bind]
    rfl
  | releaseAll =>
    obtain ⟨mgn, hrel, hinv, hl, -, -, hget⟩ := resReleaseAll_ok h.inv (callbacks_ok _)
    refine ⟨⟨mgn, s.ids⟩, ?_, hinv, h.young.emptied hl hget, h.ids⟩
    simp only [step, hrel, ok_bind]
    rfl

/-- A creation without a block does not return. -/
theorem allocates_of_step (h : s.Issues n) (hs : step s a = .ok s') : s.mgn.Allocates a := by
  cases a with
  | create zero mem =>
    obtain ⟨⟨mgn, id, p⟩, hc, -⟩ := bind_eq_ok.mp hs
    obtain ⟨-, ha, -⟩ := resCreate_inv hc
    exact ha
  | clone zero clone mem =>
    obtain ⟨⟨mgn, id⟩, hc, -⟩ := bind_eq_ok.mp hs
    obtain ⟨-, ha, -⟩ := resCreateAndClone_inv h.inv hc
    exact ha
  | release id => trivial
  | releaseAll => trivial

/-- Until the counter wraps, a run returns when its allocations succeed, and then it has issued
the numbers from `n` on. -/
theorem exec_issues (h : s.Issues n) (hn : n + creations acts ≤ 2 ^ 32) :
    (Along step (fun s => s.mgn.Allocates) s acts → ∃ s', exec step s acts = .ok s') ∧
      ∀ s', exec step s acts = .ok s' → s'.Issues (n + creations acts) := by
  induction acts generalizing s n with
  | nil => exact ⟨fun _ => ⟨s, rfl⟩, fun s' hs => by cases hs; exact h⟩
  | cons a acts ih =>
    rw [creations_cons, ← Nat.add_assoc] at hn ⊢
    have hn₁ : n + creations [a] ≤ 2 ^ 32 := Nat.le_trans (Nat.le_add_right _ _) hn
    constructor
    · rintro ⟨ha, hrest⟩
      obtain ⟨s₁, hs₁, h₁⟩ := step_issues h hn₁ ha
      rw [exec_cons_ok hs₁]
      exact (ih h₁ hn).1 (hrest s₁ hs₁)
    · intro s' hs
      obtain ⟨s₁, hs₁, hs⟩ := exec_cons_eq_ok.mp hs
      obtain ⟨s₂, hs₂, h₂⟩ := step_issues h hn₁ (allocates_of_step h hs₁)
      rw [hs₁] at hs₂
      cases hs₂
      exact (ih h₂ hn).2 s' hs

theorem Issues.toInt_ids (h : s.Issues n) (hn : n ≤ 2 ^ 31) :
    s.ids.map BitVec.toInt = (List.range n).map fun i : Nat => (i : Int) := by
  rw [h.ids, List.map_map]
  refine List.map_congr_left fun i hi => ?_
  have hlt : i < 2 ^ 31 := Nat.lt_of_lt_of_le (List.mem_range.mp hi) hn
  have hnat : (BitVec.ofNat 32 i : CInt).toNat = i := by
    rw [BitVec.toNat_ofNat, Nat.mod_eq_of_lt (by omega)]
  show (BitVec.ofNat 32 i : CInt).toInt = i
  rw [BitVec.toInt_eq_toNat_of_lt (by omega), hnat]

end Issuing

/-- In any state with fewer than 2^32 live ids, the loop of `res_create` makes at most one probe
more than there are live ids, returns the first id from `last_id` on that is not live, and
leaves the counter behind it. In a run with fewer than 2^31 creations the ids are 0, 1, 2, .. in
this order, whatever is released in between, so that none is issued twice. -/
theorem id_search :
    (∀ (mgn : ResMgn α) (live : Finset CInt), (∀ id, id ∈ live ↔ mgn.get id ≠ none) →
      live.card < 2 ^ 32 →
      ∃ j ≤ live.card, mgn.nthId j ∉ live ∧ (∀ i < j, mgn.nthId i ∈ live) ∧
        (∀ n, mgn.probe n =
          if j < n then some ({ mgn with lastId := mgn.nthId (j + 1) }, mgn.nthId j) else none) ∧
        ∀ zero mem, mgn.locked = false → mem ≠ NULL ∧ mgn.table.heap.cells mem = none →
          ∃ mgn' p, mgn.resCreate zero mem = .ok (mgn', mgn.nthId j, p) ∧
            mgn'.lastId = mgn.nthId (j + 1)) ∧
    ∀ acts : List (Act α), creations acts < 2 ^ 31 →
      (Along Issuing.step (fun s => s.mgn.Allocates) .init acts →
        ∃ s, exec Issuing.step .init acts = .ok s) ∧
      ∀ s, exec Issuing.step .init acts = .ok s →
        s.ids.map BitVec.toInt = (List.range (creations acts)).map (fun i : Nat => (i : Int)) ∧
          s.ids.Nodup := by
  constructor
  · intro mgn live hlive hcard
    obtain ⟨j, hj, hfree, htaken⟩ := mgn.exists_first_index hcard
    have hfree' : mgn.get (mgn.nthId j) = none := not_not.mp fun h => hfree ((hlive _).mpr h)
    have htaken' : ∀ i < j, mgn.get (mgn.nthId i) ≠ none := fun i hi => (hlive _).mp (htaken i hi)
    refine ⟨j, hj, hfree, htaken, probe_eq hfree' htaken', fun zero mem hu ha => ?_⟩
    refine ⟨_, _, resCreate_ok hu (firstFree_nthId hfree' htaken') ha, ?_⟩
    show mgn.nthId j + 1 = mgn.nthId (j + 1)
    unfold nthId
    rw [BitVec.add_assoc, BitVec.ofNat_add]
    rfl
  · intro acts hn
    have hle : 0 + creations acts ≤ 2 ^ 32 := by omega
    obtain ⟨hreturns, hissues⟩ := Issuing.exec_issues Issuing.issues_init hle
    refine ⟨hreturns, fun s hs => ?_⟩
    have h := hissues s hs
    rw [Nat.zero_add] at h
    have hints := h.toInt_ids (Nat.le_of_lt hn)
    refine ⟨hints, List.Nodup.of_map BitVec.toInt ?_⟩
    rw [hints]
    exact List.nodup_range.map fun i j hij => Int.ofNat.inj hij

/-- The counter wraps behind `-1`; and a released id does not come back. -/
theorem id_search_released :
    (∃ mgn' p, (⟨-1, Table.empty, false⟩ : ResMgn Unit).resCreate () 16 = .ok (mgn', -1, p) ∧
      mgn'.lastId = 0) ∧
    ∃ s, exec Issuing.step (.init : Issuing Unit)
      [.create () 16, .release 0, .create () 16] = .ok s ∧ s.ids.map BitVec.toInt = [0, 1] := by
  constructor
  · have hempty : ∀ id, id ∈ (∅ : Finset CInt) ↔
        (⟨-1, Table.empty, false⟩ : ResMgn Unit).get id ≠ none :=
      fun id => iff_of_false (Finset.notMem_empty id) fun h => h rfl
    obtain ⟨j, hj, -, -, -, hcreate⟩ := id_search.1 _ ∅ hempty (by decide)
    obtain rfl := Nat.le_zero.mp hj
    exact hcreate () 16 rfl ⟨by decide, rfl⟩
  · have hfew : creations [Act.create () 16, .release 0, .create () 16] < 2 ^ 31 := by decide
    exact ⟨_, rfl, ((id_search.2 _ hfew).2 _ rfl).1⟩

end ShellJs.ResMgn
