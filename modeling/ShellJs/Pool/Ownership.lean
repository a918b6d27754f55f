import ShellJs.Lib.Runs
import ShellJs.Pool.Spec

/-!
# Ownership in the managed memory pool

A run is a list of calls with the addresses that the allocator would answer. The ghost
history `hist` notes the retains and the give-ups, each with the birth of the entry that
it is applied to; an entry keeps its birth when a growth gives it another block.

* `owners`: the count that the history calls for.
* `PoolRun.Inv`: the keys are exactly the allocated data blocks, and every retained count
  is the one that the history calls for.
* `FreedBy`: the reasons for which a call frees the data block of an entry.
* `step_ok`: a call whose allocations succeed keeps the invariant, and frees the blocks that it has
  a reason for and no others.
-/

namespace ShellJs

open Runs Pool

inductive OwnerEvent
  | retained (entry : Nat)
  | gaveUp (entry : Nat)

structure PoolRun where
  pool : Pool
  /-- ghost: the retains and give-ups so far, the latest first -/
  hist : List OwnerEvent

namespace PoolRun

inductive Act
  | ralloc (originMem : Addr) (newSize : UInt64) (nodeMem dataMem : Addr)
  | alloc (newSize : UInt64) (nodeMem dataMem : Addr)
  | retain (originMem : Addr)
  | release (originMem : Addr)
  | autorelease (originMem : Addr)
  | releaseUnused
  | releaseAll

def init : PoolRun := ⟨Pool.empty, []⟩

/-- The call itself. -/
def call (pool : Pool) : Act → Except Fault Pool
  | .ralloc originMem newSize nodeMem dataMem => do
    let (pool, _) ← pool.ralloc originMem newSize nodeMem dataMem
    return pool
  | .alloc newSize nodeMem dataMem => do
    let (pool, _) ← pool.alloc newSize nodeMem dataMem
    return pool
  | .retain originMem => do
    let (pool, _) ← pool.retain originMem
    return pool
  | .release originMem => pool.release originMem
  | .autorelease originMem => pool.autorelease originMem
  | .releaseUnused => pool.releaseUnused
  | .releaseAll => pool.releaseAll

/-- What the call does to the ownership of the entry that it names. A larger block for one
of several owners costs that owner its share of the old one. -/
def ownerEvents (pool : Pool) : Act → List OwnerEvent
  | .ralloc originMem newSize _ _ =>
    match pool.get originMem with
    | some (p, e) => if newSize > e.s ∧ e.r ≠ 1 then [.gaveUp p.birth] else []
    | none => []
  | .retain originMem => (pool.get originMem).elim [] fun r => [.retained r.1.birth]
  | .release originMem => (pool.get originMem).elim [] fun r => [.gaveUp r.1.birth]
  | .autorelease originMem => (pool.get originMem).elim [] fun r => [.gaveUp r.1.birth]
  | .alloc _ _ _ => []
  | .releaseUnused => []
  | .releaseAll => []

def step (s : PoolRun) (a : Act) : Except Fault PoolRun := do
  let pool ← call s.pool a
  return ⟨pool, ownerEvents s.pool a ++ s.hist⟩

/-- The allocations succeed at addresses that are not allocated, and no count overflows. -/
def Allowed (s : PoolRun) : Act → Prop
  | .ralloc _ _ nodeMem dataMem => Fresh s.pool.table.heap nodeMem ∧ Fresh s.pool.data dataMem
  | .alloc _ nodeMem dataMem => Fresh s.pool.table.heap nodeMem ∧ Fresh s.pool.data dataMem
  | .retain originMem => ∀ p e, s.pool.get originMem = some (p, e) → e.r.toNat + 1 < 2 ^ 64
  | .release _ => True
  | .autorelease _ => True
  | .releaseUnused => True
  | .releaseAll => True

/-- The number of owners of an entry: one from its creation, one more for each retain, one
less for each give-up while there is one. -/
def owners (entry : Nat) : List OwnerEvent → Nat
  | [] => 1
  | .retained b :: hist => if b = entry then owners entry hist + 1 else owners entry hist
  | .gaveUp b :: hist => if b = entry then owners entry hist - 1 else owners entry hist

def OwnerEvent.entry : OwnerEvent → Nat
  | .retained b => b
  | .gaveUp b => b

/-- Why the call `a` frees the data block of the entry `(p, e)`, found at `x`. -/
def FreedBy (a : Act) (x : Addr) (p : Ptr) (e : MgnMemory) (s' : PoolRun) : Prop :=
  match a with
  | .release originMem => originMem = x ∧ e.r = 1
  | .releaseUnused => e.r = 0
  | .releaseAll => True
  | .ralloc originMem newSize _ _ => originMem = x ∧ e.r = 1 ∧ newSize > e.s ∧
      ∃ y e', s'.pool.get y = some (p, e') ∧ e'.r = 1 ∧ e'.s = newSize
  | .alloc _ _ _ => False
  | .retain _ => False
  | .autorelease _ => False

/-- Every data block that the step frees is that of an entry, for one of the reasons. -/
def FreesFor (s : PoolRun) (a : Act) (s' : PoolRun) : Prop :=
  ∀ k ∈ s'.pool.data.frees, k ∉ s.pool.data.frees →
    ∃ x b p e, s.pool.data.cells x = some b ∧ b.birth = k ∧ s.pool.get x = some (p, e) ∧
      FreedBy a x p e s'

/-- The step frees the data block of every entry that it has a reason for. -/
def FreesAll (s : PoolRun) (a : Act) (s' : PoolRun) : Prop :=
  ∀ x b p e, s.pool.data.cells x = some b → s.pool.get x = some (p, e) → FreedBy a x p e s' →
    b.birth ∈ s'.pool.data.frees

structure Inv (s : PoolRun) : Prop where
  wf : s.pool.WF
  owned : s.pool.table.Owned
  block : ∀ x b, s.pool.data.cells x = some b → ∃ r, s.pool.get x = some r
  count : ∀ x p e, s.pool.get x = some (p, e) → e.r.toNat = owners p.birth s.hist
  fresh : ∀ ev ∈ s.hist, OwnerEvent.entry ev < s.pool.table.heap.next

variable {s s' : PoolRun} {pool pool' : Pool} {hist : List OwnerEvent} {a x : Addr} {p : Ptr}
  {e e' : MgnMemory} {ev : OwnerEvent} {newSize : UInt64} {nodeMem dataMem : Addr}

theorem inv_init : init.Inv :=
  ⟨wf_empty, Table.owned_empty, (fun _ _ h => nomatch h), (fun _ _ _ h => nomatch h),
    fun _ h => nomatch h⟩

/-! ## The history -/

theorem owners_cons_ne {k : Nat} (h : OwnerEvent.entry ev ≠ k) :
    owners k (ev :: hist) = owners k hist := by
  cases ev with
  | retained b => exact if_neg h
  | gaveUp b => exact if_neg h

/-- A new entry has one owner. -/
theorem owners_new {k : Nat} (h : ∀ ev ∈ hist, OwnerEvent.entry ev < k) : owners k hist = 1 := by
  induction hist with
  | nil => rfl
  | cons ev hist ih =>
    rw [owners_cons_ne (Nat.ne_of_lt (h ev List.mem_cons_self)),
      ih fun ev hev => h ev (List.mem_cons_of_mem _ hev)]

/-! ## The effects keep the invariant -/

theorem Inv.touched (h : Inv ⟨pool, hist⟩) (hg : pool.get a = some (p, e))
    (ht : Touched pool pool' a p e') (hev : OwnerEvent.entry ev = p.birth)
    (hr : e'.r.toNat = owners p.birth (ev :: hist)) : Inv ⟨pool', ev :: hist⟩ := by
  refine ⟨ht.wf, ht.owned h.owned, fun x b hb => ?_, fun x q f hx => ?_, fun v hv => ?_⟩
  · have hb' : pool.data.cells x = some b := by
      rw [← ht.data]
      exact hb
    rw [ht.get x]
    split
    · exact ⟨_, rfl⟩
    · exact h.block x b hb'
  · have hx' := (ht.get x).symm.trans hx
    split at hx'
    · cases hx'
      exact hr
    · next hxa =>
      have hne : OwnerEvent.entry ev ≠ q.birth := by
        rw [hev]
        exact fun hpq => hxa (key_unique hg hx' hpq).symm
      rw [owners_cons_ne hne]
      exact h.count x q f hx'
  · show OwnerEvent.entry v < pool'.table.heap.next
    rw [ht.next]
    rcases List.mem_cons.mp hv with rfl | hv
    · rw [hev]
      exact birth_lt hg
    · exact h.fresh v hv

theorem Inv.purged {gone : Ptr × MgnMemory → Bool} (h : Inv ⟨pool, hist⟩)
    (hp : Purged gone pool pool') : Inv ⟨pool', hist⟩ := by
  have hback : ∀ x r, pool'.get x = some r → pool.get x = some r := by
    intro x r hx
    rw [hp.get x] at hx
    exact (Option.filter_eq_some_iff.mp hx).1
  refine ⟨hp.wf, hp.owned h.owned, fun x b hb => ?_, fun x q f hx => h.count x q f (hback x _ hx),
    fun v hv => ?_⟩
  · have hb' := (hp.cells x).symm.trans hb
    split at hb'
    · cases hb'
    · next hgone =>
      obtain ⟨r, hr⟩ := h.block x b hb'
      have hr' : pool.get x = some r := hr
      refine ⟨r, ?_⟩
      rw [hp.get x, hr']
      rw [hr'] at hgone
      simpa [Option.filter] using hgone
  · show OwnerEvent.entry v < pool'.table.heap.next
    rw [hp.next]
    exact h.fresh v hv

theorem Inv.added {bytes : List UInt8} {copies : List BlockCopy} (h : Inv ⟨pool, hist⟩)
    (hn : Fresh pool.table.heap nodeMem) (hd : Fresh pool.data dataMem) :
    Inv ⟨pool.added newSize nodeMem dataMem bytes copies hn hd, hist⟩ := by
  have hget := get_added newSize bytes copies h.wf hn hd
  refine ⟨wf_added h.wf hn hd, h.owned.insert hn, fun x b hb => ?_, fun x q f hx => ?_,
    fun v hv => Nat.lt_succ_of_lt (h.fresh v hv)⟩
  · rw [hget x]
    split
    · exact ⟨_, rfl⟩
    · next hxd =>
      exact h.block x b ((Heap.cells_put_of_ne hd hxd).symm.trans hb)
  · have hx' := (hget x).symm.trans hx
    split at hx'
    · cases hx'
      exact (owners_new h.fresh).symm
    · exact h.count x q f hx'

theorem Inv.grown {bytes : List UInt8} {copies : List BlockCopy} (h : Inv ⟨pool, hist⟩)
    (hg : pool.get a = some (p, e)) (hd : Fresh pool.data dataMem) {b} {hb} :
    Inv ⟨pool.grown p e newSize dataMem bytes copies hd b hb, hist⟩ := by
  have hget := get_grown newSize bytes copies h.wf hg hd b hb
  have hm := m_of_get hg
  refine ⟨wf_grown h.wf hg hd, h.owned.rekey, fun x c hc => ?_, fun x q f hx => ?_, h.fresh⟩
  · rw [hget x]
    split
    · exact ⟨_, rfl⟩
    · next hxd =>
      have hxm : x ≠ e.m := by
        rintro rfl
        have hc' := (Heap.cells_drop_self hb).symm.trans hc
        cases hc'
      rw [if_neg (fun hxa => hxm (hxa.trans hm.symm))]
      exact h.block x c ((Heap.cells_put_of_ne hd hxd).symm.trans
        ((Heap.cells_drop_of_ne hb hxm).symm.trans hc))
  · have hx' := (hget x).symm.trans hx
    split at hx'
    · cases hx'
      exact h.count a p e hg
    · split at hx'
      · cases hx'
      · exact h.count x q f hx'

/-! ## What the calls free -/

theorem freesFor_of_frees (h : pool'.data.frees = s.pool.data.frees) {act : Act} :
    FreesFor s act ⟨pool', hist⟩ := by
  intro k hk hnk
  have hk' : k ∈ pool'.data.frees := hk
  rw [h] at hk'
  exact absurd hk' hnk

theorem freesAll_of_not {act : Act}
    (hnot : ∀ x p e, s.pool.get x = some (p, e) → ¬FreedBy act x p e s') : FreesAll s act s' :=
  fun x _ p e _ hg hby => absurd hby (hnot x p e hg)

/-- A removed entry's data block is the only one that the step frees. -/
theorem freesFor_of_drop {act : Act} {b : Block (List UInt8)} (hb : s.pool.data.cells x = some b)
    (hg : s.pool.get x = some (p, e)) (hf : pool'.data.frees = b.birth :: s.pool.data.frees)
    (hby : FreedBy act x p e ⟨pool', hist⟩) : FreesFor s act ⟨pool', hist⟩ := by
  intro k hk hnk
  have hk' : k ∈ pool'.data.frees := hk
  rw [hf] at hk'
  rcases List.mem_cons.mp hk' with rfl | hk'
  · exact ⟨x, b, p, e, hb, rfl, hg, hby⟩
  · exact absurd hk' hnk

theorem freesAll_of_drop {act : Act} {b : Block (List UInt8)} (hb : s.pool.data.cells x = some b)
    (hf : pool'.data.frees = b.birth :: s.pool.data.frees)
    (honly : ∀ y q f, FreedBy act y q f ⟨pool', hist⟩ → y = x) :
    FreesAll s act ⟨pool', hist⟩ := by
  intro y c q f hc _ hby
  obtain rfl := honly y q f hby
  obtain rfl := Option.some.inj (hc.symm.trans hb)
  show c.birth ∈ pool'.data.frees
  rw [hf]
  exact List.mem_cons_self

/-- A walk frees the data blocks of the entries that are gone. -/
theorem freesFor_of_purged {act : Act} {gone : Ptr × MgnMemory → Bool} (h : s.Inv)
    (hp : Purged gone s.pool pool')
    (hby : ∀ x p e, gone (p, e) = true → FreedBy act x p e ⟨pool', hist⟩) :
    FreesFor s act ⟨pool', hist⟩ := by
  intro k hk hnk
  obtain ⟨hlt, hdead⟩ := (pool'.data.freed_iff k).mp hk
  rw [hp.dataNext] at hlt
  -- the block was allocated before the walk
  have hlive : ∃ x b, s.pool.data.cells x = some b ∧ b.birth = k := by
    by_contra hno
    refine hnk ((s.pool.data.freed_iff k).mpr ⟨hlt, fun x b hb hbk => ?_⟩)
    exact hno ⟨x, b, hb, hbk⟩
  obtain ⟨x, b, hb, hbk⟩ := hlive
  obtain ⟨⟨p, e⟩, hg⟩ := h.block x b hb
  refine ⟨x, b, p, e, hb, hbk, hg, hby x p e ?_⟩
  by_contra hgone
  have hcell := hp.cells x
  rw [hg, Option.any_some, if_neg hgone, hb] at hcell
  exact hdead x b hcell hbk

theorem freesAll_of_purged {act : Act} {gone : Ptr × MgnMemory → Bool}
    (hp : Purged gone s.pool pool')
    (hgone : ∀ x p e, FreedBy act x p e ⟨pool', hist⟩ → gone (p, e) = true) :
    FreesAll s act ⟨pool', hist⟩ := by
  intro x b p e hb hg hby
  refine (pool'.data.freed_iff b.birth).mpr ⟨?_, fun y c hc hbirth => ?_⟩
  · rw [hp.dataNext]
    exact s.pool.data.birth_lt x b hb
  · rw [hp.cells y] at hc
    split at hc
    · cases hc
    · next hstays =>
      obtain rfl := s.pool.data.birth_inj y c x b hc hb hbirth
      rw [hg, Option.any_some] at hstays
      exact hstays (hgone y p e hby)

/-! ## One step -/

theorem step_call {act : Act} (h : call s.pool act = .ok pool') :
    step s act = .ok ⟨pool', ownerEvents s.pool act ++ s.hist⟩ := by
  rw [step, h]
  rfl

/-- The step succeeds, keeps the invariant and frees the blocks that it has a reason for. -/
def StepOk (s : PoolRun) (a : Act) : Prop :=
  ∃ s', step s a = .ok s' ∧ s'.Inv ∧ FreesFor s a s' ∧ FreesAll s a s'

theorem toNat_givenUp (e : MgnMemory) : (givenUp e).r.toNat = e.r.toNat - 1 := by
  unfold givenUp
  split
  · next h => exact toNat_sub_one (UInt64.pos_iff_ne_zero.mp h)
  · next h =>
    have h' : ¬ 0 < e.r.toNat := fun hlt => h (UInt64.lt_iff_toNat_lt.mpr hlt)
    omega

theorem stepOk_added {act : Act} {bytes : List UInt8} {copies : List BlockCopy} {pool₁ : Pool}
    {evs : List OwnerEvent} (hev : ownerEvents s.pool act = evs)
    (h : Inv ⟨pool₁, evs ++ s.hist⟩) (hdata : pool₁.data = s.pool.data)
    (hn : Fresh pool₁.table.heap nodeMem) (hd : Fresh pool₁.data dataMem)
    (hcall : call s.pool act = .ok (pool₁.added newSize nodeMem dataMem bytes copies hn hd))
    (hnot : ∀ x p e s', s.pool.get x = some (p, e) → ¬FreedBy act x p e s') :
    StepOk s act := by
  refine ⟨_, step_call hcall, ?_, freesFor_of_frees ?_, freesAll_of_not fun x p e => hnot x p e _⟩
  · rw [hev]
    exact h.added hn hd
  · show pool₁.data.frees = _
    rw [hdata]

/-- A step that changes nothing but, perhaps, the history. -/
theorem stepOk_same {act : Act} (hcall : call s.pool act = .ok s.pool)
    (h : Inv ⟨s.pool, ownerEvents s.pool act ++ s.hist⟩)
    (hnot : ∀ x p e s', s.pool.get x = some (p, e) → ¬FreedBy act x p e s') : StepOk s act :=
  ⟨_, step_call hcall, h, freesFor_of_frees rfl, freesAll_of_not fun x p e => hnot x p e _⟩

theorem call_ralloc {originMem r : Addr}
    (h : s.pool.ralloc originMem newSize nodeMem dataMem = .ok (pool', r)) :
    call s.pool (.ralloc originMem newSize nodeMem dataMem) = .ok pool' := by
  simp only [call, h, ok_bind]
  rfl

theorem addEntry_fresh (hn : Fresh pool.table.heap nodeMem) (hd : Fresh pool.data dataMem) :
    pool.addEntry newSize nodeMem dataMem (fun _ pool => .ok pool) =
      .ok (pool.added newSize nodeMem dataMem (zeroBytes newSize) pool.copies hn hd, dataMem) :=
  addEntry_ok hn hd rfl

/-- Only a larger block for one of several owners costs a share. -/
theorem ownerEvents_ralloc {originMem : Addr}
    (h : ∀ p e, s.pool.get originMem = some (p, e) → newSize > e.s → e.r = 1) :
    ownerEvents s.pool (.ralloc originMem newSize nodeMem dataMem) = [] := by
  cases hg : s.pool.get originMem with
  | none => simp only [ownerEvents, hg]
  | some r =>
    have hne : ¬ (newSize > r.2.s ∧ r.2.r ≠ 1) := fun hne => hne.2 (h r.1 r.2 hg hne.1)
    simp only [ownerEvents, hg, if_neg hne]

theorem stepOk_ralloc (h : s.Inv) (originMem : Addr) (newSize : UInt64)
    (hn : Fresh s.pool.table.heap nodeMem) (hd : Fresh s.pool.data dataMem) :
    StepOk s (.ralloc originMem newSize nodeMem dataMem) := by
  obtain ⟨pool', r, hok, heffect⟩ := ralloc_effect h.wf originMem newSize nodeMem dataMem
  have hcall := call_ralloc hok
  -- without a block the pool stays, and nobody loses a share
  have hsame (hpool : pool' = s.pool)
      (hnil : ∀ p e, s.pool.get originMem = some (p, e) → ¬newSize > e.s) :
      StepOk s (.ralloc originMem newSize nodeMem dataMem) := by
    have hnot : ∀ x p e s', s.pool.get x = some (p, e) →
        ¬FreedBy (.ralloc originMem newSize nodeMem dataMem) x p e s' := by
      rintro x p e s' hg ⟨rfl, -, hs, -⟩
      exact hnil p e hg hs
    rw [hpool] at hcall
    refine stepOk_same hcall ?_ hnot
    rw [ownerEvents_ralloc fun p e hg hs => absurd hs (hnil p e hg)]
    exact h
  cases heffect with
  | zero hz => exact hsame rfl fun _ e _ => by rw [hz]; exact UInt64.not_lt_zero
  | unknown _ hnone => exact hsame rfl fun p e hg => nomatch hnone.symm.trans hg
  | fits _ hg hle =>
    refine hsame rfl fun p' e' hg' => ?_
    cases hg.symm.trans hg'
    exact hle
  | added hn hd _ ho =>
    have hnone : s.pool.get originMem = none := ho ▸ get_null h.wf
    refine stepOk_added (ownerEvents_ralloc fun p e hg => ?_) h rfl hn hd hcall ?_
    · cases hnone.symm.trans hg
    · rintro x p e s' hg ⟨rfl, -⟩
      cases hnone.symm.trans hg
  | addFailed _ _ hfail => exact absurd ⟨hn, hd⟩ hfail
  | @grown p e src b hd hb hg hs hr _ hcell =>
    have hev : ownerEvents s.pool (.ralloc originMem newSize nodeMem dataMem) = [] := by
      refine ownerEvents_ralloc fun p' e' hg' _ => ?_
      cases hg.symm.trans hg'
      exact hr
    refine ⟨_, step_call hcall, ?_, ?_, freesAll_of_drop hcell rfl ?_⟩
    · rw [hev]
      exact h.grown hg hd
    rotate_left
    · rintro y q f ⟨rfl, -⟩
      rfl
    -- the block under the old key is freed, and the entry lives on under the new one
    · refine freesFor_of_drop hcell hg rfl
        ⟨rfl, hr, hs, dataMem, { e with m := dataMem, s := newSize }, ?_, hr, rfl⟩
      exact (get_grown _ _ _ h.wf hg hd _ _ _).trans (if_pos rfl)
  | growFailed _ _ _ hfail => exact absurd hd hfail
  | @shared p e src hn' hd' hg hs hr =>
    have ht := shared_touched h.wf hg
    have hev : ownerEvents s.pool (.ralloc originMem newSize nodeMem dataMem) =
        [.gaveUp p.birth] := by
      simp [ownerEvents, hg, hr, hs]
    -- the share is given up before the allocations: the invariant holds in between
    have hinv : Inv ⟨s.pool.shared p.addr e, .gaveUp p.birth :: s.hist⟩ := by
      refine h.touched hg ht rfl ?_
      rw [toNat_givenUp, h.count _ p e hg]
      exact (if_pos rfl).symm
    refine stepOk_added hev hinv ht.data hn' hd' hcall ?_
    rintro x q f s' hx ⟨rfl, hone, -⟩
    cases hg.symm.trans hx
    exact hr hone
  | shareFailed _ _ _ hfail => exact absurd ⟨hn, hd⟩ hfail

theorem stepOk_alloc (h : s.Inv) (newSize : UInt64)
    (hn : Fresh s.pool.table.heap nodeMem) (hd : Fresh s.pool.data dataMem) :
    StepOk s (.alloc newSize nodeMem dataMem) := by
  have hnull : s.pool.get NULL = none := get_null h.wf
  by_cases hz : newSize = 0
  · subst hz
    refine stepOk_same ?_ h fun _ _ _ _ _ hby => hby
    simp only [call, Pool.alloc, ralloc_zero, ok_bind]
    rfl
  · have hcase := ralloc_none nodeMem dataMem hz hnull
    rw [if_neg (fun hne => hne rfl), addEntry_fresh hn hd] at hcase
    have hcall : call s.pool (.alloc newSize nodeMem dataMem) =
        .ok (s.pool.added newSize nodeMem dataMem (zeroBytes newSize) s.pool.copies hn hd) := by
      simp only [call, Pool.alloc, hcase, ok_bind]
      rfl
    exact stepOk_added rfl h rfl hn hd hcall fun _ _ _ _ _ hby => hby

theorem stepOk_retain (h : s.Inv) (ha : Allowed s (.retain a)) : StepOk s (.retain a) := by
  cases hg : s.pool.get a with
  | none =>
    refine stepOk_same (by simp only [call, retain_none hg, ok_bind]; rfl) ?_
      fun _ _ _ _ _ hby => hby
    simp only [ownerEvents, hg, Option.elim]
    exact h
  | some r =>
    obtain ⟨p, e⟩ := r
    have hlt := ha p e hg
    have hcall : call s.pool (.retain a) =
        .ok { s.pool with table := s.pool.table.store p.addr { e with r := e.r + 1 } } := by
      simp only [call, retain_some hg, ok_bind]
      rfl
    refine ⟨_, step_call hcall, ?_, freesFor_of_frees (by rfl),
      freesAll_of_not fun _ _ _ _ hby => hby⟩
    simp only [ownerEvents, hg, Option.elim]
    refine h.touched hg (touched { e with r := e.r + 1 } h.wf hg rfl) rfl ?_
    have hone : (1 : UInt64).toNat = 1 := rfl
    rw [UInt64.toNat_add, hone, Nat.mod_eq_of_lt hlt, h.count a p e hg]
    exact (if_pos rfl).symm

/-- `mgn_mem_release` and `mgn_mem_autorelease`, which differ in what the last one does. -/
theorem stepOk_release (h : s.Inv) {act : Act} {last : Bool}
    (hcall : call s.pool act = s.pool.release_ a last)
    (hev : ownerEvents s.pool act = (s.pool.get a).elim [] fun r => [.gaveUp r.1.birth])
    (hby : ∀ x p e s', FreedBy act x p e s' ↔ last = true ∧ a = x ∧ e.r = 1) : StepOk s act := by
  cases hg : s.pool.get a with
  | none =>
    rw [hg] at hev
    refine stepOk_same (hcall.trans (release_none hg)) ?_ fun x p e s' hx hfreed => ?_
    · rw [hev]
      exact h
    · obtain ⟨-, rfl, -⟩ := (hby x p e s').mp hfreed
      cases hg.symm.trans hx
  | some r =>
    obtain ⟨p, e⟩ := r
    rw [hg] at hev
    have hcount : owners p.birth (.gaveUp p.birth :: s.hist) = e.r.toNat - 1 := by
      rw [h.count a p e hg]
      exact if_pos rfl
    by_cases hz : e.r = 0
    -- the count stays at zero, and so do the owners, however many give up
    · refine stepOk_same (hcall.trans (release_zero hg hz)) ?_ fun x q f s' hx hfreed => ?_
      · rw [hev]
        refine h.touched hg (touched_self h.wf hg) rfl ?_
        rw [hcount, hz]
        rfl
      · obtain ⟨-, rfl, hone⟩ := (hby x q f s').mp hfreed
        cases hg.symm.trans hx
        rw [hz] at hone
        exact absurd hone (by decide)
    · have hsub := toNat_sub_one hz
      obtain ⟨pool', hrel, hcase⟩ := release_some last h.wf hg hz
      have hstep := step_call (hcall.trans hrel)
      have htouched : ∀ {pool₁ : Pool}, Touched s.pool pool₁ a p { e with r := e.r - 1 } →
          Inv ⟨pool₁, .gaveUp p.birth :: s.hist⟩ :=
        fun ht => h.touched hg ht rfl (hsub.trans hcount.symm)
      rw [hev] at hstep
      split at hcase
      · next hlast =>
        obtain ⟨pool₁, ht, hremoved⟩ := hcase
        obtain ⟨b, hb, hdata⟩ := hremoved.data
        have hb' : s.pool.data.cells a = some b := by
          rw [← ht.data]
          exact hb
        have hfrees : pool'.data.frees = b.birth :: s.pool.data.frees := by
          rw [hdata, ← ht.data]
          rfl
        refine ⟨_, hstep, (htouched ht).purged hremoved.purged,
          freesFor_of_drop hb' hg hfrees ((hby a p e _).mpr ⟨hlast.2, rfl, hlast.1⟩),
          freesAll_of_drop hb' hfrees fun y q f hfreed => ?_⟩
        exact ((hby y q f _).mp hfreed).2.1.symm
      · next hnot =>
        refine ⟨_, hstep, htouched hcase, freesFor_of_frees ?_,
          freesAll_of_not fun x q f hx hfreed => ?_⟩
        · rw [hcase.data]
        · obtain ⟨hlast, rfl, hone⟩ := (hby x q f _).mp hfreed
          cases hg.symm.trans hx
          exact hnot ⟨hone, hlast⟩

theorem step_ok (h : s.Inv) (act : Act) (ha : Allowed s act) : StepOk s act := by
  cases act with
  | ralloc originMem newSize nodeMem dataMem => exact stepOk_ralloc h originMem newSize ha.1 ha.2
  | alloc newSize nodeMem dataMem => exact stepOk_alloc h newSize ha.1 ha.2
  | retain originMem => exact stepOk_retain h ha
  | release originMem => exact stepOk_release h rfl rfl fun _ _ _ _ => (and_iff_right rfl).symm
  | autorelease originMem =>
    exact stepOk_release h rfl rfl fun _ _ _ _ => iff_of_false id fun h => by cases h.1
  | releaseUnused =>
    obtain ⟨pool', hok, hp⟩ := purge_ok (fun e => decide (e.r = 0)) h.wf
    have hcall : call s.pool .releaseUnused = .ok pool' := hok
    have hby : ∀ x p e s', decide (e.r = 0) = true ↔ FreedBy .releaseUnused x p e s' :=
      fun _ _ _ _ => decide_eq_true_iff
    exact ⟨_, step_call hcall, h.purged hp,
      freesFor_of_purged h hp fun x p e => (hby x p e _).mp,
      freesAll_of_purged hp fun x p e => (hby x p e _).mpr⟩
  | releaseAll =>
    obtain ⟨pool', hok, hp⟩ := purge_ok (fun _ => true) h.wf
    have hcall : call s.pool .releaseAll = .ok pool' := hok
    exact ⟨_, step_call hcall, h.purged hp, freesFor_of_purged h hp fun _ _ _ _ => trivial,
      freesAll_of_purged hp fun _ _ _ _ => rfl⟩

end PoolRun

end ShellJs
