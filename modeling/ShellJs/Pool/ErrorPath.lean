import ShellJs.Pool.Ownership

/-!
# Failed allocations in the pool

`mgn_mem_ralloc` reports a failed allocation by `NULL`. On some of these paths it has
already changed the pool.

* `Lossy`: a growth whose allocation fails, of a block with at least one owner.
* `Outcome`, `ralloc_cases`: what a call answers, and when it leaves the pool as it was.
* `ralloc_atomic_iff`: in every reachable pool, the error path is atomic exactly when the
  call is not lossy.
-/

namespace ShellJs

namespace Pool

/-- A `NULL` means that the pool is as it was. -/
def Atomic (pool : Pool) (r : Except Fault (Pool × Addr)) : Prop :=
  ∀ pool', r = .ok (pool', NULL) → SamePool pool pool'

/-- The block has an owner, it would have to grow, and an allocation for that fails: the
one of the new block for a sole owner, that of the new block or of its entry otherwise. -/
def Lossy (pool : Pool) (originMem : Addr) (newSize : UInt64) (nodeMem dataMem : Addr) : Prop :=
  ∃ p e, pool.get originMem = some (p, e) ∧ newSize > e.s ∧
    ((e.r = 1 ∧ ¬ Fresh pool.data dataMem) ∨
      (e.r > 1 ∧ ¬ (Fresh pool.table.heap nodeMem ∧ Fresh pool.data dataMem)))

variable {pool pool' : Pool} {a x : Addr} {p : Ptr} {e : MgnMemory} {newSize : UInt64}
  {nodeMem dataMem originMem : Addr}

/-- A failed growth of a sole owner's block has taken its entry out of the table. -/
theorem not_samePool_unlink (hg : pool.get a = some (p, e)) :
    ¬ SamePool pool { pool with table := pool.table.unlink p.addr } := by
  intro h
  have hlen := congrArg List.length h.chain
  have hmem := mem_of_get hg
  rw [show Table.chain (pool.table.unlink p.addr) = pool.table.chain.erase p.addr from rfl,
    List.length_erase_of_mem hmem] at hlen
  have hpos := List.length_pos_of_mem hmem
  omega

/-- A failed growth of a shared block has taken one from its count. -/
theorem not_samePool_shared (hg : pool.get a = some (p, e)) (hr : e.r > 0)
    (h : SamePool (pool.shared p.addr e) pool') : ¬ SamePool pool pool' := by
  intro h'
  obtain ⟨-, hread⟩ := find_of_get hg
  have hsame : (pool.shared p.addr e).table.heap.read p.addr = pool.table.heap.read p.addr := by
    rw [Heap.read, Heap.read, ← h.entries, h'.entries]
  rw [shared, if_pos hr, hread] at hsame
  have hstored : (pool.table.store p.addr { e with r := e.r - 1 }).heap.read p.addr =
      some { e with r := e.r - 1 } := Table.read_store_self hread
  rw [hstored] at hsame
  have hr' : e.r - 1 = e.r := congrArg MgnMemory.r (Option.some.inj hsame)
  have hone : e.r - 1 = e.r - 0 := by rw [hr', UInt64.sub_zero]
  exact absurd ((UInt64.sub_right_inj e.r).mp hone) (by decide)

/-- The answer of a call: `NULL` with the pool as it was or with a loss, or a block. -/
def Outcome (pool : Pool) (originMem : Addr) (newSize : UInt64) (nodeMem dataMem : Addr)
    (pool' : Pool) (r : Addr) : Prop :=
  pool'.WF ∧ (Lossy pool originMem newSize nodeMem dataMem → r = NULL ∧ ¬ SamePool pool pool') ∧
    (¬ Lossy pool originMem newSize nodeMem dataMem → r = NULL → SamePool pool pool')

theorem outcome_same {r : Addr} (hw : pool.WF) (hs : SamePool pool pool')
    (hl : ¬ Lossy pool originMem newSize nodeMem dataMem) :
    Outcome pool originMem newSize nodeMem dataMem pool' r :=
  ⟨wf_congr hs hw, fun h => absurd h hl, fun _ _ => hs⟩

theorem outcome_block {r : Addr} (hw : pool'.WF) (hr : r ≠ NULL)
    (hl : ¬ Lossy pool originMem newSize nodeMem dataMem) :
    Outcome pool originMem newSize nodeMem dataMem pool' r :=
  ⟨hw, fun h => absurd h hl, fun _ h => absurd h hr⟩

theorem outcome_lossy (hw : pool'.WF) (hn : ¬ SamePool pool pool')
    (hl : Lossy pool originMem newSize nodeMem dataMem) :
    Outcome pool originMem newSize nodeMem dataMem pool' NULL :=
  ⟨hw, fun _ => ⟨rfl, hn⟩, fun h => absurd hl h⟩

theorem lossy_iff (hg : pool.get originMem = some (p, e)) (hs : newSize > e.s) :
    Lossy pool originMem newSize nodeMem dataMem ↔
      (e.r = 1 ∧ ¬ Fresh pool.data dataMem) ∨
        (e.r > 1 ∧ ¬ (Fresh pool.table.heap nodeMem ∧ Fresh pool.data dataMem)) := by
  constructor
  · rintro ⟨q, f, hg', -, hl⟩
    rw [hg] at hg'
    cases hg'
    exact hl
  · intro hl
    exact ⟨p, e, hg, hs, hl⟩

theorem gt_one {r : UInt64} (hz : r > 0) (ho : r ≠ 1) : r > 1 := by
  have hz' : 0 < r.toNat := UInt64.lt_iff_toNat_lt.mp hz
  have ho' : r.toNat ≠ 1 := fun h => ho (UInt64.toNat_inj.mp h)
  refine UInt64.lt_iff_toNat_lt.mpr ?_
  show 1 < r.toNat
  omega

theorem not_lossy_of_get_none (hg : pool.get originMem = none) :
    ¬ Lossy pool originMem newSize nodeMem dataMem := by
  rintro ⟨p, e, hg', -⟩
  rw [hg] at hg'
  cases hg'

/-- `mgn_mem_alloc` names no entry, so it has none to lose. -/
theorem not_lossy_null (hw : pool.WF) : ¬ Lossy pool NULL newSize nodeMem dataMem :=
  not_lossy_of_get_none (get_of_free hw pool.data.null_free)

theorem RallocEffect.outcome {r : Addr} (hw : pool.WF)
    (h : RallocEffect pool originMem newSize nodeMem dataMem pool' r) :
    Outcome pool originMem newSize nodeMem dataMem pool' r := by
  cases h with
  | zero hz =>
    refine outcome_same hw samePool_refl ?_
    rintro ⟨p, e, -, hs, -⟩
    rw [hz] at hs
    exact UInt64.not_lt_zero hs
  | unknown hz hg ho => exact outcome_same hw samePool_refl (not_lossy_of_get_none hg)
  | fits hz hg hs =>
    refine outcome_same hw samePool_refl ?_
    rintro ⟨q, f, hg', hs', -⟩
    rw [hg] at hg'
    cases hg'
    exact hs hs'
  | added hn hd hz ho =>
    subst ho
    exact outcome_block (wf_added hw hn hd) hd.1 (not_lossy_null hw)
  | addFailed hz ho hfail hchain hcells =>
    subst ho
    exact outcome_same hw ⟨hchain, hcells, rfl⟩ (not_lossy_null hw)
  | grown hd hb hg hs hr hsrc hcell =>
    refine outcome_block (wf_grown hw hg hd) hd.1 ?_
    rw [lossy_iff hg hs, hr]
    rintro (⟨-, hn⟩ | ⟨hgt, -⟩)
    · exact hn hd
    · exact absurd hgt (by decide)
  | growFailed hg hs hr hfail =>
    exact outcome_lossy (wf_unlink hw hg) (not_samePool_unlink hg)
      ((lossy_iff hg hs).mpr (.inl ⟨hr, hfail⟩))
  | shared hn hd hg hs hr hsrc =>
    have ht := shared_touched hw hg
    refine outcome_block (wf_added ht.wf hn hd) hd.1 ?_
    rw [lossy_iff hg hs, ← ht.data]
    rintro (⟨hone, -⟩ | ⟨-, hfail⟩)
    · exact hr hone
    · exact hfail ⟨fresh_shared.mp hn, hd⟩
  | @shareFailed p e table hg hs hr hfail hchain hcells =>
    have hsame : SamePool (pool.shared p.addr e) { pool.shared p.addr e with table := table } :=
      ⟨hchain, hcells, rfl⟩
    by_cases hz : e.r > 0
    · exact outcome_lossy (wf_congr hsame (shared_touched hw hg).wf)
        (not_samePool_shared hg hz hsame) ((lossy_iff hg hs).mpr (.inr ⟨gt_one hz hr, hfail⟩))
    -- a count of zero is not taken down, so there is no share to lose
    · have hshared : pool.shared p.addr e = pool := if_neg hz
      rw [hshared] at hsame ⊢
      refine outcome_same hw hsame ?_
      rw [lossy_iff hg hs]
      rintro (⟨hone, -⟩ | ⟨hgt, -⟩)
      · exact hr hone
      · exact hz (UInt64.lt_trans (by decide) hgt)

/-- Every call answers, whatever the allocator does. -/
theorem ralloc_cases (hw : pool.WF) (originMem : Addr) (newSize : UInt64) (nodeMem dataMem : Addr) :
    ∃ pool' r, pool.ralloc originMem newSize nodeMem dataMem = .ok (pool', r) ∧
      Outcome pool originMem newSize nodeMem dataMem pool' r := by
  obtain ⟨pool', r, hok, heffect⟩ := ralloc_effect hw originMem newSize nodeMem dataMem
  exact ⟨pool', r, hok, heffect.outcome hw⟩

theorem atomic_iff (hw : pool.WF) :
    pool.Atomic (pool.ralloc originMem newSize nodeMem dataMem) ↔
      ¬ Lossy pool originMem newSize nodeMem dataMem := by
  obtain ⟨pool', r, hok, -, hlossy, hsame⟩ := ralloc_cases hw originMem newSize nodeMem dataMem
  constructor
  · intro ha hl
    obtain ⟨rfl, hn⟩ := hlossy hl
    exact hn (ha pool' hok)
  · intro hl pool'' hok'
    rw [hok] at hok'
    cases hok'
    exact hsame hl rfl

end Pool

namespace PoolRun

open Runs Pool

variable {s s' : PoolRun}

theorem wf_release {a : Addr} {last : Bool} {pool : Pool} (hw : s.pool.WF)
    (h : s.pool.release_ a last = .ok pool) : pool.WF := by
  cases hg : s.pool.get a with
  | none =>
    rw [release_none hg] at h
    cases h
    exact hw
  | some r =>
    obtain ⟨p, e⟩ := r
    by_cases hz : e.r = 0
    · rw [release_zero hg hz] at h
      cases h
      exact hw
    · obtain ⟨pool', hrel, hcase⟩ := release_some last hw hg hz
      rw [hrel] at h
      cases h
      split at hcase
      · obtain ⟨pool₁, -, hremoved⟩ := hcase
        exact hremoved.wf
      · exact hcase.wf

/-- Any call with any answers of the allocator keeps the pool well formed. -/
theorem wf_call {a : Act} {pool : Pool} (hw : s.pool.WF) (h : call s.pool a = .ok pool) :
    pool.WF := by
  cases a with
  | ralloc originMem newSize nodeMem dataMem =>
    obtain ⟨pool', r, hok, hw', -⟩ := ralloc_cases hw originMem newSize nodeMem dataMem
    simp only [call, hok, ok_bind] at h
    cases h
    exact hw'
  | alloc newSize nodeMem dataMem =>
    obtain ⟨pool', r, hok, hw', -⟩ := ralloc_cases hw NULL newSize nodeMem dataMem
    simp only [call, Pool.alloc, hok, ok_bind] at h
    cases h
    exact hw'
  | retain originMem =>
    cases hg : s.pool.get originMem with
    | none =>
      simp only [call, retain_none hg, ok_bind] at h
      cases h
      exact hw
    | some r =>
      simp only [call, retain_some hg, ok_bind] at h
      cases h
      exact (touched { r.2 with r := r.2.r + 1 } hw hg rfl).wf
  | release originMem => exact wf_release hw h
  | autorelease originMem => exact wf_release hw h
  | releaseUnused =>
    obtain ⟨pool', hok, hp⟩ := purge_ok (fun e => decide (e.r = 0)) hw
    have hcall : call s.pool .releaseUnused = .ok pool' := hok
    rw [hcall] at h
    cases h
    exact hp.wf
  | releaseAll =>
    obtain ⟨pool', hok, hp⟩ := purge_ok (fun _ => true) hw
    have hcall : call s.pool .releaseAll = .ok pool' := hok
    rw [hcall] at h
    cases h
    exact hp.wf

theorem wf_step (s : PoolRun) (a : Act) (s' : PoolRun) (hw : s.pool.WF) (h : step s a = .ok s') :
    s'.pool.WF := by
  obtain ⟨pool, hcall, hs⟩ := bind_eq_ok.mp h
  cases hs
  exact wf_call hw hcall

/-- In every pool that any calls with any answers of the allocator reach: a `NULL` of
`mgn_mem_ralloc` means that the pool is as it was exactly when the call does not lose a
share, and a `NULL` of `mgn_mem_alloc` always does. -/
theorem ralloc_atomic_iff (acts : List Act) (s : PoolRun) (hreach : exec step init acts = .ok s) :
    (∀ originMem newSize nodeMem dataMem,
      s.pool.Atomic (s.pool.ralloc originMem newSize nodeMem dataMem) ↔
        ¬ s.pool.Lossy originMem newSize nodeMem dataMem) ∧
      ∀ newSize nodeMem dataMem, s.pool.Atomic (s.pool.alloc newSize nodeMem dataMem) := by
  have hw : s.pool.WF := exec_keeps (fun s => s.pool.WF) wf_step wf_empty hreach
  exact ⟨fun _ _ _ _ => atomic_iff hw, fun _ _ _ => (atomic_iff hw).mpr (not_lossy_null hw)⟩

/-- The growth of a block without owners fails, and nothing is lost. -/
theorem ralloc_atomic_iff_autoreleased :
    ∃ s pool', exec step init [.alloc 8 16 16, .autorelease 16] = .ok s ∧
      s.pool.ralloc 16 16 32 NULL = .ok (pool', NULL) ∧ SamePool s.pool pool' := by
  have hs : ∃ s p pool', exec step init [.alloc 8 16 16, .autorelease 16] = .ok s ∧
      s.pool.get 16 = some (p, ⟨16, 8, 0⟩) ∧ s.pool.ralloc 16 16 32 NULL = .ok (pool', NULL) :=
    ⟨_, _, _, rfl, rfl, rfl⟩
  obtain ⟨s, p, pool', hs, hg, hcall⟩ := hs
  have hatomic := (ralloc_atomic_iff [.alloc 8 16 16, .autorelease 16] s hs).1 16 16 32 NULL
  refine ⟨s, pool', hs, hcall, hatomic.mpr ?_ pool' hcall⟩
  rw [lossy_iff hg (by decide)]
  exact fun h => h.elim (fun hr => absurd hr.1 (by decide)) fun hr => absurd hr.1 (by decide)

/-- The pool after one allocation of 8 bytes. -/
theorem exec_alloc : ∃ s p, exec step init [.alloc 8 16 16] = .ok s ∧ s.pool.WF ∧
    s.pool.get 16 = some (p, ⟨16, 8, 1⟩) ∧ s.pool.data.read 16 = some (zeroBytes 8) := by
  have hs : ∃ s p, exec step init [.alloc 8 16 16] = .ok s ∧
      s.pool.get 16 = some (p, ⟨16, 8, 1⟩) ∧ s.pool.data.read 16 = some (zeroBytes 8) :=
    ⟨_, _, rfl, rfl, rfl⟩
  obtain ⟨s, p, hs, hg, hr⟩ := hs
  exact ⟨s, p, hs, exec_keeps (fun s => s.pool.WF) wf_step wf_empty hs, hg, hr⟩

/-- A sole owner's growth fails: its entry is gone and its block stays allocated. -/
theorem ralloc_loses_block :
    ∃ s pool', exec step init [.alloc 8 16 16] = .ok s ∧
      s.pool.ralloc 16 16 32 NULL = .ok (pool', NULL) ∧ ¬ SamePool s.pool pool' ∧
      pool'.get 16 = none ∧ pool'.data.read 16 = some (zeroBytes 8) := by
  obtain ⟨s, p, hs, hw, hg, hr⟩ := exec_alloc
  have hcase := ralloc_some 32 NULL (by decide : (16 : UInt64) ≠ 0) hg
  rw [if_pos (by decide), if_pos rfl, rallocSole_oom (fun hd => hd.1 rfl)] at hcase
  refine ⟨s, _, hs, hcase, not_samePool_unlink hg, ?_, hr⟩
  exact (Table.get_unlink hw.table (mem_of_get hg) (find_of_get hg).2).trans (if_pos rfl)

end PoolRun

end ShellJs
