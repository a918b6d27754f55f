import ShellJs.Pool.Capacity

/-!
# Ownership on blocks that end

`plat_mem_copy` copies as many bytes as it is told to. What lies behind a block is not the
pool's, and may be one of its entries, so here a copy that leaves one of its two blocks is a
fault.

* `heapStep`: the calls with this fault.
* `CopyFits`: the bytes that a growth copies fit into its new block.
* `Ownership`: the keys, the counts and the frees of a state, and what the next call frees.
* `pool_ownership`: a run whose allocations succeed gets to its end, and to such a state,
  exactly when every copy of it fits.
* `growth_overruns`: a growth by 2^32 bytes ends the run.
-/

namespace ShellJs

open Runs Pool

/-- The copy reads and writes within its blocks. -/
def BlockCopy.Inside (c : BlockCopy) : Prop :=
  platMemSize c.size ≤ c.src ∧ platMemSize c.size ≤ c.dest

instance (c : BlockCopy) : Decidable c.Inside := inferInstanceAs (Decidable (_ ∧ _))

namespace PoolRun

/-- A call on a heap whose blocks end. -/
def heapStep (s : PoolRun) (a : Act) : Except Fault PoolRun := do
  let s ← step s a
  if ∀ c ∈ s.pool.copies, c.Inside then return s else .error .outOfBounds

/-- The bytes of a block that is to grow fit into the new one, as `uint`s. -/
def CopyFits (s : PoolRun) : Act → Prop
  | .ralloc originMem newSize _ _ => ∀ p e, s.pool.get originMem = some (p, e) →
    newSize > e.s → platMemSize e.s ≤ platMemSize newSize
  | _ => True

/-- What the pool owes its callers:

* no two entries have one key, and the keys are exactly the addresses of the allocated data
  blocks, each its entry's `m`, none `NULL`;
* every retained count is one, plus the retains of the entry, minus its give-ups while it had
  an owner;
* every data block was freed once if it is not allocated any more, and never if it is;
* the next call frees the data block of an entry exactly as the release of the last owner, as
  `mgn_mem_release_unused` of an entry without owners, as `mgn_mem_release_all`, or as the
  growth of a sole owner's block, whose entry lives on with its new block. -/
structure Ownership (s : PoolRun) : Prop where
  keys : ∀ n ∈ s.pool.table.chain, ∀ n' ∈ s.pool.table.chain,
    s.pool.table.keyAt MgnMemory.m n = s.pool.table.keyAt MgnMemory.m n' → n = n'
  key : ∀ x p e, s.pool.get x = some (p, e) → e.m = x ∧ x ≠ NULL
  blocks : ∀ x, s.pool.get x ≠ none ↔ s.pool.data.cells x ≠ none
  count : ∀ x p e, s.pool.get x = some (p, e) → e.r.toNat = owners p.birth s.hist
  once : s.pool.data.frees.Nodup
  freed : ∀ k, k ∈ s.pool.data.frees ↔
    k < s.pool.data.next ∧ ∀ x b, s.pool.data.cells x = some b → b.birth ≠ k
  next : ∀ a, Allowed s a → CopyFits s a →
    ∃ s', heapStep s a = .ok s' ∧ FreesFor s a s' ∧ FreesAll s a s'

/-- What holds in every state of such a run. -/
structure Sound (s : PoolRun) : Prop where
  inv : s.Inv
  sized : s.pool.Sized
  inside : ∀ c ∈ s.pool.copies, c.Inside

variable {s s' : PoolRun} {pool' : Pool} {a : Act} {p : Ptr} {e : MgnMemory} {src : List UInt8}
  {originMem nodeMem dataMem : Addr} {newSize : UInt64}

theorem sound_init : init.Sound :=
  ⟨inv_init, (fun _ _ _ _ h => nomatch h), fun _ h => nomatch h⟩

/-! ## The copies of a call -/

/-- The source has the bytes that are copied, so the copy is inside when the new block has them. -/
theorem inside_copy_iff (h : s.Sound) (hg : s.pool.get originMem = some (p, e))
    (hsrc : s.pool.data.read originMem = some src) :
    (∀ c ∈ ⟨(zeroBytes newSize).length, src.length, e.s⟩ :: s.pool.copies, c.Inside) ↔
      platMemSize e.s ≤ platMemSize newSize := by
  rw [List.forall_mem_cons, BlockCopy.Inside, length_zeroBytes, h.sized originMem p e src hg hsrc]
  exact ⟨fun hc => hc.1.2, fun hle => ⟨⟨Nat.le_refl _, hle⟩, h.inside⟩⟩

theorem copyFits_iff (hg : s.pool.get originMem = some (p, e)) (hs : newSize > e.s) :
    CopyFits s (.ralloc originMem newSize nodeMem dataMem) ↔
      platMemSize e.s ≤ platMemSize newSize := by
  refine ⟨fun h => h p e hg hs, fun h q f hg' _ => ?_⟩
  cases hg.symm.trans hg'
  exact h

theorem inside_ralloc_iff {r : Addr} (h : s.Sound)
    (ha : Allowed s (.ralloc originMem newSize nodeMem dataMem))
    (heff : RallocEffect s.pool originMem newSize nodeMem dataMem pool' r) :
    (∀ c ∈ pool'.copies, c.Inside) ↔
      CopyFits s (.ralloc originMem newSize nodeMem dataMem) := by
  -- without a growth there is no copy
  have hsame (hcopies : pool'.copies = s.pool.copies)
      (hnot : ∀ p e, s.pool.get originMem = some (p, e) → ¬newSize > e.s) :
      (∀ c ∈ pool'.copies, c.Inside) ↔
        CopyFits s (.ralloc originMem newSize nodeMem dataMem) := by
    rw [hcopies]
    exact iff_of_true h.inside fun p e hg hs => absurd hs (hnot p e hg)
  cases heff with
  | zero hz => exact hsame rfl fun _ _ _ => by rw [hz]; exact UInt64.not_lt_zero
  | unknown _ hnone => exact hsame rfl fun p e hg => nomatch hnone.symm.trans hg
  | fits _ hg hle =>
    refine hsame rfl fun q f hg' => ?_
    cases hg.symm.trans hg'
    exact hle
  | added hn hd _ ho =>
    have hnone : s.pool.get originMem = none := ho ▸ get_null h.inv.wf
    exact hsame rfl fun p e hg => nomatch hnone.symm.trans hg
  | addFailed _ _ hfail => exact absurd ha hfail
  | grown hd hb hg hs hr hsrc => exact (inside_copy_iff h hg hsrc).trans (copyFits_iff hg hs).symm
  | growFailed _ _ _ hfail => exact absurd ha.2 hfail
  | shared hn hd hg hs hr hsrc => exact (inside_copy_iff h hg hsrc).trans (copyFits_iff hg hs).symm
  | shareFailed _ _ _ hfail => exact absurd ha hfail

/-- The copies of a call stay inside exactly when its growth fits. -/
theorem inside_iff (h : s.Sound) (ha : Allowed s a) (hs : step s a = .ok s') :
    (∀ c ∈ s'.pool.copies, c.Inside) ↔ CopyFits s a := by
  obtain ⟨pool', hcall, hs⟩ := bind_eq_ok.mp hs
  cases hs
  have hsame (hcopies : pool'.copies = s.pool.copies) (hfits : CopyFits s a) :
      (∀ c ∈ pool'.copies, c.Inside) ↔ CopyFits s a := by
    rw [hcopies]
    exact iff_of_true h.inside hfits
  cases a with
  | ralloc originMem newSize nodeMem dataMem =>
    obtain ⟨pool₁, r, hok, heff⟩ := ralloc_effect h.inv.wf originMem newSize nodeMem dataMem
    cases (call_ralloc hok).symm.trans hcall
    exact inside_ralloc_iff h ha heff
  | alloc newSize nodeMem dataMem =>
    obtain ⟨pool₁, r, hok, heff⟩ := ralloc_effect h.inv.wf NULL newSize nodeMem dataMem
    cases (call_ralloc hok).symm.trans hcall
    have hnone := get_null h.inv.wf
    refine (inside_ralloc_iff h ha heff).trans (iff_of_true (fun p e hg => ?_) trivial)
    cases hnone.symm.trans hg
  | retain originMem =>
    refine hsame ?_ trivial
    obtain ⟨pool₁, hok, hsizes⟩ := call_sizes h.inv.wf (.retain originMem)
    cases hok.symm.trans hcall
    rcases hsizes with ⟨-, hcopies, -⟩ | ⟨n, x, hreq, -⟩
    · exact hcopies
    · cases hreq
  | release originMem => exact hsame (release_copies hcall) trivial
  | autorelease originMem => exact hsame (release_copies hcall) trivial
  | releaseUnused => exact hsame (purgeLoop_copies hcall) trivial
  | releaseAll => exact hsame (purgeLoop_copies hcall) trivial

/-! ## One step -/

theorem heapStep_eq_ok :
    heapStep s a = .ok s' ↔ step s a = .ok s' ∧ ∀ c ∈ s'.pool.copies, c.Inside := by
  rw [heapStep, bind_eq_ok]
  constructor
  · rintro ⟨s₁, hs₁, h⟩
    split at h
    · next hin =>
      cases h
      exact ⟨hs₁, hin⟩
    · cases h
  · rintro ⟨hs, hin⟩
    exact ⟨s', hs, if_pos hin⟩

theorem heapStep_ok (h : s.Sound) (ha : Allowed s a) (hf : CopyFits s a) :
    ∃ s', heapStep s a = .ok s' ∧ s'.Sound ∧ FreesFor s a s' ∧ FreesAll s a s' := by
  obtain ⟨s', hs, hinv, hfor, hall⟩ := step_ok h.inv a ha
  have hin := (inside_iff h ha hs).mpr hf
  exact ⟨s', heapStep_eq_ok.mpr ⟨hs, hin⟩,
    ⟨hinv, (sized_step s a s' ⟨h.inv.wf, h.sized⟩ hs).2, hin⟩, hfor, hall⟩

theorem heapStep_iff (h : s.Sound) (ha : Allowed s a) :
    (∃ s', heapStep s a = .ok s') ↔ CopyFits s a := by
  constructor
  · rintro ⟨s', hs⟩
    obtain ⟨hs, hin⟩ := heapStep_eq_ok.mp hs
    exact (inside_iff h ha hs).mp hin
  · intro hf
    obtain ⟨s', hs, -⟩ := heapStep_ok h ha hf
    exact ⟨s', hs⟩

theorem Sound.step (h : s.Sound) (ha : Allowed s a) (hs : heapStep s a = .ok s') : s'.Sound := by
  obtain ⟨s₁, hs₁, h₁, -⟩ := heapStep_ok h ha ((heapStep_iff h ha).mp ⟨s', hs⟩)
  cases hs.symm.trans hs₁
  exact h₁

theorem Sound.ownership (h : s.Sound) : s.Ownership := by
  refine ⟨h.inv.wf.table.keys, fun x p e hg => ⟨m_of_get hg, ?_⟩,
    fun x => ⟨fun hx => ?_, fun hx => ?_⟩, h.inv.count,
    s.pool.data.frees_nodup, s.pool.data.freed_iff, fun a ha hf => ?_⟩
  · obtain ⟨bytes, hb⟩ := h.inv.wf.block x p e hg
    exact Heap.ne_null_of_read hb
  · intro hnone
    exact hx (get_of_free h.inv.wf hnone)
  · obtain ⟨b, hb⟩ := Option.ne_none_iff_exists'.mp hx
    obtain ⟨r, hr⟩ := h.inv.block x b hb
    rw [hr]
    exact Option.some_ne_none r
  · obtain ⟨s', hs, -, hfor, hall⟩ := heapStep_ok h ha hf
    exact ⟨s', hs, hfor, hall⟩

/-! ## Runs -/

/-- A run from the empty pool whose allocations succeed and whose counts stay below 2^64 gets to
its end, and to a state with `Ownership`, exactly when at each of its growths the bytes that are
copied fit into the new block. -/
theorem pool_ownership (acts : List Act) (hallowed : Along heapStep Allowed init acts) :
    (∃ s, exec heapStep init acts = .ok s ∧ s.Ownership) ↔ Along heapStep CopyFits init acts := by
  rw [← exec_ok_iff Sound (fun s a h ha => heapStep_iff h ha) (fun s a s' h ha hs => h.step ha hs)
    sound_init hallowed]
  constructor
  · rintro ⟨s, hs, -⟩
    exact ⟨s, hs, exec_invariant (fun s a s' h ha hs => h.step ha hs) sound_init hallowed hs⟩
  · rintro ⟨s, hs, h⟩
    exact ⟨s, hs, h.ownership⟩

/-- Two owners of a block, one of whom gets a larger one; both give up in the end. -/
def twoOwners : List Act :=
  [.alloc 8 16 16, .retain 16, .ralloc 16 24 32 32, .release 16, .autorelease 32, .release 99,
    .releaseUnused]

theorem pool_ownership_twoOwners :
    ∃ s, exec heapStep init twoOwners = .ok s ∧ s.Ownership ∧ s.pool.table.chain = [] ∧
      s.pool.data.frees = [1, 0] := by
  have hallowed : Along heapStep Allowed init twoOwners := by
    refine ⟨⟨⟨by decide, rfl⟩, by decide, rfl⟩, fun s hs => ?_⟩
    cases hs
    refine ⟨fun p e hg => ?_, fun s hs => ?_⟩
    · cases hg
      decide
    · cases hs
      refine ⟨⟨⟨by decide, rfl⟩, by decide, rfl⟩, fun s hs => ?_⟩
      exact ⟨trivial, fun _ _ => ⟨trivial, fun _ _ => ⟨trivial, fun _ _ => ⟨trivial, fun _ _ =>
        trivial⟩⟩⟩⟩
  have hfits : Along heapStep CopyFits init twoOwners := by
    refine ⟨trivial, fun s hs => ?_⟩
    cases hs
    refine ⟨trivial, fun s hs => ?_⟩
    cases hs
    refine ⟨fun p e hg _ => ?_, fun s hs => ?_⟩
    · cases hg
      decide
    · exact ⟨trivial, fun _ _ => ⟨trivial, fun _ _ => ⟨trivial, fun _ _ => ⟨trivial, fun _ _ =>
        trivial⟩⟩⟩⟩
  obtain ⟨s, hs, h⟩ := (pool_ownership twoOwners hallowed).mpr hfits
  have hrun : ∃ s, exec heapStep init twoOwners = .ok s ∧ s.pool.table.chain = [] ∧
      s.pool.data.frees = [1, 0] := ⟨_, rfl, rfl, rfl⟩
  obtain ⟨s', hs', hchain, hfrees⟩ := hrun
  cases hs.symm.trans hs'
  exact ⟨s, hs, h, hchain, hfrees⟩

/-- A growth by 2^32 bytes: 64 bytes are copied into a block of 8. -/
theorem growth_overruns :
    Along heapStep Allowed init [.alloc 64 16 16, .ralloc 16 4294967304 32 32] ∧
      exec heapStep init [.alloc 64 16 16, .ralloc 16 4294967304 32 32] =
        .error .outOfBounds := by
  refine ⟨⟨⟨⟨by decide, rfl⟩, by decide, rfl⟩, fun s hs => ?_⟩, rfl⟩
  cases hs
  exact ⟨⟨⟨by decide, rfl⟩, by decide, rfl⟩, fun _ _ => trivial⟩

end PoolRun

end ShellJs
