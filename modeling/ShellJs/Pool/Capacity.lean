import ShellJs.Pool.ErrorPath

/-!
# Sizes and blocks of the pool

`mgn_mem_ralloc` records its `size_t` argument in the entry, and gives it to
`plat_mem_allocate` and later to `plat_mem_copy`, whose parameters are `uint`s. From 2^32 on
the recorded size and the block part.

* `Kept`, `Placed`: what a call does to the sizes and the blocks. It leaves them alone, or
  puts one new block into the pool.
* `call_sizes`: which of the two, from the size that the call has to allocate.
* `Sized`: every block has the bytes that its recorded size asks `plat_mem_allocate` for.
* `Capacity`: no recorded size exceeds its block, and every copy stayed within its blocks.
* `capacity_iff`: a run whose allocations succeed keeps `Capacity` exactly when it asks for
  no block of 2^32 bytes or more.
-/

namespace ShellJs

open Runs

namespace Pool

/-- Every entry is an old one with its size and its block. -/
def Kept (pool pool' : Pool) : Prop :=
  ∀ x q f, pool'.get x = some (q, f) →
    ∃ e, pool.get x = some (q, e) ∧ e.s = f.s ∧ pool'.data.read x = pool.data.read x

/-- One entry has a new block of recorded size `newSize`, at `dataMem`; the others are old. -/
structure Placed (pool pool' : Pool) (newSize : UInt64) (dataMem : Addr) : Prop where
  new : ∃ q f bytes, pool'.get dataMem = some (q, f) ∧ f.s = newSize ∧
    pool'.data.read dataMem = some bytes ∧ bytes.length = platMemSize newSize
  old : ∀ x q f, x ≠ dataMem → pool'.get x = some (q, f) →
    ∃ e, pool.get x = some (q, e) ∧ e.s = f.s ∧ pool'.data.read x = pool.data.read x

/-- The new block of size `newSize` got the bytes of a smaller entry, or none. -/
def Copied (pool pool' : Pool) (newSize : UInt64) : Prop :=
  pool'.copies = pool.copies ∨
    ∃ a p e src, pool.get a = some (p, e) ∧ newSize > e.s ∧ pool.data.read a = some src ∧
      pool'.copies = ⟨platMemSize newSize, src.length, e.s⟩ :: pool.copies

variable {pool pool' pool'' : Pool} {a x : Addr} {p : Ptr} {e e' : MgnMemory}
  {newSize : UInt64} {nodeMem dataMem originMem : Addr}

/-! ## Calls that place no block -/

theorem kept_refl : Kept pool pool := fun _ _ f h => ⟨f, h, rfl, rfl⟩

theorem Kept.trans (h : Kept pool pool') (h' : Kept pool' pool'') : Kept pool pool'' := by
  intro x q f hx
  obtain ⟨e', he', hs', hr'⟩ := h' x q f hx
  obtain ⟨e, he, hs, hr⟩ := h x q e' he'
  exact ⟨e, he, hs.trans hs', hr'.trans hr⟩

theorem Touched.kept (h : Touched pool pool' a p e') (hg : pool.get a = some (p, e))
    (hs : e.s = e'.s) : Kept pool pool' := by
  intro x q f hx
  rw [h.get x] at hx
  rw [h.data]
  split at hx
  · next hxa =>
    cases hx
    rw [hxa]
    exact ⟨e, hg, hs, rfl⟩
  · exact ⟨f, hx, rfl, rfl⟩

theorem SamePool.kept (h : SamePool pool pool') : Kept pool pool' := by
  intro x q f hx
  refine ⟨f, ?_, rfl, ?_⟩
  · rw [← get_congr h, hx]
  · rw [Heap.read, h.blocks, Heap.read]

theorem Removed.kept (h : Removed pool pool' a) : Kept pool pool' := by
  obtain ⟨b, hb, hdata⟩ := h.data
  intro x q f hx
  rw [h.get x] at hx
  split at hx
  · cases hx
  · next hxa =>
    refine ⟨f, hx, rfl, ?_⟩
    rw [hdata, Heap.read_drop_of_ne hb hxa]

theorem Purged.kept {gone : Ptr × MgnMemory → Bool} (h : Purged gone pool pool') :
    Kept pool pool' := by
  intro x q f hx
  rw [h.get x] at hx
  obtain ⟨hold, hgone⟩ := Option.filter_eq_some_iff.mp hx
  refine ⟨f, hold, rfl, ?_⟩
  have hcell := h.cells x
  rw [hold, Option.any_some, if_neg (by simpa using hgone)] at hcell
  rw [Heap.read, hcell, Heap.read]

theorem kept_unlink (hw : pool.WF) (hg : pool.get a = some (p, e)) :
    Kept pool { pool with table := pool.table.unlink p.addr } := by
  intro x q f hx
  have hx' := (Table.get_unlink hw.table (mem_of_get hg) (find_of_get hg).2).symm.trans hx
  split at hx'
  · cases hx'
  · exact ⟨f, hx', rfl, rfl⟩

/-! ## What is not copied -/

theorem removeEntry_copies {mgnM : Addr} (h : pool.removeEntry mgnM = .ok pool') :
    pool'.copies = pool.copies := by
  obtain ⟨e, -, h⟩ := bind_eq_ok.mp h
  obtain ⟨pool₁, h₁, h⟩ := bind_eq_ok.mp h
  obtain ⟨table, -, h⟩ := bind_eq_ok.mp h
  cases h
  unfold releaseData at h₁
  split at h₁
  · cases h₁
    rfl
  · obtain ⟨data, -, h₁⟩ := bind_eq_ok.mp h₁
    cases h₁
    rfl

theorem purgeLoop_copies {cond : MgnMemory → Bool} {todo : List Addr}
    (h : purgeLoop cond todo pool = .ok pool') : pool'.copies = pool.copies := by
  induction todo generalizing pool with
  | nil =>
    cases h
    rfl
  | cons mgnM rest ih =>
    obtain ⟨e, -, h⟩ := bind_eq_ok.mp h
    split at h
    · obtain ⟨pool₁, h₁, h⟩ := bind_eq_ok.mp h
      exact (ih h).trans (removeEntry_copies h₁)
    · exact ih h

theorem release_copies {last : Bool} (h : pool.release_ a last = .ok pool') :
    pool'.copies = pool.copies := by
  unfold release_ at h
  split at h
  · next mgnM hf =>
    obtain ⟨e, -, h⟩ := bind_eq_ok.mp h
    split at h
    · cases h
      rfl
    · dsimp only at h
      split at h
      · exact (removeEntry_copies h).trans rfl
      · cases h
        rfl
  · cases h
    rfl

theorem release_sizes (last : Bool) (hw : pool.WF) (a : Addr) :
    ∃ pool', pool.release_ a last = .ok pool' ∧ Kept pool pool' ∧ pool'.copies = pool.copies := by
  cases hg : pool.get a with
  | none => exact ⟨pool, release_none hg, kept_refl, rfl⟩
  | some r =>
    obtain ⟨p, e⟩ := r
    by_cases hz : e.r = 0
    · exact ⟨pool, release_zero hg hz, kept_refl, rfl⟩
    · obtain ⟨pool', hrel, hcase⟩ := release_some last hw hg hz
      refine ⟨pool', hrel, ?_, release_copies hrel⟩
      split at hcase
      · obtain ⟨pool₁, ht, hremoved⟩ := hcase
        exact (ht.kept hg rfl).trans hremoved.kept
      · exact hcase.kept hg rfl

/-! ## Calls that place a block -/

theorem placed_added {bytes : List UInt8} {copies : List BlockCopy} (hw : pool.WF)
    (hn : Fresh pool.table.heap nodeMem) (hd : Fresh pool.data dataMem)
    (hlen : bytes.length = platMemSize newSize) :
    Placed pool (pool.added newSize nodeMem dataMem bytes copies hn hd) newSize dataMem := by
  have hget := get_added newSize bytes copies hw hn hd
  refine ⟨⟨_, _, bytes, (hget dataMem).trans (if_pos rfl), rfl, Heap.read_put_self hd, hlen⟩,
    fun x q f hx hxg => ?_⟩
  rw [hget x, if_neg hx] at hxg
  exact ⟨f, hxg, rfl, Heap.read_put_of_ne hd hx⟩

/-- The entry of the grown block is the new one; the old block is gone with its key. -/
theorem placed_grown {bytes : List UInt8} {copies : List BlockCopy} (hw : pool.WF)
    (hg : pool.get a = some (p, e)) (hd : Fresh pool.data dataMem)
    (hlen : bytes.length = platMemSize newSize) {b} {hb} :
    Placed pool (pool.grown p e newSize dataMem bytes copies hd b hb) newSize dataMem := by
  have hget := get_grown newSize bytes copies hw hg hd b hb
  have hm := m_of_get hg
  subst hm
  obtain ⟨src, hsrc⟩ := hw.block _ p e hg
  have hne : e.m ≠ dataMem := Heap.ne_of_read hd hsrc
  refine ⟨⟨_, _, bytes, (hget dataMem).trans (if_pos rfl), rfl,
    (Heap.read_drop_of_ne hb hne.symm).trans (Heap.read_put_self hd), hlen⟩,
    fun x q f hx hxg => ?_⟩
  rw [hget x, if_neg hx] at hxg
  split at hxg
  · cases hxg
  · next hxm =>
    exact ⟨f, hxg, rfl, (Heap.read_drop_of_ne hb hxm).trans (Heap.read_put_of_ne hd hx)⟩

theorem Kept.placed (h : Kept pool pool') (h' : Placed pool' pool'' newSize dataMem) :
    Placed pool pool'' newSize dataMem := by
  refine ⟨h'.new, fun x q f hx hxg => ?_⟩
  obtain ⟨e', he', hs', hr'⟩ := h'.old x q f hx hxg
  obtain ⟨e, he, hs, hr⟩ := h x q e' he'
  exact ⟨e, he, hs.trans hs', hr'.trans hr⟩

/-- The size of the block that a call of `mgn_mem_ralloc` has to allocate, if any. -/
def growth (pool : Pool) (originMem : Addr) (newSize : UInt64) : Option UInt64 :=
  if newSize = 0 then none
  else
    match pool.get originMem with
    | some (_, e) => if newSize > e.s then some newSize else none
    | none => if originMem = NULL then some newSize else none

theorem growth_none (hg : pool.get originMem = none) (hz : newSize ≠ 0) :
    pool.growth originMem newSize = if originMem = NULL then some newSize else none := by
  rw [growth, if_neg hz, hg]

theorem ne_zero_of_gt (hs : newSize > e.s) : newSize ≠ 0 := by
  rintro rfl
  exact UInt64.not_lt_zero hs

theorem growth_some (hg : pool.get originMem = some (p, e)) (hs : newSize > e.s) :
    pool.growth originMem newSize = some newSize := by
  rw [growth, if_neg (ne_zero_of_gt hs), hg]
  exact if_pos hs

/-- A call leaves the sizes and the blocks alone, or places the block that it has to. -/
def Sizes (pool pool' : Pool) (request : Option UInt64) (allocates : Prop) : Prop :=
  (Kept pool pool' ∧ pool'.copies = pool.copies ∧ (request = none ∨ ¬ allocates)) ∨
    ∃ newSize dataMem, request = some newSize ∧ Placed pool pool' newSize dataMem ∧
      Copied pool pool' newSize

theorem shared_kept (hw : pool.WF) (hg : pool.get a = some (p, e)) :
    Kept pool (pool.shared p.addr e) := by
  refine (shared_touched hw hg).kept hg ?_
  unfold givenUp
  split <;> rfl

theorem RallocEffect.sizes {r : Addr} (hw : pool.WF)
    (h : RallocEffect pool originMem newSize nodeMem dataMem pool' r) :
    Sizes pool pool' (pool.growth originMem newSize)
      (Fresh pool.table.heap nodeMem ∧ Fresh pool.data dataMem) := by
  have hnull : pool.get NULL = none := get_null hw
  cases h with
  | zero hz => exact .inl ⟨kept_refl, rfl, .inl (if_pos hz)⟩
  | unknown hz hg ho => exact .inl ⟨kept_refl, rfl, .inl ((growth_none hg hz).trans (if_neg ho))⟩
  | fits hz hg hs =>
    refine .inl ⟨kept_refl, rfl, .inl ?_⟩
    rw [growth, if_neg hz, hg]
    exact if_neg hs
  | added hn hd hz ho =>
    subst ho
    exact .inr ⟨newSize, dataMem, (growth_none hnull hz).trans (if_pos rfl),
      placed_added hw hn hd (length_zeroBytes newSize), .inl rfl⟩
  | addFailed hz ho hfail hchain hcells =>
    exact .inl ⟨SamePool.kept ⟨hchain, hcells, rfl⟩, rfl, .inr hfail⟩
  | @grown p e src b hd hb hg hs hr hsrc hcell =>
    refine .inr ⟨newSize, dataMem, growth_some hg hs, placed_grown hw hg hd (by simp),
      .inr ⟨originMem, p, e, src, hg, hs, hsrc, ?_⟩⟩
    rw [← length_zeroBytes]
    rfl
  | growFailed hg hs hr hfail =>
    exact .inl ⟨kept_unlink hw hg, rfl, .inr fun hf => hfail hf.2⟩
  | @shared p e src hn hd hg hs hr hsrc =>
    refine .inr ⟨newSize, dataMem, growth_some hg hs,
      (shared_kept hw hg).placed (placed_added (shared_touched hw hg).wf hn hd (by simp)),
      .inr ⟨originMem, p, e, src, hg, hs, hsrc, ?_⟩⟩
    rw [← length_zeroBytes]
    rfl
  | @shareFailed p e table hg hs hr hfail hchain hcells =>
    have hsame : SamePool (pool.shared p.addr e) { pool.shared p.addr e with table := table } :=
      ⟨hchain, hcells, rfl⟩
    exact .inl ⟨(shared_kept hw hg).trans hsame.kept, copies_shared, .inr hfail⟩

end Pool

namespace PoolRun

open Pool

variable {s s' : PoolRun} {pool' : Pool} {a : Act}

/-- The size of the block that a call has to allocate. -/
def request (pool : Pool) : Act → Option UInt64
  | .ralloc originMem newSize _ _ => pool.growth originMem newSize
  | .alloc newSize _ _ => pool.growth NULL newSize
  | _ => none

/-- The allocations of the call succeed at addresses that are not allocated. -/
def Allocates (s : PoolRun) : Act → Prop
  | .ralloc _ _ nodeMem dataMem => Fresh s.pool.table.heap nodeMem ∧ Fresh s.pool.data dataMem
  | .alloc _ nodeMem dataMem => Fresh s.pool.table.heap nodeMem ∧ Fresh s.pool.data dataMem
  | _ => True

/-- Every call answers, whatever the allocator does. -/
theorem call_sizes (hw : s.pool.WF) (a : Act) :
    ∃ pool', call s.pool a = .ok pool' ∧
      Sizes s.pool pool' (request s.pool a) (Allocates s a) := by
  cases a with
  | ralloc originMem newSize nodeMem dataMem =>
    obtain ⟨pool', r, hok, heff⟩ := ralloc_effect hw originMem newSize nodeMem dataMem
    exact ⟨pool', call_ralloc hok, heff.sizes hw⟩
  | alloc newSize nodeMem dataMem =>
    obtain ⟨pool', r, hok, heff⟩ := ralloc_effect hw NULL newSize nodeMem dataMem
    exact ⟨pool', call_ralloc hok, heff.sizes hw⟩
  | retain originMem =>
    cases hg : s.pool.get originMem with
    | none =>
      refine ⟨s.pool, ?_, .inl ⟨kept_refl, rfl, .inl rfl⟩⟩
      simp only [call, retain_none hg, ok_bind]
      rfl
    | some r =>
      obtain ⟨p, e⟩ := r
      refine ⟨_, ?_, .inl ⟨(touched { e with r := e.r + 1 } hw hg rfl).kept hg rfl, rfl, .inl rfl⟩⟩
      simp only [call, retain_some hg, ok_bind]
      rfl
  | release originMem =>
    obtain ⟨pool', hok, hkept, hcopies⟩ := release_sizes true hw originMem
    exact ⟨pool', hok, .inl ⟨hkept, hcopies, .inl rfl⟩⟩
  | autorelease originMem =>
    obtain ⟨pool', hok, hkept, hcopies⟩ := release_sizes false hw originMem
    exact ⟨pool', hok, .inl ⟨hkept, hcopies, .inl rfl⟩⟩
  | releaseUnused =>
    obtain ⟨pool', hok, hp⟩ := purge_ok (fun e => decide (e.r = 0)) hw
    exact ⟨pool', hok, .inl ⟨hp.kept, purgeLoop_copies hok, .inl rfl⟩⟩
  | releaseAll =>
    obtain ⟨pool', hok, hp⟩ := purge_ok (fun _ => true) hw
    exact ⟨pool', hok, .inl ⟨hp.kept, purgeLoop_copies hok, .inl rfl⟩⟩

end PoolRun

/-! ## Blocks of the recorded sizes -/

namespace Pool

def Sized (pool : Pool) : Prop :=
  ∀ x p e bytes, pool.get x = some (p, e) → pool.data.read x = some bytes →
    bytes.length = platMemSize e.s

variable {pool pool' : Pool} {newSize : UInt64} {dataMem : Addr}

theorem Sized.length {x : Addr} {p : Ptr} {e : MgnMemory} {bytes : List UInt8} (h : pool.Sized)
    (hg : pool.get x = some (p, e)) (hr : pool.data.read x = some bytes)
    (hlt : e.s.toNat < 2 ^ 32) : bytes.length = e.s.toNat := by
  rw [h x p e bytes hg hr, platMemSize_of_lt hlt]

theorem Sized.kept (h : pool.Sized) (hk : Kept pool pool') : pool'.Sized := by
  intro x q f bytes hx hr
  obtain ⟨e, hg, hs, hread⟩ := hk x q f hx
  rw [← hs]
  exact h x q e bytes hg (hread.symm.trans hr)

theorem Sized.placed (h : pool.Sized) (hp : Placed pool pool' newSize dataMem) :
    pool'.Sized := by
  intro x q f bytes hx hr
  by_cases hxd : x = dataMem
  · obtain ⟨q', f', bytes', hg, hs, hread, hlen⟩ := hp.new
    rw [hxd, hg] at hx
    rw [hxd, hread] at hr
    cases hx
    cases hr
    rw [hs, hlen]
  · obtain ⟨e, hg, hs, hread⟩ := hp.old x q f hxd hx
    rw [← hs]
    exact h x q e bytes hg (hread.symm.trans hr)

/-- No recorded size exceeds the block, and every copy stayed within its two blocks. -/
structure Capacity (pool : Pool) : Prop where
  entries : ∀ x p e, pool.get x = some (p, e) →
    ∃ bytes, pool.data.read x = some bytes ∧ e.s.toNat ≤ bytes.length
  copies : ∀ c ∈ pool.copies, platMemSize c.size ≤ c.src ∧ platMemSize c.size ≤ c.dest

theorem Capacity.kept (h : pool.Capacity) (hk : Kept pool pool')
    (hc : pool'.copies = pool.copies) : pool'.Capacity := by
  refine ⟨fun x q f hx => ?_, by rw [hc]; exact h.copies⟩
  obtain ⟨e, hg, hs, hread⟩ := hk x q f hx
  obtain ⟨bytes, hr, hle⟩ := h.entries x q e hg
  exact ⟨bytes, hread.trans hr, hs ▸ hle⟩

/-- Below 2^32 the size is the same at both widths, so the block and the copy fit. -/
theorem Capacity.placed (h : pool.Capacity) (hp : Placed pool pool' newSize dataMem)
    (hc : Copied pool pool' newSize) (hlt : newSize.toNat < 2 ^ 32) : pool'.Capacity := by
  have hmem := platMemSize_of_lt hlt
  refine ⟨fun x q f hx => ?_, ?_⟩
  · by_cases hxd : x = dataMem
    · obtain ⟨q', f', bytes, hg, hs, hread, hlen⟩ := hp.new
      rw [hxd, hg] at hx
      cases hx
      rw [hxd]
      exact ⟨bytes, hread, by rw [hs, hlen, hmem]⟩
    · obtain ⟨e, hg, hs, hread⟩ := hp.old x q f hxd hx
      obtain ⟨bytes, hr, hle⟩ := h.entries x q e hg
      exact ⟨bytes, hread.trans hr, hs ▸ hle⟩
  · rcases hc with hc | ⟨a, p, e, src, hg, hs, hsrc, hc⟩
    · rw [hc]
      exact h.copies
    · have hlt' : e.s.toNat < newSize.toNat := UInt64.lt_iff_toNat_lt.mp hs
      obtain ⟨bytes, hr, hle⟩ := h.entries a p e hg
      rw [hsrc] at hr
      cases hr
      have hsize : platMemSize e.s = e.s.toNat := platMemSize_of_lt (Nat.lt_trans hlt' hlt)
      intro c hmemc
      rw [hc] at hmemc
      rcases List.mem_cons.mp hmemc with rfl | hmemc
      · exact ⟨by rw [hsize]; exact hle, by rw [hsize, hmem]; exact Nat.le_of_lt hlt'⟩
      · exact h.copies c hmemc

/-- A recorded size of 2^32 or more exceeds any block. -/
theorem Capacity.lt_of_placed (h : pool'.Capacity) (hp : Placed pool pool' newSize dataMem) :
    newSize.toNat < 2 ^ 32 := by
  obtain ⟨q, f, bytes, hg, hs, hread, hlen⟩ := hp.new
  obtain ⟨bytes', hr, hle⟩ := h.entries dataMem q f hg
  rw [hread] at hr
  cases hr
  rw [hs, hlen] at hle
  exact Nat.lt_of_le_of_lt hle (platMemSize_lt newSize)

end Pool

namespace PoolRun

open Pool

variable {s s' : PoolRun} {pool' : Pool} {a : Act}

theorem sized_step (s : PoolRun) (a : Act) (s' : PoolRun) (h : s.pool.WF ∧ s.pool.Sized)
    (hs : step s a = .ok s') : s'.pool.WF ∧ s'.pool.Sized := by
  refine ⟨wf_step s a s' h.1 hs, ?_⟩
  obtain ⟨pool', hcall, hsizes⟩ := call_sizes h.1 a
  rw [step_call hcall] at hs
  cases hs
  rcases hsizes with ⟨hkept, -, -⟩ | ⟨newSize, dataMem, -, hplaced, -⟩
  · exact h.2.kept hkept
  · exact h.2.placed hplaced

/-- Every reachable pool is well formed, with blocks of the recorded sizes as `uint`s. -/
theorem sized_exec {acts : List Act} (h : exec step init acts = .ok s) :
    s.pool.WF ∧ s.pool.Sized :=
  exec_keeps (fun s => s.pool.WF ∧ s.pool.Sized) sized_step
    ⟨wf_empty, fun _ _ _ _ h => nomatch h⟩ h

/-! ## Runs within their capacity -/

/-- The call asks for less than 2^32 bytes, if it has to allocate a block at all. -/
def Small (s : PoolRun) (a : Act) : Prop :=
  ∀ newSize, request s.pool a = some newSize → newSize.toNat < 2 ^ 32

/-- The call leaves no size larger than its block, and no copy that left its blocks. -/
def KeepsCapacity (s : PoolRun) (a : Act) : Prop :=
  ∀ s', step s a = .ok s' → s'.pool.Capacity

theorem keepsCapacity_iff (hw : s.pool.WF) (hc : s.pool.Capacity) (ha : Allocates s a) :
    KeepsCapacity s a ↔ Small s a := by
  obtain ⟨pool', hcall, hsizes⟩ := call_sizes hw a
  have hstep := step_call hcall
  rcases hsizes with ⟨hkept, hcopies, hnone⟩ | ⟨newSize, dataMem, hreq, hplaced, hcopied⟩
  · have hnone' : request s.pool a = none := hnone.resolve_right (not_not.mpr ha)
    refine iff_of_true (fun s' hs' => ?_) fun n hn => ?_
    · rw [hstep] at hs'
      cases hs'
      exact hc.kept hkept hcopies
    · rw [hnone'] at hn
      cases hn
  · constructor
    · intro hkeeps n hn
      rw [hreq] at hn
      cases hn
      exact (hkeeps _ hstep).lt_of_placed hplaced
    · intro hsmall s' hs'
      rw [hstep] at hs'
      cases hs'
      exact hc.placed hplaced hcopied (hsmall newSize hreq)

/-- Every run of calls whose allocations succeed ends without a fault. No call of it leaves
a recorded size larger than its block, or has copied beyond a block, exactly when none has to
allocate a block of 2^32 bytes or more. -/
theorem capacity_iff (acts : List Act) (halloc : Along step Allocates init acts) :
    (∃ s, exec step init acts = .ok s) ∧
      (Along step KeepsCapacity init acts ↔ Along step Small init acts) := by
  have hstep : ∀ s a, s.pool.WF → Allocates s a → ∃ s', step s a = .ok s' ∧ s'.pool.WF := by
    intro s a hw _
    obtain ⟨pool', hcall, -⟩ := call_sizes hw a
    exact ⟨_, step_call hcall, wf_step s a _ hw (step_call hcall)⟩
  obtain ⟨s, hs, -⟩ : ∃ s, exec step init acts = .ok s ∧ s.pool.WF :=
    exec_progress hstep wf_empty halloc
  refine ⟨⟨s, hs⟩, ?_⟩
  have hcong : Along step (fun s a => Allocates s a ∧ KeepsCapacity s a) init acts ↔
      Along step (fun s a => Allocates s a ∧ Small s a) init acts := by
    refine along_congr (fun s => s.pool.WF ∧ s.pool.Capacity) (fun s a hJ => ?_)
      (fun s a s' hJ hk hs => ⟨wf_step s a s' hJ.1 hs, hk.2 s' hs⟩)
      ⟨wf_empty, (fun _ _ _ h => nomatch h), fun _ h => nomatch h⟩
    exact and_congr_right fun ha => keepsCapacity_iff hJ.1 hJ.2 ha
  rw [along_and, along_and] at hcong
  exact ⟨fun h => (hcong.mp ⟨halloc, h⟩).2, fun h => (hcong.mpr ⟨halloc, h⟩).2⟩

theorem allocates_growth (newSize : UInt64) :
    Along step Allocates init [.alloc 16 16 16, .ralloc 16 newSize 32 32] := by
  refine ⟨⟨⟨by decide, rfl⟩, by decide, rfl⟩, fun s hs => ?_⟩
  cases hs
  exact ⟨⟨⟨by decide, rfl⟩, by decide, rfl⟩, fun _ _ => trivial⟩

/-- A block of 16 bytes that grows to 24 bytes. -/
theorem capacity_iff_growth :
    Along step KeepsCapacity init [.alloc 16 16 16, .ralloc 16 24 32 32] := by
  refine (capacity_iff [.alloc 16 16 16, .ralloc 16 24 32 32] (allocates_growth 24)).2.mpr
    ⟨fun n hn => ?_, fun s hs => ?_⟩
  · cases hn
    decide
  · cases hs
    refine ⟨fun n hn => ?_, fun _ _ => trivial⟩
    cases hn
    decide

/-- The same block with a growth to 2^32 + 8 bytes: the new block has 8 bytes, and 16 are
copied to it. -/
theorem growth_past_capacity :
    Along step Allocates init [.alloc 16 16 16, .ralloc 16 4294967304 32 32] ∧
      ∃ s p, exec step init [.alloc 16 16 16, .ralloc 16 4294967304 32 32] = .ok s ∧
        s.pool.get 32 = some (p, ⟨32, 4294967304, 1⟩) ∧
        s.pool.data.read 32 = some (List.replicate 8 0) ∧
        s.pool.copies = [⟨8, 16, 16⟩] ∧ ¬ s.pool.Capacity := by
  have hs : ∃ s p, exec step init [.alloc 16 16 16, .ralloc 16 4294967304 32 32] = .ok s ∧
      s.pool.get 32 = some (p, ⟨32, 4294967304, 1⟩) ∧
      s.pool.data.read 32 = some (List.replicate 8 0) ∧ s.pool.copies = [⟨8, 16, 16⟩] :=
    ⟨_, _, rfl, rfl, rfl, rfl⟩
  obtain ⟨s, p, hs, hg, hr, hc⟩ := hs
  refine ⟨allocates_growth 4294967304, s, p, hs, hg, hr, hc, fun h => ?_⟩
  obtain ⟨-, hdest⟩ := h.copies ⟨8, 16, 16⟩ (by rw [hc]; exact List.mem_cons_self)
  exact absurd hdest (by decide)

end PoolRun

end ShellJs
