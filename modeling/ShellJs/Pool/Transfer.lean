import ShellJs.Pool.Capacity

/-!
# What `mgn_mem_ralloc` hands over

* `Transferred`: the pool after a block has grown. The new block begins with the old bytes
  and ends in zeros; what becomes of the old block depends on the number of its owners.
* `Allocated`: the pool after a new block.
* `ralloc_transfer`: which of the two a call does, when it changes nothing, and that it
  leaves everything else alone.
-/

namespace ShellJs

namespace Pool

/-- The entries and the blocks at all other addresses are as they were. -/
def Frame (pool pool' : Pool) (a b : Addr) : Prop :=
  ∀ x, x ≠ a → x ≠ b → pool'.get x = pool.get x ∧ pool'.data.cells x = pool.data.cells x

/-- `pool'` is `pool` with a zeroed block of `newSize` bytes at `dataMem`. -/
structure Allocated (pool pool' : Pool) (newSize : UInt64) (dataMem : Addr) : Prop where
  newKey : pool.get dataMem = none
  entry : ∃ q, pool'.get dataMem = some (q, ⟨dataMem, newSize, 1⟩)
  bytes : pool'.data.read dataMem = some (List.replicate newSize.toNat 0)
  frees : pool'.data.frees = pool.data.frees
  frame : Frame pool pool' dataMem dataMem

/-- `pool'` is `pool` after a growth of the entry `(p, e)` at `originMem`, whose block holds
`src`, to a block of `newSize` bytes at `dataMem`. -/
structure Transferred (pool pool' : Pool) (originMem : Addr) (p : Ptr) (e : MgnMemory)
    (src : List UInt8) (newSize : UInt64) (dataMem : Addr) : Prop where
  newKey : pool.get dataMem = none
  entry : ∃ q, pool'.get dataMem = some (q, ⟨dataMem, newSize, 1⟩)
  bytes : pool'.data.read dataMem =
    some (src ++ List.replicate (newSize.toNat - e.s.toNat) 0)
  sole : e.r = 1 → pool'.get originMem = none ∧ pool'.data.cells originMem = none ∧
    ∃ b, pool.data.cells originMem = some b ∧ pool'.data.frees = b.birth :: pool.data.frees
  shared : e.r > 1 → pool'.get originMem = some (p, { e with r := e.r - 1 }) ∧
    pool'.data.cells originMem = pool.data.cells originMem ∧
    pool'.data.frees = pool.data.frees
  unowned : e.r = 0 → pool'.get originMem = some (p, e) ∧
    pool'.data.cells originMem = pool.data.cells originMem ∧
    pool'.data.frees = pool.data.frees
  frame : Frame pool pool' originMem dataMem

variable {pool pool' : Pool} {a x : Addr} {p : Ptr} {e : MgnMemory} {src : List UInt8}
  {newSize : UInt64} {nodeMem dataMem originMem : Addr}

/-- The copy of a whole block into a larger one of zeros. -/
theorem copy_zeroBytes (hlen : src.length = e.s.toNat) (hs : newSize > e.s)
    (hlt : newSize.toNat < 2 ^ 32) :
    platMemCopy (zeroBytes newSize) src e.s =
      src ++ List.replicate (newSize.toNat - e.s.toNat) 0 := by
  have hs' : e.s.toNat < newSize.toNat := UInt64.lt_iff_toNat_lt.mp hs
  have hmin : min (platMemSize e.s) (min (zeroBytes newSize).length src.length) = src.length := by
    rw [length_zeroBytes, platMemSize_of_lt hlt, platMemSize_of_lt (Nat.lt_trans hs' hlt), hlen]
    omega
  rw [platMemCopy, hmin, List.take_length, zeroBytes, List.drop_replicate, platMemSize_of_lt hlt,
    hlen]

theorem zeroBytes_of_lt (hlt : newSize.toNat < 2 ^ 32) :
    zeroBytes newSize = List.replicate newSize.toNat 0 := by
  rw [zeroBytes, platMemSize_of_lt hlt]

theorem allocated_added (hw : pool.WF) (hn : Fresh pool.table.heap nodeMem)
    (hd : Fresh pool.data dataMem) (hlt : newSize.toNat < 2 ^ 32) :
    Allocated pool (pool.added newSize nodeMem dataMem (zeroBytes newSize) pool.copies hn hd)
      newSize dataMem := by
  have hget := get_added newSize (zeroBytes newSize) pool.copies hw hn hd
  refine ⟨get_of_free hw hd.2, ⟨_, (hget dataMem).trans (if_pos rfl)⟩, ?_, rfl,
    fun x hx _ => ⟨(hget x).trans (if_neg hx), Heap.cells_put_of_ne hd hx⟩⟩
  rw [← zeroBytes_of_lt hlt]
  exact Heap.read_put_self hd

theorem transferred_grown (hw : pool.WF) (hsized : pool.Sized)
    (hg : pool.get originMem = some (p, e)) (hs : newSize > e.s) (hr : e.r = 1)
    (hsrc : pool.data.read originMem = some src) (hd : Fresh pool.data dataMem)
    (hlt : newSize.toNat < 2 ^ 32) {b hb} (hcell : pool.data.cells originMem = some b) :
    Transferred pool (pool.grown p e newSize dataMem (platMemCopy (zeroBytes newSize) src e.s)
      (⟨(zeroBytes newSize).length, src.length, e.s⟩ :: pool.copies) hd b hb) originMem p e src
      newSize dataMem := by
  have hget := get_grown newSize (platMemCopy (zeroBytes newSize) src e.s)
    (⟨(zeroBytes newSize).length, src.length, e.s⟩ :: pool.copies) hw hg hd b hb
  have hm := m_of_get hg
  subst hm
  have hne : e.m ≠ dataMem := Heap.ne_of_read hd hsrc
  have hlen := hsized.length hg hsrc (Nat.lt_trans (UInt64.lt_iff_toNat_lt.mp hs) hlt)
  refine ⟨get_of_free hw hd.2, ⟨p, ?_⟩, ?_, fun _ => ⟨?_, Heap.cells_drop_self hb, b, hcell, rfl⟩,
    fun hgt => ?_, fun hz => ?_, fun x hx hxd => ⟨?_, ?_⟩⟩
  · rw [hget dataMem, if_pos rfl, hr]
  · rw [← copy_zeroBytes hlen hs hlt]
    exact (Heap.read_drop_of_ne hb hne.symm).trans (Heap.read_put_self hd)
  · rw [hget e.m, if_neg hne, if_pos rfl]
  · rw [hr] at hgt
    exact absurd hgt (by decide)
  · rw [hr] at hz
    exact absurd hz (by decide)
  · rw [hget x, if_neg hxd, if_neg hx]
  · exact (Heap.cells_drop_of_ne hb hx).trans (Heap.cells_put_of_ne hd hxd)

theorem transferred_shared (hw : pool.WF) (hsized : pool.Sized)
    (hg : pool.get originMem = some (p, e)) (hs : newSize > e.s) (hr : e.r ≠ 1)
    (hsrc : pool.data.read originMem = some src)
    (hn : Fresh (pool.shared p.addr e).table.heap nodeMem)
    (hd : Fresh (pool.shared p.addr e).data dataMem) (hlt : newSize.toNat < 2 ^ 32) :
    Transferred pool ((pool.shared p.addr e).added newSize nodeMem dataMem
      (platMemCopy (zeroBytes newSize) src e.s)
      (⟨(zeroBytes newSize).length, src.length, e.s⟩ :: pool.copies) hn hd) originMem p e src
      newSize dataMem := by
  have ht := shared_touched hw hg
  have hget := get_added newSize (platMemCopy (zeroBytes newSize) src e.s)
    (⟨(zeroBytes newSize).length, src.length, e.s⟩ :: pool.copies) ht.wf hn hd
  have hne : originMem ≠ dataMem := by
    refine Heap.ne_of_read hd (?_ : _ = some src)
    rw [ht.data]
    exact hsrc
  have hcells : ∀ x, x ≠ dataMem →
      ((pool.shared p.addr e).data.put dataMem (platMemCopy (zeroBytes newSize) src e.s) hd).cells x
        = pool.data.cells x := by
    intro x hx
    rw [Heap.cells_put_of_ne hd hx, ht.data]
  have horigin : ((pool.shared p.addr e).added newSize nodeMem dataMem
      (platMemCopy (zeroBytes newSize) src e.s)
      (⟨(zeroBytes newSize).length, src.length, e.s⟩ :: pool.copies) hn hd).get originMem =
        some (p, givenUp e) := by
    rw [hget originMem, if_neg hne, ht.get, if_pos rfl]
  have hlen := hsized.length hg hsrc (Nat.lt_trans (UInt64.lt_iff_toNat_lt.mp hs) hlt)
  have hfrees : (pool.shared p.addr e).data.frees = pool.data.frees := by rw [ht.data]
  refine ⟨?_, ⟨_, (hget dataMem).trans (if_pos rfl)⟩, ?_, fun hone => absurd hone hr,
    fun hgt => ⟨?_, hcells originMem hne, hfrees⟩, fun hz => ⟨?_, hcells originMem hne, hfrees⟩,
    fun x hx hxd => ⟨?_, hcells x hxd⟩⟩
  · refine get_of_free hw ?_
    rw [← ht.data]
    exact hd.2
  · rw [← copy_zeroBytes hlen hs hlt]
    exact Heap.read_put_self hd
  · rw [horigin, givenUp, if_pos (UInt64.lt_trans (by decide) hgt)]
  · rw [horigin, givenUp, hz]
    rfl
  · rw [hget x, if_neg hxd, ht.get x, if_neg hx]

end Pool

namespace PoolRun

open Runs Pool

/-- In every pool that any calls with any answers of the allocator reach, a call whose
allocations succeed

* with the size 0, or with a pointer that is neither `NULL` nor in the pool, answers `NULL`
  and changes nothing;
* with the pointer of an entry that is large enough answers it and changes nothing;
* with the pointer of a smaller entry, and a size below 2^32, answers a block of that size
  to which the old one has been transferred;
* with `NULL` and a size below 2^32, answers a new zeroed block, and so does
  `mgn_mem_alloc`. -/
theorem ralloc_transfer (acts : List Act) (s : PoolRun) (hreach : exec step init acts = .ok s)
    (originMem : Addr) (newSize : UInt64) (nodeMem dataMem : Addr)
    (hn : Fresh s.pool.table.heap nodeMem) (hd : Fresh s.pool.data dataMem) :
    (newSize = 0 ∨ (originMem ≠ NULL ∧ s.pool.get originMem = none) →
      s.pool.ralloc originMem newSize nodeMem dataMem = .ok (s.pool, NULL)) ∧
    (∀ p e, s.pool.get originMem = some (p, e) → newSize ≠ 0 → newSize ≤ e.s →
      s.pool.ralloc originMem newSize nodeMem dataMem = .ok (s.pool, originMem)) ∧
    (∀ p e, s.pool.get originMem = some (p, e) → newSize > e.s → newSize.toNat < 2 ^ 32 →
      ∃ pool' src, s.pool.ralloc originMem newSize nodeMem dataMem = .ok (pool', dataMem) ∧
        s.pool.data.read originMem = some src ∧ src.length = e.s.toNat ∧
        Transferred s.pool pool' originMem p e src newSize dataMem) ∧
    (newSize ≠ 0 → newSize.toNat < 2 ^ 32 →
      ∃ pool', s.pool.ralloc NULL newSize nodeMem dataMem = .ok (pool', dataMem) ∧
        s.pool.alloc newSize nodeMem dataMem = .ok (pool', dataMem) ∧
        Allocated s.pool pool' newSize dataMem) := by
  obtain ⟨hw, hsized⟩ := sized_exec hreach
  refine ⟨?_, fun p e hg hz hle => ?_, fun p e hg hs hlt => ?_, fun hz hlt => ?_⟩
  · rintro (rfl | ⟨ho, hg⟩)
    · exact ralloc_zero
    · by_cases hz : newSize = 0
      · rw [hz, ralloc_zero]
      · rw [ralloc_none nodeMem dataMem hz hg, if_pos ho]
  · rw [ralloc_some nodeMem dataMem hz hg, if_neg (UInt64.not_lt.mpr hle)]
  · have hok := ralloc_some nodeMem dataMem (ne_zero_of_gt hs) hg
    have hlt' : e.s.toNat < 2 ^ 32 := Nat.lt_trans (UInt64.lt_iff_toNat_lt.mp hs) hlt
    rw [if_pos hs] at hok
    by_cases hr : e.r = 1
    · obtain ⟨src, b, hb, hsrc, hcell, hsole⟩ := rallocSole_ok newSize hw hg hd
      rw [if_pos hr, hsole] at hok
      exact ⟨_, src, hok, hsrc, hsized.length hg hsrc hlt',
        transferred_grown hw hsized hg hs hr hsrc hd hlt hcell⟩
    · have hd' : Fresh (s.pool.shared p.addr e).data dataMem := by
        rw [(shared_touched hw hg).data]
        exact hd
      obtain ⟨src, hsrc, hshared⟩ := rallocShared_ok newSize hw hg (fresh_shared.mpr hn) hd'
      rw [if_neg hr, hshared] at hok
      exact ⟨_, src, hok, hsrc, hsized.length hg hsrc hlt',
        transferred_shared hw hsized hg hs hr hsrc (fresh_shared.mpr hn) hd' hlt⟩
  · have hnull : s.pool.get NULL = none := get_null hw
    have hok := ralloc_none nodeMem dataMem hz hnull
    rw [if_neg (fun hne => hne rfl), addEntry_fresh hn hd] at hok
    exact ⟨_, hok, hok, allocated_added hw hn hd hlt⟩

/-- A block of 16 bytes that its only owner makes 24 bytes long. -/
theorem ralloc_transfer_growth :
    ∃ s pool' src, exec step init [.alloc 16 16 16] = .ok s ∧
      s.pool.ralloc 16 24 32 32 = .ok (pool', 32) ∧ src.length = 16 ∧
      pool'.data.read 32 = some (src ++ List.replicate 8 0) := by
  have hs : ∃ s p, exec step init [.alloc 16 16 16] = .ok s ∧
      Fresh s.pool.table.heap 32 ∧ Fresh s.pool.data 32 ∧
      s.pool.get 16 = some (p, ⟨16, 16, 1⟩) :=
    ⟨_, _, rfl, ⟨by decide, rfl⟩, ⟨by decide, rfl⟩, rfl⟩
  obtain ⟨s, p, hs, hn, hd, hg⟩ := hs
  obtain ⟨-, -, hgrow, -⟩ := ralloc_transfer [.alloc 16 16 16] s hs 16 24 32 32 hn hd
  obtain ⟨pool', src, hok, -, hlen, ht⟩ := hgrow p _ hg (by decide) (by decide)
  exact ⟨s, pool', src, hs, hok, hlen, ht.bytes⟩

end PoolRun

end ShellJs
