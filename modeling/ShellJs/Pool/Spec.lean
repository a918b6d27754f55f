import ShellJs.Pool.Model

/-!
# What each pool function does

`Pool.WF` is what holds of a pool after any calls with any answers of the allocator:
the table is well formed, and the data block of every entry is allocated. Under it no
call faults, and every call has one of a few effects, given here as equations.

* `added`, `grown`: the pool after a new entry and after a sole owner's growth.
* `Touched`, `Removed`: the pool after a change of a count and after a removal.
* `SamePool`: the pool after a failed allocation of a new entry.
* `RallocEffect`, `ralloc_effect`: all that a call of `mgn_mem_ralloc` can do.
* `Purged`: the pool after a walk that removes the entries that meet a condition.
-/

namespace ShellJs.Pool

structure WF (pool : Pool) : Prop where
  table : pool.table.WF MgnMemory.m
  block : ∀ a p e, pool.get a = some (p, e) → ∃ bytes, pool.data.read a = some bytes

variable {pool pool' : Pool} {a x : Addr} {p : Ptr} {e e' : MgnMemory} {bytes : List UInt8}
  {newSize : UInt64} {nodeMem dataMem originMem : Addr}

theorem wf_empty : empty.WF := ⟨Table.wf_empty, fun _ _ _ h => nomatch h⟩

theorem m_of_get (hg : pool.get a = some (p, e)) : e.m = a := Table.key_of_get hg

theorem find_of_get (hg : pool.get a = some (p, e)) :
    pool.table.find MgnMemory.m a = some p.addr ∧ pool.table.heap.read p.addr = some e := by
  obtain ⟨hf, he⟩ := Table.get_eq_some.mp hg
  exact ⟨hf, Heap.read_of_entry he⟩

theorem mem_of_get (hg : pool.get a = some (p, e)) : p.addr ∈ pool.table.chain :=
  (Table.mem_of_find (find_of_get hg).1).1

theorem get_of_mem (hw : pool.WF) (hx : x ∈ pool.table.chain) :
    ∃ p e, pool.get e.m = some (p, e) ∧ p.addr = x := by
  obtain ⟨e, he⟩ := hw.table.linked x hx
  obtain ⟨p, hp, hpx⟩ := Heap.entry_of_read he
  subst hpx
  exact ⟨p, e, Table.get_eq_some.mpr ⟨Table.find_of_read hw.table hx he, hp⟩, rfl⟩

/-- The address of a block that is not allocated is no key. -/
theorem get_of_free (hw : pool.WF) (hd : pool.data.cells a = none) : pool.get a = none := by
  cases hg : pool.get a with
  | none => rfl
  | some r =>
    obtain ⟨bytes, hb⟩ := hw.block a r.1 r.2 hg
    rw [Heap.read_eq_none.mpr hd] at hb
    cases hb

theorem get_null (hw : pool.WF) : pool.get NULL = none := get_of_free hw pool.data.null_free

/-- Two keys do not share an entry. -/
theorem key_unique {b : Addr} {q : Ptr} (hg : pool.get a = some (p, e))
    (hg' : pool.get b = some (q, e')) (hpq : p.birth = q.birth) : a = b := by
  obtain ⟨-, he⟩ := Table.get_eq_some.mp hg
  obtain ⟨-, he'⟩ := Table.get_eq_some.mp hg'
  have haddr : p.addr = q.addr := Heap.addr_of_birth he he' hpq
  obtain ⟨-, hr⟩ := find_of_get hg
  obtain ⟨-, hr'⟩ := find_of_get hg'
  rw [haddr, hr'] at hr
  cases hr
  exact (m_of_get hg).symm.trans (m_of_get hg')

theorem birth_lt (hg : pool.get a = some (p, e)) : p.birth < pool.table.heap.next :=
  Heap.birth_lt_of_entry (Table.get_eq_some.mp hg).2

/-! ## A change of a count -/

/-- `pool'` is `pool` with the entry for `a` changed to `e'`. -/
structure Touched (pool pool' : Pool) (a : Addr) (p : Ptr) (e' : MgnMemory) : Prop where
  wf : pool'.WF
  get : ∀ x, pool'.get x = if x = a then some (p, e') else pool.get x
  data : pool'.data = pool.data
  chain : pool'.table.chain = pool.table.chain
  next : pool'.table.heap.next = pool.table.heap.next
  owned : pool.table.Owned → pool'.table.Owned

theorem touched (e' : MgnMemory) (hw : pool.WF) (hg : pool.get a = some (p, e)) (he : e'.m = e.m) :
    Touched pool { pool with table := pool.table.store p.addr e' } a p e' := by
  obtain ⟨-, hr⟩ := find_of_get hg
  have hget : ∀ x, Pool.get { pool with table := pool.table.store p.addr e' } x =
      if x = a then some (p, e') else pool.get x := by
    intro x
    have hs := Table.get_store x hw.table (mem_of_get hg) hr he
    rw [m_of_get hg] at hs
    refine hs.trans ?_
    split
    · next hx => rw [hx, show pool.table.get MgnMemory.m a = some (p, e) from hg]; rfl
    · rfl
  refine ⟨⟨hw.table.store hr he, fun x q f hx => ?_⟩, hget, rfl, rfl, rfl, Table.Owned.store⟩
  rw [hget x] at hx
  split at hx
  · next hxa =>
    rw [hxa]
    exact hw.block a p e hg
  · exact hw.block x q f hx

/-! ## A removal -/

/-- `pool'` is `pool` without the entry for `a` and without its data block. -/
structure Removed (pool pool' : Pool) (a : Addr) : Prop where
  found : ∃ r, pool.get a = some r
  wf : pool'.WF
  get : ∀ x, pool'.get x = if x = a then none else pool.get x
  data : ∃ b, ∃ hb : pool.data.cells a = some b, pool'.data = pool.data.drop a b hb
  next : pool'.table.heap.next = pool.table.heap.next
  owned : pool.table.Owned → pool'.table.Owned

theorem releaseData_ok {h : List UInt8} (pool : Pool) (hr : pool.data.read a = some h) :
    ∃ b, ∃ hb : pool.data.cells a = some b,
      pool.releaseData a = .ok { pool with data := pool.data.drop a b hb } := by
  obtain ⟨b, hb, -, hfree⟩ := Heap.free_of_read hr
  refine ⟨b, hb, ?_⟩
  rw [releaseData, if_neg (Heap.ne_null_of_read hr), hfree]
  rfl

theorem removeEntry_ok (hw : pool.WF) (hg : pool.get a = some (p, e)) :
    ∃ pool', pool.removeEntry p.addr = .ok pool' ∧ Removed pool pool' a ∧
      pool'.table.chain = pool.table.chain.erase p.addr := by
  obtain ⟨-, hr⟩ := find_of_get hg
  obtain ⟨bytes, hbytes⟩ := hw.block a p e hg
  have hm := m_of_get hg
  obtain ⟨table, htable⟩ := Table.free_of_read ((Table.read_unlink p.addr p.addr).trans hr)
  have hdata : Heap.read ({ pool with table := pool.table.unlink p.addr } : Pool).data e.m =
      some bytes := by rw [hm]; exact hbytes
  obtain ⟨b, hb, hrel⟩ := releaseData_ok { pool with table := pool.table.unlink p.addr } hdata
  have hwf := (Table.find_remove hw.table (mem_of_get hg) hr htable).1
  have hget : ∀ x, table.get MgnMemory.m x = if x = a then none else pool.get x := by
    intro x
    rw [← hm]
    exact Table.get_remove hw.table (mem_of_get hg) hr htable
  subst hm
  refine ⟨⟨table, pool.data.drop e.m b hb, pool.copies⟩, ?_,
    ⟨⟨_, hg⟩, ⟨hwf, fun x q f hx => ?_⟩, hget,
    ⟨b, hb, rfl⟩, ?_, fun ho => ho.remove htable⟩, Table.chain_free htable⟩
  · simp only [removeEntry, Table.read_unlink, hr, orFault, ok_bind, hrel, releaseEntry, htable]
    rfl
  · have hx' : table.get MgnMemory.m x = some (q, f) := hx
    rw [hget x] at hx'
    split at hx'
    · cases hx'
    · next hne =>
      obtain ⟨c, hc⟩ := hw.block x q f hx'
      exact ⟨c, (Heap.read_drop_of_ne hb hne).trans hc⟩
  · obtain ⟨c, hc, rfl⟩ := Table.free_eq_some.mp htable
    rfl

/-! ## A new entry -/

/-- An address that the allocator can give out. -/
abbrev Fresh {β : Type} (heap : Heap β) (a : Addr) : Prop := a ≠ NULL ∧ heap.cells a = none

/-- The pool with a new entry and a new data block. -/
def added (pool : Pool) (newSize : UInt64) (nodeMem dataMem : Addr) (bytes : List UInt8)
    (copies : List BlockCopy) (hn : Fresh pool.table.heap nodeMem) (hd : Fresh pool.data dataMem) :
    Pool :=
  ⟨pool.table.insert nodeMem ⟨dataMem, newSize, 1⟩ hn, pool.data.put dataMem bytes hd, copies⟩

/-- The pool between the allocations of `addEntry` and the filling of the block. -/
def allocated (pool : Pool) (newSize : UInt64) (nodeMem dataMem : Addr)
    (hn : Fresh pool.table.heap nodeMem) (hd : Fresh pool.data dataMem) : Pool :=
  { pool with table := pool.table.alloc nodeMem ⟨NULL, 0, 0⟩ hn
              data := pool.data.put dataMem (zeroBytes newSize) hd }

theorem addEntry_ok {clone : Addr → Pool → Except Fault Pool} {copies : List BlockCopy}
    (hn : Fresh pool.table.heap nodeMem) (hd : Fresh pool.data dataMem)
    (hclone : clone dataMem (pool.allocated newSize nodeMem dataMem hn hd) =
      .ok { pool.allocated newSize nodeMem dataMem hn hd with
            data := pool.data.put dataMem bytes hd, copies := copies }) :
    pool.addEntry newSize nodeMem dataMem clone =
      .ok (pool.added newSize nodeMem dataMem bytes copies hn hd, dataMem) := by
  unfold allocated at hclone
  simp only [addEntry]
  rw [dif_pos hn]
  simp only [Heap.malloc_of_free hd, if_neg hd.1, hclone, ok_bind]
  rw [added, ← Table.store_alloc ⟨NULL, 0, 0⟩ hn]
  rfl

theorem get_added (newSize : UInt64) (bytes : List UInt8) (copies : List BlockCopy)
    (hw : pool.WF) (hn : Fresh pool.table.heap nodeMem)
    (hd : Fresh pool.data dataMem) (x : Addr) :
    (pool.added newSize nodeMem dataMem bytes copies hn hd).get x =
      if x = dataMem then some (⟨nodeMem, pool.table.heap.next⟩, ⟨dataMem, newSize, 1⟩)
      else pool.get x :=
  Table.get_insert hw.table hn (Table.get_eq_none.mp (get_of_free hw hd.2))

theorem wf_added {copies : List BlockCopy} (hw : pool.WF) (hn : Fresh pool.table.heap nodeMem)
    (hd : Fresh pool.data dataMem) :
    (pool.added newSize nodeMem dataMem bytes copies hn hd).WF := by
  refine ⟨hw.table.insert hn (Table.get_eq_none.mp (get_of_free hw hd.2)), fun x q f hx => ?_⟩
  rw [get_added newSize bytes copies hw] at hx
  split at hx
  · next hxd =>
    rw [hxd]
    exact ⟨bytes, Heap.read_put_self hd⟩
  · next hxd =>
    obtain ⟨c, hc⟩ := hw.block x q f hx
    exact ⟨c, (Heap.read_put_of_ne hd hxd).trans hc⟩

/-- A failed allocation in `addEntry` leaves the entries and the blocks as they were. -/
theorem addEntry_oom (newSize : UInt64) (clone : Addr → Pool → Except Fault Pool)
    (hoom : ¬ (Fresh pool.table.heap nodeMem ∧ Fresh pool.data dataMem)) :
    ∃ table,
      pool.addEntry newSize nodeMem dataMem clone = .ok ({ pool with table := table }, NULL) ∧
      table.chain = pool.table.chain ∧ table.heap.cells = pool.table.heap.cells := by
  by_cases hn : Fresh pool.table.heap nodeMem
  · have hd : ¬ Fresh pool.data dataMem := fun hd => hoom ⟨hn, hd⟩
    have hr : (pool.table.alloc nodeMem ⟨NULL, 0, 0⟩ hn).heap.read nodeMem = some ⟨NULL, 0, 0⟩ :=
      Heap.read_put_self hn
    obtain ⟨table, htable⟩ := Table.free_of_read hr
    refine ⟨table, ?_, (Table.chain_free htable).trans rfl, ?_⟩
    · simp only [addEntry]
      rw [dif_pos hn]
      simp only [Heap.malloc_of_not_free hd, if_true, releaseEntry, htable, orFault, ok_bind]
      rfl
    · obtain ⟨b, hb, rfl⟩ := Table.free_eq_some.mp htable
      exact Heap.cells_drop_put hn hb
  · refine ⟨pool.table, ?_, rfl, rfl⟩
    simp only [addEntry]
    rw [dif_neg hn]

/-! ## The copy between data blocks -/

theorem copyData_put {src : List UInt8} (newSize size : UInt64) (hd : Fresh pool.data dataMem)
    (hs : pool.data.read a = some src) (table : Table MgnMemory) :
    copyData dataMem a size ⟨table, pool.data.put dataMem (zeroBytes newSize) hd, pool.copies⟩ =
      .ok ⟨table, pool.data.put dataMem (platMemCopy (zeroBytes newSize) src size) hd,
        ⟨(zeroBytes newSize).length, src.length, size⟩ :: pool.copies⟩ := by
  have hne : a ≠ dataMem := Heap.ne_of_read hd hs
  have hs' : (pool.data.put dataMem (zeroBytes newSize) hd).read a = some src :=
    (Heap.read_put_of_ne hd hne).trans hs
  simp only [copyData, Heap.read_put_self, hs', orFault, ok_bind, Heap.write_put]
  rfl

/-! ## Growth of a sole owner's block -/

/-- The pool after the growth: the entry has a new block and a new key. -/
def grown (pool : Pool) (p : Ptr) (e : MgnMemory) (newSize : UInt64) (dataMem : Addr)
    (bytes : List UInt8) (copies : List BlockCopy) (hd : Fresh pool.data dataMem)
    (b : Block (List UInt8)) (hb : (pool.data.put dataMem bytes hd).cells e.m = some b) : Pool :=
  ⟨((pool.table.unlink p.addr).store p.addr { e with m := dataMem, s := newSize }).link p.addr,
    (pool.data.put dataMem bytes hd).drop e.m b hb, copies⟩

theorem rallocSole_ok (newSize : UInt64) (hw : pool.WF) (hg : pool.get a = some (p, e))
    (hd : Fresh pool.data dataMem) :
    ∃ src b, ∃ hb, pool.data.read a = some src ∧ pool.data.cells a = some b ∧
      rallocSole p.addr e newSize dataMem pool =
        .ok (pool.grown p e newSize dataMem (platMemCopy (zeroBytes newSize) src e.s)
          (⟨(zeroBytes newSize).length, src.length, e.s⟩ :: pool.copies) hd b hb, dataMem) := by
  obtain ⟨src, hs⟩ := hw.block a p e hg
  have hm := m_of_get hg
  subst hm
  have hne : e.m ≠ dataMem := Heap.ne_of_read hd hs
  have hcopy := copyData_put newSize e.s hd hs (pool.table.unlink p.addr)
  have hs' : (pool.data.put dataMem (platMemCopy (zeroBytes newSize) src e.s) hd).read e.m =
      some src := (Heap.read_put_of_ne hd hne).trans hs
  obtain ⟨b, hb, hrel⟩ := releaseData_ok ⟨pool.table.unlink p.addr,
    pool.data.put dataMem (platMemCopy (zeroBytes newSize) src e.s) hd,
    ⟨(zeroBytes newSize).length, src.length, e.s⟩ :: pool.copies⟩ hs'
  refine ⟨src, b, hb, hs, (Heap.cells_put_of_ne hd hne).symm.trans hb, ?_⟩
  simp only [rallocSole, Heap.malloc_of_free hd, if_neg hd.1, hcopy, ok_bind, hrel]
  rfl

theorem get_grown (newSize : UInt64) (bytes : List UInt8) (copies : List BlockCopy)
    (hw : pool.WF) (hg : pool.get a = some (p, e))
    (hd : Fresh pool.data dataMem) (b) (hb) (x : Addr) :
    (pool.grown p e newSize dataMem bytes copies hd b hb).get x =
      if x = dataMem then some (p, { e with m := dataMem, s := newSize })
      else if x = a then none else pool.get x :=
  (Table.get_rekey x hw.table hg (get_of_free hw hd.2)).2

theorem wf_grown {copies : List BlockCopy} (hw : pool.WF) (hg : pool.get a = some (p, e))
    (hd : Fresh pool.data dataMem) {b} {hb} :
    (pool.grown p e newSize dataMem bytes copies hd b hb).WF := by
  have hm := m_of_get hg
  subst hm
  obtain ⟨src, hs⟩ := hw.block _ p e hg
  have hne : e.m ≠ dataMem := Heap.ne_of_read hd hs
  refine ⟨(Table.get_rekey dataMem hw.table hg (get_of_free hw hd.2)).1, fun x q f hx => ?_⟩
  rw [get_grown newSize bytes copies hw hg] at hx
  split at hx
  · next hxd =>
    rw [hxd]
    exact ⟨bytes, (Heap.read_drop_of_ne hb hne.symm).trans (Heap.read_put_self hd)⟩
  · next hxd =>
    split at hx
    · cases hx
    · next hxa =>
      obtain ⟨c, hc⟩ := hw.block x q f hx
      exact ⟨c, (Heap.read_drop_of_ne hb hxa).trans ((Heap.read_put_of_ne hd hxd).trans hc)⟩

/-- A failed growth has already unlinked the entry. -/
theorem rallocSole_oom (hd : ¬ Fresh pool.data dataMem) :
    rallocSole p.addr e newSize dataMem pool =
      .ok ({ pool with table := pool.table.unlink p.addr }, NULL) := by
  simp only [rallocSole, Heap.malloc_of_not_free hd, if_true]

/-! ## The cases of `mgn_mem_ralloc` -/

theorem ralloc_zero : pool.ralloc originMem 0 nodeMem dataMem = .ok (pool, NULL) := if_pos rfl

theorem ralloc_none (nodeMem dataMem : Addr) (hn : newSize ≠ 0) (hg : pool.get originMem = none) :
    pool.ralloc originMem newSize nodeMem dataMem =
      if originMem ≠ NULL then .ok (pool, NULL)
      else addEntry newSize nodeMem dataMem (fun _ pool => .ok pool) pool := by
  rw [ralloc, if_neg hn, Table.get_eq_none.mp hg]

theorem ralloc_some (nodeMem dataMem : Addr) (hn : newSize ≠ 0)
    (hg : pool.get originMem = some (p, e)) :
    pool.ralloc originMem newSize nodeMem dataMem =
      if newSize > e.s then
        if e.r = 1 then rallocSole p.addr e newSize dataMem pool
        else rallocShared p.addr e originMem newSize nodeMem dataMem pool
      else .ok (pool, originMem) := by
  obtain ⟨hf, hr⟩ := find_of_get hg
  have hm := m_of_get hg
  rw [ralloc, if_neg hn, hf]
  simp only [hr, orFault, ok_bind, hm]
  rfl

/-- The entry after its owner gave up the ownership. -/
def givenUp (e : MgnMemory) : MgnMemory := if e.r > 0 then { e with r := e.r - 1 } else e

/-- The pool in which `rallocShared` allocates. -/
def shared (pool : Pool) (mgnM : Addr) (e : MgnMemory) : Pool :=
  if e.r > 0 then { pool with table := pool.table.store mgnM { e with r := e.r - 1 } } else pool

theorem touched_self (hw : pool.WF) (hg : pool.get a = some (p, e)) : Touched pool pool a p e := by
  refine ⟨hw, fun x => ?_, rfl, rfl, rfl, fun h => h⟩
  split
  · next hx => rw [hx, hg]
  · rfl

theorem shared_touched (hw : pool.WF) (hg : pool.get a = some (p, e)) :
    Touched pool (pool.shared p.addr e) a p (givenUp e) := by
  unfold shared givenUp
  split
  · exact touched _ hw hg rfl
  · exact touched_self hw hg

theorem fresh_shared :
    Fresh (pool.shared x e).table.heap nodeMem ↔ Fresh pool.table.heap nodeMem := by
  unfold shared
  split
  · exact and_congr_right fun _ => Heap.write_cells_eq_none
  · exact Iff.rfl

theorem copies_shared : (pool.shared x e).copies = pool.copies := by
  unfold shared
  split <;> rfl

theorem rallocShared_eq : rallocShared x e originMem newSize nodeMem dataMem pool =
    addEntry newSize nodeMem dataMem (fun newM => copyData newM originMem e.s) (pool.shared x e) :=
  rfl

theorem rallocShared_ok (newSize : UInt64) (hw : pool.WF) (hg : pool.get a = some (p, e))
    (hn : Fresh (pool.shared p.addr e).table.heap nodeMem)
    (hd : Fresh (pool.shared p.addr e).data dataMem) :
    ∃ src, pool.data.read a = some src ∧
      rallocShared p.addr e a newSize nodeMem dataMem pool =
        .ok ((pool.shared p.addr e).added newSize nodeMem dataMem
          (platMemCopy (zeroBytes newSize) src e.s)
          (⟨(zeroBytes newSize).length, src.length, e.s⟩ :: pool.copies) hn hd, dataMem) := by
  obtain ⟨src, hs⟩ := hw.block a p e hg
  have hs' : (pool.shared p.addr e).data.read a = some src := by
    rw [(shared_touched hw hg).data]
    exact hs
  refine ⟨src, hs, ?_⟩
  rw [rallocShared_eq]
  refine addEntry_ok hn hd ?_
  rw [← copies_shared]
  exact copyData_put newSize e.s hd hs' _

/-! ## The effects of `mgn_mem_ralloc` -/

/-- The same entries in the same order, with the same keys, sizes and counts, and the same
allocated blocks with the same bytes. -/
structure SamePool (pool pool' : Pool) : Prop where
  chain : pool'.table.chain = pool.table.chain
  entries : pool'.table.heap.cells = pool.table.heap.cells
  blocks : pool'.data.cells = pool.data.cells

theorem samePool_refl : SamePool pool pool := ⟨rfl, rfl, rfl⟩

theorem get_congr (h : SamePool pool pool') (x : Addr) : pool'.get x = pool.get x := by
  have hread : ∀ y, pool'.table.heap.read y = pool.table.heap.read y := fun y => by
    rw [Heap.read, h.entries, Heap.read]
  have hfind : pool'.table.find MgnMemory.m x = pool.table.find MgnMemory.m x :=
    Table.find_congr h.chain fun y _ => by rw [Table.keyAt, hread, Table.keyAt]
  have hentry : ∀ y, pool'.table.heap.entry y = pool.table.heap.entry y := fun y => by
    rw [Heap.entry, h.entries, Heap.entry]
  rw [get, get, Table.get, Table.get, hfind]
  exact congrArg _ (funext hentry)

theorem wf_congr (h : SamePool pool pool') (hw : pool.WF) : pool'.WF := by
  have hread : ∀ y, pool'.table.heap.read y = pool.table.heap.read y := fun y => by
    rw [Heap.read, h.entries, Heap.read]
  refine ⟨hw.table.congr h.chain fun y _ => by rw [Table.keyAt, hread, Table.keyAt],
    fun x p e hg => ?_⟩
  rw [get_congr h] at hg
  obtain ⟨bytes, hb⟩ := hw.block x p e hg
  exact ⟨bytes, by rw [Heap.read, h.blocks, ← Heap.read, hb]⟩

theorem wf_unlink (hw : pool.WF) (hg : pool.get a = some (p, e)) :
    WF { pool with table := pool.table.unlink p.addr } := by
  refine ⟨hw.table.unlink p.addr, fun x q f hx => ?_⟩
  have hx' := (Table.get_unlink hw.table (mem_of_get hg) (find_of_get hg).2).symm.trans hx
  split at hx'
  · cases hx'
  · exact hw.block x q f hx'

/-- What a call of `mgn_mem_ralloc` does to the pool, and its answer. -/
inductive RallocEffect (pool : Pool) (originMem : Addr) (newSize : UInt64)
    (nodeMem dataMem : Addr) : Pool → Addr → Prop
  | zero : newSize = 0 → RallocEffect pool originMem newSize nodeMem dataMem pool NULL
  | unknown : newSize ≠ 0 → pool.get originMem = none → originMem ≠ NULL →
      RallocEffect pool originMem newSize nodeMem dataMem pool NULL
  | fits {p : Ptr} {e : MgnMemory} : newSize ≠ 0 → pool.get originMem = some (p, e) →
      ¬ newSize > e.s → RallocEffect pool originMem newSize nodeMem dataMem pool originMem
  | added (hn : Fresh pool.table.heap nodeMem) (hd : Fresh pool.data dataMem) :
      newSize ≠ 0 → originMem = NULL →
      RallocEffect pool originMem newSize nodeMem dataMem
        (pool.added newSize nodeMem dataMem (zeroBytes newSize) pool.copies hn hd) dataMem
  | addFailed {table : Table MgnMemory} : newSize ≠ 0 → originMem = NULL →
      ¬ (Fresh pool.table.heap nodeMem ∧ Fresh pool.data dataMem) →
      table.chain = pool.table.chain → table.heap.cells = pool.table.heap.cells →
      RallocEffect pool originMem newSize nodeMem dataMem { pool with table := table } NULL
  | grown {p : Ptr} {e : MgnMemory} {src : List UInt8} {b : Block (List UInt8)}
      (hd : Fresh pool.data dataMem) (hb) : pool.get originMem = some (p, e) →
      newSize > e.s → e.r = 1 → pool.data.read originMem = some src →
      pool.data.cells originMem = some b →
      RallocEffect pool originMem newSize nodeMem dataMem
        (pool.grown p e newSize dataMem (platMemCopy (zeroBytes newSize) src e.s)
          (⟨(zeroBytes newSize).length, src.length, e.s⟩ :: pool.copies) hd b hb) dataMem
  | growFailed {p : Ptr} {e : MgnMemory} : pool.get originMem = some (p, e) → newSize > e.s →
      e.r = 1 → ¬ Fresh pool.data dataMem →
      RallocEffect pool originMem newSize nodeMem dataMem
        { pool with table := pool.table.unlink p.addr } NULL
  | shared {p : Ptr} {e : MgnMemory} {src : List UInt8}
      (hn : Fresh (pool.shared p.addr e).table.heap nodeMem)
      (hd : Fresh (pool.shared p.addr e).data dataMem) : pool.get originMem = some (p, e) →
      newSize > e.s → e.r ≠ 1 → pool.data.read originMem = some src →
      RallocEffect pool originMem newSize nodeMem dataMem
        ((pool.shared p.addr e).added newSize nodeMem dataMem
          (platMemCopy (zeroBytes newSize) src e.s)
          (⟨(zeroBytes newSize).length, src.length, e.s⟩ :: pool.copies) hn hd) dataMem
  | shareFailed {p : Ptr} {e : MgnMemory} {table : Table MgnMemory} :
      pool.get originMem = some (p, e) → newSize > e.s → e.r ≠ 1 →
      ¬ (Fresh pool.table.heap nodeMem ∧ Fresh pool.data dataMem) →
      table.chain = (pool.shared p.addr e).table.chain →
      table.heap.cells = (pool.shared p.addr e).table.heap.cells →
      RallocEffect pool originMem newSize nodeMem dataMem
        { pool.shared p.addr e with table := table } NULL

theorem rallocSole_effect (nodeMem : Addr) (hw : pool.WF) (hg : pool.get originMem = some (p, e))
    (hs : newSize > e.s) (hr : e.r = 1) :
    ∃ pool' r, rallocSole p.addr e newSize dataMem pool = .ok (pool', r) ∧
      RallocEffect pool originMem newSize nodeMem dataMem pool' r := by
  by_cases hd : Fresh pool.data dataMem
  · obtain ⟨src, b, hb, hsrc, hcell, hok⟩ := rallocSole_ok newSize hw hg hd
    exact ⟨_, _, hok, .grown hd hb hg hs hr hsrc hcell⟩
  · exact ⟨_, _, rallocSole_oom hd, .growFailed hg hs hr hd⟩

theorem rallocShared_effect (nodeMem dataMem : Addr) (hw : pool.WF)
    (hg : pool.get originMem = some (p, e)) (hs : newSize > e.s) (hr : e.r ≠ 1) :
    ∃ pool' r, rallocShared p.addr e originMem newSize nodeMem dataMem pool = .ok (pool', r) ∧
      RallocEffect pool originMem newSize nodeMem dataMem pool' r := by
  have ht := shared_touched hw hg
  have hfresh : (Fresh (pool.shared p.addr e).table.heap nodeMem ∧
      Fresh (pool.shared p.addr e).data dataMem) ↔
        (Fresh pool.table.heap nodeMem ∧ Fresh pool.data dataMem) := by
    rw [fresh_shared, ht.data]
  by_cases h : Fresh pool.table.heap nodeMem ∧ Fresh pool.data dataMem
  · obtain ⟨hn, hd⟩ := hfresh.mpr h
    obtain ⟨src, hsrc, hok⟩ := rallocShared_ok newSize hw hg hn hd
    exact ⟨_, _, hok, .shared hn hd hg hs hr hsrc⟩
  · obtain ⟨table, hok, hchain, hcells⟩ := addEntry_oom newSize
      (fun newM => copyData newM originMem e.s) (mt hfresh.mp h)
    exact ⟨_, _, rallocShared_eq.trans hok, .shareFailed hg hs hr h hchain hcells⟩

/-- Every call answers, whatever the allocator does. -/
theorem ralloc_effect (hw : pool.WF) (originMem : Addr) (newSize : UInt64)
    (nodeMem dataMem : Addr) :
    ∃ pool' r, pool.ralloc originMem newSize nodeMem dataMem = .ok (pool', r) ∧
      RallocEffect pool originMem newSize nodeMem dataMem pool' r := by
  by_cases hz : newSize = 0
  · subst hz
    exact ⟨pool, NULL, ralloc_zero, .zero rfl⟩
  cases hg : pool.get originMem with
  | none =>
    rw [ralloc_none nodeMem dataMem hz hg]
    split
    · next ho => exact ⟨pool, NULL, rfl, .unknown hz hg ho⟩
    · next ho =>
      have ho' := not_not.mp ho
      by_cases h : Fresh pool.table.heap nodeMem ∧ Fresh pool.data dataMem
      · exact ⟨_, _, addEntry_ok h.1 h.2 rfl, .added h.1 h.2 hz ho'⟩
      · obtain ⟨table, hok, hchain, hcells⟩ := addEntry_oom newSize (fun _ pool => .ok pool) h
        exact ⟨_, _, hok, .addFailed hz ho' h hchain hcells⟩
  | some r =>
    obtain ⟨p, e⟩ := r
    rw [ralloc_some nodeMem dataMem hz hg]
    split
    · next hs =>
      split
      · next hr => exact rallocSole_effect nodeMem hw hg hs hr
      · next hr => exact rallocShared_effect nodeMem dataMem hw hg hs hr
    · next hs => exact ⟨pool, originMem, rfl, .fits hz hg hs⟩

/-! ## Retain and release -/

theorem retain_none (hg : pool.get a = none) : pool.retain a = .ok (pool, NULL) := by
  rw [retain, Table.get_eq_none.mp hg]

theorem retain_some (hg : pool.get a = some (p, e)) :
    pool.retain a =
      .ok ({ pool with table := pool.table.store p.addr { e with r := e.r + 1 } }, a) := by
  obtain ⟨hf, hr⟩ := find_of_get hg
  rw [retain, hf]
  simp only [hr, orFault, ok_bind, m_of_get hg]
  rfl

theorem release_none {release : Bool} (hg : pool.get a = none) :
    pool.release_ a release = .ok pool := by
  rw [release_, Table.get_eq_none.mp hg]

theorem release_zero {release : Bool} (hg : pool.get a = some (p, e)) (hz : e.r = 0) :
    pool.release_ a release = .ok pool := by
  obtain ⟨hf, hr⟩ := find_of_get hg
  rw [release_, hf]
  simp only [hr, orFault, ok_bind, if_pos hz]
  rfl

theorem toNat_sub_one {r : UInt64} (hz : r ≠ 0) : (r - 1).toNat = r.toNat - 1 := by
  have hpos : 0 < r.toNat := Nat.pos_of_ne_zero fun h => hz (UInt64.toNat_inj.mp h)
  rw [UInt64.toNat_sub_of_le]
  · rfl
  · exact UInt64.le_iff_toNat_le.mpr hpos

theorem release_eq (release : Bool) (hg : pool.get a = some (p, e)) (hz : e.r ≠ 0) :
    pool.release_ a release =
      if e.r = 1 ∧ release then
        removeEntry p.addr { pool with table := pool.table.store p.addr { e with r := e.r - 1 } }
      else .ok { pool with table := pool.table.store p.addr { e with r := e.r - 1 } } := by
  obtain ⟨hf, hr⟩ := find_of_get hg
  have hone : e.r - 1 = 0 ↔ e.r = 1 := by
    rw [UInt64.sub_eq_iff_eq_add, UInt64.zero_add]
  rw [release_, hf]
  simp only [hr, orFault, ok_bind, if_neg hz, hone]
  rfl

/-- A release takes the count down, and the last one of `mgn_mem_release` removes the entry. -/
theorem release_some (release : Bool) (hw : pool.WF) (hg : pool.get a = some (p, e))
    (hz : e.r ≠ 0) :
    ∃ pool', pool.release_ a release = .ok pool' ∧
      if e.r = 1 ∧ release then ∃ pool₁, Touched pool pool₁ a p { e with r := e.r - 1 } ∧
        Removed pool₁ pool' a
      else Touched pool pool' a p { e with r := e.r - 1 } := by
  have htouch := touched { e with r := e.r - 1 } hw hg rfl
  rw [release_eq release hg hz]
  split
  · have hg' := htouch.get a
    rw [if_pos rfl] at hg'
    obtain ⟨pool', hrem, hremoved, -⟩ := removeEntry_ok htouch.wf hg'
    exact ⟨pool', hrem, _, htouch, hremoved⟩
  · exact ⟨_, rfl, htouch⟩

/-! ## The walks that remove entries -/

/-- `pool'` is `pool` without the entries that are `gone` and without their blocks. -/
structure Purged (gone : Ptr × MgnMemory → Bool) (pool pool' : Pool) : Prop where
  wf : pool'.WF
  get : ∀ x, pool'.get x = (pool.get x).filter fun r => !gone r
  cells : ∀ x, pool'.data.cells x = if (pool.get x).any gone then none else pool.data.cells x
  dataNext : pool'.data.next = pool.data.next
  next : pool'.table.heap.next = pool.table.heap.next
  owned : pool.table.Owned → pool'.table.Owned

theorem purged_none (hw : pool.WF) : Purged (fun _ => false) pool pool := by
  refine ⟨hw, fun x => ?_, fun x => ?_, rfl, rfl, fun h => h⟩
  · cases pool.get x <;> rfl
  · cases pool.get x <;> rfl

theorem Purged.congr {gone gone' : Ptr × MgnMemory → Bool} (h : Purged gone pool pool')
    (hsame : ∀ x r, pool.get x = some r → gone r = gone' r) : Purged gone' pool pool' := by
  refine ⟨h.wf, fun x => ?_, fun x => ?_, h.dataNext, h.next, h.owned⟩
  · rw [h.get x]
    cases hg : pool.get x with
    | none => rfl
    | some r => simp only [Option.filter, hsame x r hg]
  · rw [h.cells x]
    cases hg : pool.get x with
    | none => rfl
    | some r => simp only [Option.any, hsame x r hg]

theorem Purged.comp {gone₁ gone₂ : Ptr × MgnMemory → Bool} {pool₁ pool₂ : Pool}
    (h₁ : Purged gone₁ pool pool₁) (h₂ : Purged gone₂ pool₁ pool₂) :
    Purged (fun r => gone₁ r || gone₂ r) pool pool₂ := by
  refine ⟨h₂.wf, fun x => ?_, fun x => ?_, h₂.dataNext.trans h₁.dataNext, h₂.next.trans h₁.next,
    fun h => h₂.owned (h₁.owned h)⟩
  · rw [h₂.get x, h₁.get x]
    cases hg : pool.get x with
    | none => rfl
    | some r => cases hr : gone₁ r <;> simp [Option.filter, hr]
  · rw [h₂.cells x, h₁.get x, h₁.cells x]
    cases hg : pool.get x with
    | none => rfl
    | some r => cases hr : gone₁ r <;> simp [Option.filter, hr]

theorem Removed.purged (h : Removed pool pool' a) :
    Purged (fun r => decide (r.2.m = a)) pool pool' := by
  obtain ⟨b, hb, hdata⟩ := h.data
  obtain ⟨r₀, hr₀⟩ := h.found
  have hm : ∀ x r, pool.get x = some r → r.2.m = x := fun x r hg => m_of_get hg
  refine ⟨h.wf, fun x => ?_, fun x => ?_, by rw [hdata]; rfl, h.next, h.owned⟩
  · rw [h.get x]
    cases hg : pool.get x with
    | none => exact ite_self _
    | some r => by_cases hx : x = a <;> simp [Option.filter, hm x r hg, hx]
  · rw [hdata]
    by_cases hx : x = a
    · subst hx
      simp [Heap.cells_drop_self, hr₀, hm x r₀ hr₀]
    · rw [Heap.cells_drop_of_ne hb hx]
      cases hg : pool.get x with
      | none => rfl
      | some r => simp [hm x r hg, hx]

theorem purgeLoop_ok (cond : MgnMemory → Bool) (todo : List Addr) (hw : pool.WF)
    (hnd : todo.Nodup) (hsub : ∀ x ∈ todo, x ∈ pool.table.chain) :
    ∃ pool', purgeLoop cond todo pool = .ok pool' ∧
      Purged (fun r => decide (r.1.addr ∈ todo) && cond r.2) pool pool' := by
  induction todo generalizing pool with
  | nil => exact ⟨pool, rfl, (purged_none hw).congr fun x r _ => by simp⟩
  | cons y rest ih =>
    obtain ⟨hy, hnd'⟩ := List.nodup_cons.mp hnd
    obtain ⟨p, e, hg, hpy⟩ := get_of_mem hw (hsub y List.mem_cons_self)
    obtain ⟨-, hr⟩ := find_of_get hg
    rw [hpy] at hr
    -- the entry at `y` is the one with the key `e.m`
    have hkey : ∀ x r, pool.get x = some r → (r.1.addr = y ↔ r.2.m = e.m) := by
      intro x r hx
      have hm := m_of_get hx
      constructor
      · intro hry
        obtain ⟨-, hr'⟩ := find_of_get hx
        rw [hry, hr] at hr'
        cases hr'
        rfl
      · intro hre
        rw [← hm, hre, hg] at hx
        cases hx
        exact hpy
    have hcond : ∀ x r, pool.get x = some r → r.1.addr = y → r.2 = e := by
      intro x r hx hry
      obtain ⟨-, hr'⟩ := find_of_get hx
      rw [hry, hr] at hr'
      exact (Option.some.inj hr').symm
    -- the removal is composed with the rest of the walk
    by_cases hc : cond e = true
    · obtain ⟨pool₁, hrem, hremoved, hchain⟩ := removeEntry_ok hw hg
      rw [hpy] at hrem hchain
      have hsub' : ∀ x ∈ rest, x ∈ pool₁.table.chain := by
        intro x hx
        have hxy : x ≠ y := by
          rintro rfl
          exact hy hx
        rw [hchain]
        exact (List.mem_erase_of_ne hxy).mpr (hsub x (List.mem_cons_of_mem _ hx))
      obtain ⟨pool', hloop, hpurged⟩ := ih hremoved.wf hnd' hsub'
      refine ⟨pool', ?_, (hremoved.purged.comp hpurged).congr fun x r hx => ?_⟩
      · simp only [purgeLoop, hr, orFault, ok_bind, if_pos hc, hrem, hloop]
      · by_cases hry : r.1.addr = y
        · simp [hry, hcond x r hx hry, hc]
        · have hne : r.2.m ≠ e.m := fun h => hry ((hkey x r hx).mpr h)
          simp [hry, hne]
    · obtain ⟨pool', hloop, hpurged⟩ :=
        ih hw hnd' fun x hx => hsub x (List.mem_cons_of_mem _ hx)
      refine ⟨pool', ?_, hpurged.congr fun x r hx => ?_⟩
      · simp only [purgeLoop, hr, orFault, ok_bind, if_neg hc, hloop]
      · by_cases hry : r.1.addr = y
        · simp [hry, hcond x r hx hry, hc]
        · simp [hry]

theorem purge_ok (cond : MgnMemory → Bool) (hw : pool.WF) :
    ∃ pool', purgeLoop cond pool.table.chain pool = .ok pool' ∧
      Purged (fun r => cond r.2) pool pool' := by
  obtain ⟨pool', hloop, hpurged⟩ :=
    purgeLoop_ok cond pool.table.chain hw hw.table.nodup fun _ hx => hx
  exact ⟨pool', hloop, hpurged.congr fun x r hx => by simp [mem_of_get hx]⟩

end ShellJs.Pool
