import ShellJs.Basic

/-!
# The managed memory pool (`platform/plat_mgn_mem.h`)

A pool is a hash table of `mgn_memory` entries keyed by the address `m` of the data
block that the entry manages. The entries and the data blocks are in two heaps. A
call that may allocate takes the two addresses that the allocator would answer, one
for an entry and one for a data block; an address that cannot be given out stands for
a failed allocation.
-/

namespace ShellJs

/-- `mgn_memory`: the data block, its size and its retained count. -/
structure MgnMemory where
  m : Addr
  s : UInt64
  r : UInt64

/-- A copy between data blocks: the bytes of either block and the size asked for. -/
structure BlockCopy where
  dest : Nat
  src : Nat
  size : UInt64

structure Pool where
  table : Table MgnMemory
  data : Heap (List UInt8)
  /-- ghost: the copies made so far, the latest first -/
  copies : List BlockCopy

namespace Pool

def empty : Pool := ⟨Table.empty, Heap.empty, []⟩

/-- The entry for the data block at `a`, as `HASH_FIND_PTR` finds it. -/
def get (pool : Pool) (a : Addr) : Option (Ptr × MgnMemory) := pool.table.get MgnMemory.m a

/-- `plat_mem_release` of a data block. -/
def releaseData (m : Addr) (pool : Pool) : Except Fault Pool :=
  if m = NULL then .ok pool
  else do
    let data ← orFault .badFree (pool.data.free m)
    return { pool with data := data }

/-- `plat_mem_release` of an entry. -/
def releaseEntry (mgnM : Addr) (pool : Pool) : Except Fault Pool := do
  let table ← orFault .badFree (pool.table.free mgnM)
  return { pool with table := table }

/-- `plat_mem_copy` between two data blocks. -/
def copyData (dest src : Addr) (size : UInt64) (pool : Pool) : Except Fault Pool := do
  let old ← orFault .badPointer (pool.data.read dest)
  let bytes ← orFault .badPointer (pool.data.read src)
  return { pool with data := pool.data.write dest (platMemCopy old bytes size)
                     copies := ⟨old.length, bytes.length, size⟩ :: pool.copies }

/-! ## `mgn_mem_ralloc` -/

/-- The sole owner grows its block: the entry gets a new block and a new key. -/
def rallocSole (mgnM : Addr) (e : MgnMemory) (newSize : UInt64) (dataMem : Addr) (pool : Pool) :
    Except Fault (Pool × Addr) :=
  let pool := { pool with table := pool.table.unlink mgnM }
  let (data, newM) := pool.data.malloc dataMem (zeroBytes newSize)
  if newM = NULL then .ok (pool, NULL)
  else do
    let pool ← copyData newM e.m e.s { pool with data := data }
    let pool ← releaseData e.m pool
    let table := pool.table.store mgnM { e with m := newM, s := newSize }
    return ({ pool with table := table.link mgnM }, newM)

/-- A new entry with a new block, which `clone` fills. -/
def addEntry (newSize : UInt64) (nodeMem dataMem : Addr) (clone : Addr → Pool → Except Fault Pool)
    (pool : Pool) : Except Fault (Pool × Addr) :=
  if ha : nodeMem ≠ NULL ∧ pool.table.heap.cells nodeMem = none then
    let pool := { pool with table := pool.table.alloc nodeMem ⟨NULL, 0, 0⟩ ha }
    let (data, newM) := pool.data.malloc dataMem (zeroBytes newSize)
    if newM = NULL then do
      let pool ← releaseEntry nodeMem pool
      return (pool, NULL)
    else do
      let pool ← clone newM { pool with data := data }
      let table := pool.table.store nodeMem ⟨newM, newSize, 1⟩
      return ({ pool with table := table.link nodeMem }, newM)
  else .ok (pool, NULL)

/-- One of several owners wants a larger block, or the owner of a block whose count is
already zero: the count goes down if it can, and the block is cloned into a new entry. -/
def rallocShared (mgnM : Addr) (e : MgnMemory) (originMem : Addr) (newSize : UInt64)
    (nodeMem dataMem : Addr) (pool : Pool) : Except Fault (Pool × Addr) :=
  let pool :=
    if e.r > 0 then { pool with table := pool.table.store mgnM { e with r := e.r - 1 } } else pool
  addEntry newSize nodeMem dataMem (fun newM => copyData newM originMem e.s) pool

/-- `mgn_mem_ralloc`. -/
def ralloc (originMem : Addr) (newSize : UInt64) (nodeMem dataMem : Addr) (pool : Pool) :
    Except Fault (Pool × Addr) :=
  if newSize = 0 then .ok (pool, NULL)
  else
    match pool.table.find MgnMemory.m originMem with
    | some mgnM => do
      let e ← orFault .badPointer (pool.table.heap.read mgnM)
      if newSize > e.s then
        if e.r = 1 then rallocSole mgnM e newSize dataMem pool
        else rallocShared mgnM e originMem newSize nodeMem dataMem pool
      else return (pool, e.m)
    | none =>
      if originMem ≠ NULL then .ok (pool, NULL)
      else addEntry newSize nodeMem dataMem (fun _ pool => .ok pool) pool

/-- `mgn_mem_alloc`. -/
def alloc (newSize : UInt64) (nodeMem dataMem : Addr) (pool : Pool) : Except Fault (Pool × Addr) :=
  pool.ralloc NULL newSize nodeMem dataMem

/-! ## Retain and release -/

/-- `mgn_mem_retain`. -/
def retain (originMem : Addr) (pool : Pool) : Except Fault (Pool × Addr) :=
  match pool.table.find MgnMemory.m originMem with
  | some mgnM => do
    let e ← orFault .badPointer (pool.table.heap.read mgnM)
    return ({ pool with table := pool.table.store mgnM { e with r := e.r + 1 } }, e.m)
  | none => .ok (pool, NULL)

/-- `HASH_DEL`, and the release of the data block and of the entry. -/
def removeEntry (mgnM : Addr) (pool : Pool) : Except Fault Pool := do
  let pool := { pool with table := pool.table.unlink mgnM }
  let e ← orFault .badPointer (pool.table.heap.read mgnM)
  let pool ← releaseData e.m pool
  releaseEntry mgnM pool

/-- `_mgn_mem_release`. -/
def release_ (originMem : Addr) (release : Bool) (pool : Pool) : Except Fault Pool :=
  match pool.table.find MgnMemory.m originMem with
  | some mgnM => do
    let e ← orFault .badPointer (pool.table.heap.read mgnM)
    if e.r = 0 then return pool
    else
      let pool := { pool with table := pool.table.store mgnM { e with r := e.r - 1 } }
      if e.r - 1 = 0 ∧ release then removeEntry mgnM pool else return pool
  | none => .ok pool

/-- `mgn_mem_release`. -/
def release (originMem : Addr) (pool : Pool) : Except Fault Pool := pool.release_ originMem true

/-- `mgn_mem_autorelease`. -/
def autorelease (originMem : Addr) (pool : Pool) : Except Fault Pool :=
  pool.release_ originMem false

/-- The loops of `mgn_mem_release_unused` and `mgn_mem_release_all`, over the entries that
are left. `HASH_ITER` reads the successor before the body runs. -/
def purgeLoop (cond : MgnMemory → Bool) : List Addr → Pool → Except Fault Pool
  | [], pool => .ok pool
  | mgnM :: rest, pool => do
    let e ← orFault .badPointer (pool.table.heap.read mgnM)
    let pool ← if cond e then removeEntry mgnM pool else .ok pool
    purgeLoop cond rest pool

/-- `mgn_mem_release_unused`. -/
def releaseUnused (pool : Pool) : Except Fault Pool :=
  purgeLoop (fun e => e.r = 0) pool.table.chain pool

/-- `mgn_mem_release_all`. -/
def releaseAll (pool : Pool) : Except Fault Pool :=
  purgeLoop (fun _ => true) pool.table.chain pool

end Pool

end ShellJs
