import ShellJs.Basic

/-!
# The resource manager (`js-clib/common.c`, "resource")

A manager is a table of `struct res_` blocks keyed by `id`, a counter `last_id` and
a mutex. The data that follows the header of `struct res_` belongs to the client, so
the model is generic in its type `α`: bytes, a `struct file_handle` or a `thread`.

Every function takes the mutex, works on the table and gives the mutex back
(`withLock`). The allocator's answer is the argument `mem`: the address where
`malloc` puts the new block, or an address that cannot be given out, which stands
for a failed allocation.
-/

namespace ShellJs

/-- `struct res_`: the header's `id` and the client's `data`. -/
structure Res (α : Type) where
  id : CInt
  data : α

/-- `struct res_mgn_`. -/
structure ResMgn (α : Type) where
  lastId : CInt
  table : Table (Res α)
  locked : Bool

/-- `sizeof(struct res_)`: the id with its padding and the hash handle. -/
def sizeofRes : UInt64 := 64

/-- The bytes for the client's data in the block that `res_create(size)` allocates. -/
def resRoom (size : UInt64) : Nat := platMemSize (sizeofRes + size) - sizeofRes.toNat

namespace ResMgn

variable {α σ ρ : Type}

/-- `res_create_management`: `plat_mem_allocate` zeroes the record. -/
def resCreateManagement : ResMgn α := ⟨0, Table.empty, false⟩

/-- `pthread_mutex_lock`, the critical section, `pthread_mutex_unlock`. -/
def withLock (mgn : ResMgn α) (f : ResMgn α → Except Fault (ResMgn α × ρ)) :
    Except Fault (ResMgn α × ρ) :=
  if mgn.locked then .error .deadlock
  else
    match f { mgn with locked := true } with
    | .ok (mgn', r) => .ok ({ mgn' with locked := false }, r)
    | .error e => .error e

/-- The loop of `res_create`: `id = mgn->last_id++`, until `HASH_FIND_INT` finds no
resource with that id. `none` when the probes given did not suffice. -/
def probe : Nat → ResMgn α → Option (ResMgn α × CInt)
  | 0, _ => none
  | n + 1, mgn =>
    let id := mgn.lastId
    let mgn := { mgn with lastId := mgn.lastId + 1 }
    match mgn.table.find Res.id id with
    | none => some (mgn, id)
    | some _ => probe n mgn

/-- `res_create`: the id and the pointer to the data. `zero` is the client's data in
a zeroed block. One probe more than there are resources decides the loop: if they
all hit, every id is taken (`probe_of_firstFree`) and the source never leaves it. -/
def resCreate (zero : α) (mem : Addr) (mgn : ResMgn α) :
    Except Fault (ResMgn α × CInt × Ptr) :=
  mgn.withLock fun mgn =>
    match mgn.probe (mgn.table.chain.length + 1) with
    | none => .error .diverges
    | some (mgn, id) =>
      if ha : mem ≠ NULL ∧ mgn.table.heap.cells mem = none then
        .ok ({ mgn with table := mgn.table.insert mem ⟨id, zero⟩ ha }, id,
          ⟨mem, mgn.table.heap.next⟩)
      else .error .outOfMemory

/-- A store through the pointer to a resource's data, by the code that holds it. -/
def modify (f : α → α) (resource : Ptr) (mgn : ResMgn α) : Except Fault (ResMgn α) :=
  match mgn.table.heap.deref resource with
  | none => .error .badPointer
  | some res =>
    .ok { mgn with table := mgn.table.store resource.addr { res with data := f res.data } }

/-- The rest of `res_create_and_clone` after `res_create` returned `id` and the
pointer `resource`: `plat_mem_copy`, whose effect on the data is `clone`. -/
def cloneCopy (clone : α → α) (id : CInt) (resource : Ptr) (mgn : ResMgn α) :
    Except Fault (ResMgn α) :=
  if 0 ≤ id.toInt then mgn.modify clone resource else .ok mgn

/-- `res_create_and_clone`. -/
def resCreateAndClone (zero : α) (clone : α → α) (mem : Addr) (mgn : ResMgn α) :
    Except Fault (ResMgn α × CInt) := do
  let (mgn, id, resource) ← mgn.resCreate zero mem
  let mgn ← mgn.cloneCopy clone id resource
  return (mgn, id)

/-- `res_get`: the pointer to the data, or `nil`. -/
def resGet (id : CInt) (mgn : ResMgn α) : Except Fault (ResMgn α × Option Ptr) :=
  mgn.withLock fun mgn => .ok (mgn, (mgn.table.get Res.id id).map Prod.fst)

/-- `res_release`. -/
def resRelease (id : CInt) (mgn : ResMgn α) : Except Fault (ResMgn α × Unit) :=
  mgn.withLock fun mgn =>
    match mgn.table.find Res.id id with
    | none => .ok (mgn, ())
    | some res =>
      match (mgn.table.unlink res).free res with
      | none => .error .badFree
      | some table => .ok ({ mgn with table := table }, ())

/-- The loop of `res_release_all` over the resources that are left: `HASH_DEL`, the
callback, `plat_mem_release`. `HASH_ITER` reads the successor before the body runs,
so the walk is over the chain as it was. -/
def releaseLoop (callback : CInt → α → σ → Except Fault σ) :
    List Addr → Table (Res α) → σ → Except Fault (Table (Res α) × σ)
  | [], table, user => .ok (table, user)
  | res :: rest, table, user =>
    match table.heap.read res with
    | none => .error .badPointer
    | some r => do
      let user ← callback r.id r.data user
      let table ← orFault .badFree ((table.unlink res).free res)
      releaseLoop callback rest table user

/-- `res_release_all`. -/
def resReleaseAll (callback : CInt → α → σ → Except Fault σ) (user : σ) (mgn : ResMgn α) :
    Except Fault (ResMgn α × σ) :=
  mgn.withLock fun mgn => do
    let (table, user) ← releaseLoop callback mgn.table.chain mgn.table user
    return ({ mgn with table := table }, user)

/-- `res_any`: the walk assigns every resource's id, so the last one stays. -/
def resAny (mgn : ResMgn α) : Except Fault (ResMgn α × CInt) :=
  mgn.withLock fun mgn =>
    .ok (mgn,
      mgn.table.chain.foldl (fun id res => ((mgn.table.heap.read res).map Res.id).getD id) (-1))

end ResMgn

end ShellJs
