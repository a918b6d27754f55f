import ShellJs.Resource.Model

/-!
# Managed threads (`js-clib/common.c`, "thread" and "run")

`run` keeps a `thread` record in the resource manager `_run_res_mgn` for every thread
it starts, `run_cancel` cancels one by its `runid`, and `run_done` joins them all
before the process ends.

The model logs the calls that matter to the pthread library. A `pthread_t` block holds
the handle that `pthread_create` stored there, or none if the creation failed (its
result is not looked at). A join returns, and so does a call with a handle that is not
valid: what the library makes of it is not modelled, that it happened is in the log.
-/

namespace ShellJs

/-- The number of the thread, in the order of creation. -/
abbrev Tid := Nat

/-- `sizeof(thread)`: `inst`, `_should_free` with its padding, `_param[1]`. -/
def sizeofThread : UInt64 := 24

/-- `sizeof(void*)`. -/
def sizeofPtr : UInt64 := 8

/-- `struct thread_struct` in the data of a resource. `param` holds the bytes from
`_param` on, as many as `run` and `run_thread` store, whether or not they are within
the `room` that the block has for the record. -/
structure Thread where
  inst : Addr
  shouldFree : Bool
  param : List UInt8
  room : Nat

inductive ThreadEvent
  /-- `pthread_create` succeeded; the bytes are those that the thread's argument points to. -/
  | started (tid : Tid) (param : List UInt8)
  | join (handle : Option Tid)
  | cancel (handle : Option Tid)
  /-- `res_release` of the record. -/
  | released (rid : CInt)
  /-- `res_release_management` with this many records left in the table. -/
  | managementReleased (left : Nat)

/-- The blocks of type `pthread_t`, and the pthread library as far as it is seen. -/
structure Threads where
  insts : Heap (Option Tid)
  started : Tid
  /-- the calls so far, the latest first -/
  log : List ThreadEvent

def Threads.note (e : ThreadEvent) (threads : Threads) : Threads :=
  { threads with log := e :: threads.log }

/-- The state of `common.c`: the static `_run_res_mgn` and the threads. -/
structure RunState where
  runResMgn : Option (ResMgn Thread)
  threads : Threads

namespace RunState

/-- The process starts with no manager and no thread. -/
def init : RunState := ⟨none, ⟨Heap.empty, 0, []⟩⟩

/-! ## Threads -/

/-- `pthread_create((pthread_t*)thrd->inst, NULL, func, param)`. `created` is its outcome. -/
def pthreadCreate (inst : Addr) (param : List UInt8) (created : Bool) (threads : Threads) :
    Threads :=
  if created then
    { insts := threads.insts.write inst (some threads.started)
      started := threads.started + 1
      log := .started threads.started param :: threads.log }
  else threads

/-- `run_thread` with a record in the manager: `plat_mem_set(thrd, 0, sizeof(*thrd))`, which
includes `_param[0]`, then the block for the handle and `pthread_create`. -/
def runThread (thrd : Ptr) (inst : Addr) (created : Bool) (mgn : ResMgn Thread)
    (threads : Threads) : Except Fault (ResMgn Thread × Threads) := do
  let mgn ← mgn.modify (fun t =>
    { t with inst := NULL, shouldFree := false
             param := platMemCopy t.param (zeroBytes sizeofPtr) sizeofPtr }) thrd
  let (insts, inst) := threads.insts.malloc inst none
  let mgn ← mgn.modify (fun t => { t with inst := inst }) thrd
  let res ← orFault .badPointer (mgn.table.heap.deref thrd)
  if inst = NULL then .error .outOfMemory
  else return (mgn, pthreadCreate inst res.data.param created { threads with insts := insts })

/-- `wait_thread`: `pthread_join(*(pthread_t*)thrd->inst, &ret)`. -/
def waitThread (thrd : Ptr) (mgn : ResMgn Thread) (threads : Threads) : Except Fault Threads := do
  let res ← orFault .badPointer (mgn.table.heap.deref thrd)
  let handle ← orFault .badPointer (threads.insts.read res.data.inst)
  return threads.note (.join handle)

/-- `destroy_thread`. The record is inside the block of a resource, so releasing it as a
block of its own is a fault. -/
def destroyThread (thrd : Ptr) (mgn : ResMgn Thread) (threads : Threads) :
    Except Fault (ResMgn Thread × Threads) := do
  let res ← orFault .badPointer (mgn.table.heap.deref thrd)
  let p := res.data.inst
  let mgn ← mgn.modify (fun t => { t with inst := NULL }) thrd
  let threads ←
    if p = NULL then .ok threads
    else do
      let handle ← orFault .badPointer (threads.insts.read p)
      let insts ← orFault .badFree (threads.insts.free p)
      .ok { threads.note (.cancel handle) with insts := insts }
  if res.data.shouldFree then .error .badFree else return (mgn, threads)

/-! ## Runs -/

/-- The size that `run` gives `res_create`. In the source the sum is the condition of the
conditional expression: `sizeof(*thrd) + param_size>sizeof(void*)?param_size:sizeof(void*)`. -/
def runSize (paramSize : UInt64) : UInt64 :=
  if sizeofThread + paramSize > sizeofPtr then paramSize else sizeofPtr

/-- The zeroed record that `run` gets from `res_create`. -/
def newThread (paramSize : UInt64) : Thread :=
  { inst := NULL
    shouldFree := false
    param := List.replicate (max paramSize.toNat sizeofPtr.toNat) 0
    room := resRoom (runSize paramSize) }

/-- `run` stores the parameters, or a `nil` in `_param[0]` when there are none. -/
def storeParam (paramSize : UInt64) (param : Option (List UInt8)) (t : Thread) : Thread :=
  match param with
  | some src => { t with param := platMemCopy t.param src paramSize }
  | none => { t with param := platMemCopy t.param (zeroBytes sizeofPtr) sizeofPtr }

/-- `run(func, param_size, param)`. The allocator answers `mem` for the record and `inst` for
the handle, and `created` is the outcome of `pthread_create`. -/
def run (paramSize : UInt64) (param : Option (List UInt8)) (mem inst : Addr) (created : Bool)
    (s : RunState) : Except Fault (RunState × CInt) := do
  let mgn := s.runResMgn.getD ResMgn.resCreateManagement
  let (mgn, rid, thrd) ← mgn.resCreate (newThread paramSize) mem
  let mgn ← mgn.modify (storeParam paramSize param) thrd
  let (mgn, threads) ← runThread thrd inst created mgn s.threads
  return (⟨some mgn, threads⟩, rid)

/-- `run_cancel`. -/
def runCancel (rid : CInt) (s : RunState) : Except Fault RunState :=
  match s.runResMgn with
  | none => .ok s
  | some mgn => do
    let (mgn, thrd) ← mgn.resGet rid
    match thrd with
    | none => .error .nilRecord
    | some thrd => do
      let res ← orFault .badPointer (mgn.table.heap.deref thrd)
      let p := res.data.inst
      if p = NULL then return { s with runResMgn := some mgn }
      else do
        let handle ← orFault .badPointer (s.threads.insts.read p)
        return ⟨some mgn, s.threads.note (.cancel handle)⟩

/-- The body of `run_done`'s loop. -/
def doneBody (rid : CInt) (mgn : ResMgn Thread) (threads : Threads) :
    Except Fault (ResMgn Thread × Threads) := do
  let (mgn, thrd) ← mgn.resGet rid
  match thrd with
  | none => .error .nilRecord
  | some thrd => do
    let threads ← waitThread thrd mgn threads
    let (mgn, threads) ← destroyThread thrd mgn threads
    let (mgn, _) ← mgn.resRelease rid
    return (mgn, threads.note (.released rid))

/-- The loop of `run_done`, given the number of iterations that it may take. -/
def doneLoop : Nat → ResMgn Thread → Threads → Except Fault (ResMgn Thread × Threads)
  | iterations, mgn, threads => do
    let (mgn, rid) ← mgn.resAny
    if 0 ≤ rid.toInt then
      match iterations with
      | 0 => .error .diverges
      | iterations + 1 => do
        let (mgn, threads) ← doneBody rid mgn threads
        doneLoop iterations mgn threads
    else return (mgn, threads)

/-- `run_done`. Every iteration releases a record (`doneBody_ok`), so the number of records
bounds the iterations. -/
def runDone (s : RunState) : Except Fault RunState :=
  match s.runResMgn with
  | none => .ok s
  | some mgn => do
    let (mgn, threads) ← doneLoop mgn.table.chain.length mgn s.threads
    return ⟨none, threads.note (.managementReleased mgn.table.chain.length)⟩

end RunState

end ShellJs
