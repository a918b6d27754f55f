import ShellJs.Basic
import ShellJs.Lib.Chains

/-!
# `uthash.h`

The macros of `js-clib/uthash.h` (1.9.9, in `common.c`) and `platform/uthash.h` (2.0.2, in
`plat_mgn_mem.h`). The two differ in `HASH_FIND_IN_BKT` and in one test of `HASH_ADD_TO_BKT`, so
the version is an argument.

An element is named by its address, and its hash handle with it (`hho` is the distance of the
two). The handles are kept field by field, one function on addresses for each of them. All
elements of a hash share one table (`hh.tbl`), which exists while `head` is not `NULL`.

What `HASH_FCN` computes from a key is the argument `hashv`, what `HASH_KEYCMP` compares the
argument `keyAt`: the key that an element holds.
-/

namespace ShellJs

open Function

/-- What ends a run inside of a macro. -/
inductive Stop
  /-- `uthash_fatal`: `exit(-1)`. -/
  | exit
  | divByZero
  /-- A shift of an `unsigned` by 32, which C leaves undefined. -/
  | badShift
  | fault (f : Fault)
  deriving DecidableEq

/-- A loop that is not over after as many steps as there are items. -/
def orDiverges {ρ : Type} : Option ρ → Except Stop ρ
  | some r => .ok r
  | none => .error (.fault .diverges)

inductive UTVersion
  | v1_9_9
  | v2_0_2
  deriving DecidableEq

/-- `UT_hash_bucket`. -/
structure UTHashBucket where
  hhHead : Addr
  count : UInt32
  expandMult : UInt32

/-- `UT_hash_table`. -/
structure UTHashTable where
  buckets : Nat → UTHashBucket
  numBuckets : UInt32
  log2NumBuckets : UInt32
  numItems : UInt32
  tail : Addr
  idealChainMaxlen : UInt32
  nonidealItems : UInt32
  ineffExpands : UInt32
  noexpand : UInt32

/-- A hash: its `head`, its table, and the `UT_hash_handle` of every element. -/
structure UTHash where
  head : Addr
  tbl : Option UTHashTable
  prev : Addr → Addr
  next : Addr → Addr
  hhPrev : Addr → Addr
  hhNext : Addr → Addr
  hashv : Addr → UInt32

def HASH_INITIAL_NUM_BUCKETS : UInt32 := 32
def HASH_INITIAL_NUM_BUCKETS_LOG2 : UInt32 := 5
def HASH_BKT_CAPACITY_THRESH : UInt32 := 10

def sizeofUTHashBucket : Nat := 16
def sizeofUTHashTable : Nat := 64

/-- A bucket of zeroed memory. -/
def zeroBucket : UTHashBucket := ⟨NULL, 0, 0⟩

namespace UTHash

/-- A hash in zeroed memory. -/
def zeroed : UTHash :=
  ⟨NULL, none, fun _ => NULL, fun _ => NULL, fun _ => NULL, fun _ => NULL, fun _ => 0⟩

/-- `HASH_TO_BKT`. -/
def hashToBkt (hashv numBkts : UInt32) : UInt32 := hashv &&& (numBkts - 1)

/-- The bucket of the element at `a` among `numBkts`. -/
def bktOf (s : UTHash) (numBkts : UInt32) (a : Addr) : Nat := (hashToBkt (s.hashv a) numBkts).toNat

/-! ## `HASH_JEN` -/

/-- `HASH_JEN_MIX`. -/
def hashJenMix (a b c : UInt32) : UInt32 × UInt32 × UInt32 :=
  let a := (a - b - c) ^^^ (c >>> 13)
  let b := (b - c - a) ^^^ (a <<< 8)
  let c := (c - a - b) ^^^ (b >>> 13)
  let a := (a - b - c) ^^^ (c >>> 12)
  let b := (b - c - a) ^^^ (a <<< 16)
  let c := (c - a - b) ^^^ (b >>> 5)
  let a := (a - b - c) ^^^ (c >>> 3)
  let b := (b - c - a) ^^^ (a <<< 10)
  let c := (c - a - b) ^^^ (b >>> 15)
  (a, b, c)

/-- Four bytes of the key from the index `i` on; a byte that is missing adds nothing. -/
def jenWord (key : List UInt8) (i : Nat) : UInt32 :=
  (key.getD i 0).toUInt32 + ((key.getD (i + 1) 0).toUInt32 <<< 8) +
    ((key.getD (i + 2) 0).toUInt32 <<< 16) + ((key.getD (i + 3) 0).toUInt32 <<< 24)

/-- `HASH_JEN` from `hashv`, `_hj_i` and `_hj_j` on: a round for every twelve bytes, at most `n`,
and the last round for the bytes that are left, where `hashv` takes no byte into its lowest. -/
def jenRounds (keylen : UInt32) : Nat → List UInt8 → UInt32 → UInt32 → UInt32 → UInt32
  | 0, _, _, _, hashv => hashv
  | n + 1, key, i, j, hashv =>
    if 12 ≤ key.length then
      let (i, j, hashv) := hashJenMix (i + jenWord key 0) (j + jenWord key 4)
        (hashv + jenWord key 8)
      jenRounds keylen n (key.drop 12) i j hashv
    else
      let hashv := hashv + keylen + (jenWord key 8 <<< 8)
      (hashJenMix (i + jenWord key 0) (j + jenWord key 4) hashv).2.2

/-- `HASH_JEN`, which `HASH_FCN` is unless the program chooses another one. -/
def hashJen (key : List UInt8) : UInt32 :=
  jenRounds (UInt32.ofNat key.length) (key.length + 1) key 0x9e3779b9 0x9e3779b9 0xfeedbeef

/-- The hash of an `int` key, whose lowest byte comes first. -/
def hashInt (key : CInt) : UInt32 :=
  hashJen ((List.range 4).map fun i => UInt8.ofNat (key.toNat / 2 ^ (8 * i)))

/-! ## Searches and walks -/

/-- The comparison in `HASH_FIND_IN_BKT`; version 2.0.2 compares the hash values first. -/
def keyMatches {κ : Type} [DecidableEq κ] (ver : UTVersion) (s : UTHash) (keyAt : Addr → Option κ)
    (key : κ) (hashv : UInt32) (out : Addr) : Bool :=
  match ver with
  | .v1_9_9 => keyAt out = some key
  | .v2_0_2 => s.hashv out = hashv && keyAt out = some key

/-- `HASH_FIND`. -/
def hashFind {κ : Type} [DecidableEq κ] (ver : UTVersion) (s : UTHash) (keyAt : Addr → Option κ)
    (key : κ) (hashv : UInt32) : Except Stop Addr :=
  if s.head = NULL then .ok NULL
  else
    match s.tbl with
    | none => .error (.fault .badPointer)
    | some t =>
      orDiverges (Dll.search s.hhNext NULL (keyMatches ver s keyAt key hashv) t.numItems.toNat
        (t.buckets (hashToBkt hashv t.numBuckets).toNat).hhHead)

/-- `HASH_COUNT`. -/
def hashCount (s : UTHash) : Except Stop UInt32 :=
  if s.head = NULL then .ok 0
  else
    match s.tbl with
    | none => .error (.fault .badPointer)
    | some t => .ok t.numItems

/-- The elements that `HASH_ITER` visits when its body leaves the hash as it is. -/
def hashIter (s : UTHash) : Except Stop (List Addr) := do
  let n ← s.hashCount
  orDiverges (Dll.walk s.next NULL n.toNat s.head)

/-! ## `HASH_EXPAND_BUCKETS` -/

/-- What the loops of `HASH_EXPAND_BUCKETS` change. -/
structure Expansion where
  hhPrev : Addr → Addr
  hhNext : Addr → Addr
  newBuckets : Nat → UTHashBucket
  nonidealItems : UInt32

/-- The body of the inner loop: `thh` is counted in its new bucket and put in front of it. -/
def Expansion.move (hashv : Addr → UInt32) (numBuckets idealChainMaxlen : UInt32) (thh : Addr)
    (e : Expansion) : Except Stop Expansion :=
  let bkt := (hashToBkt (hashv thh) (numBuckets * 2)).toNat
  let newbkt := e.newBuckets bkt
  let count := newbkt.count + 1
  let hhPrev := Dll.setAt NULL (update e.hhPrev thh NULL) newbkt.hhHead thh
  let hhNext := update e.hhNext thh newbkt.hhHead
  if count > idealChainMaxlen then
    if idealChainMaxlen = 0 then .error .divByZero
    else
      .ok ⟨hhPrev, hhNext, update e.newBuckets bkt ⟨thh, count, count / idealChainMaxlen⟩,
        e.nonidealItems + 1⟩
  else
    .ok ⟨hhPrev, hhNext, update e.newBuckets bkt ⟨thh, count, newbkt.expandMult⟩, e.nonidealItems⟩

/-- The inner loop: the chain from `thh` on. The successor is read before the body runs. -/
def Expansion.moveChain (hashv : Addr → UInt32) (numBuckets idealChainMaxlen : UInt32) :
    Nat → Addr → Expansion → Except Stop Expansion
  | 0, thh, e => if thh = NULL then .ok e else .error (.fault .diverges)
  | n + 1, thh, e =>
    if thh = NULL then .ok e
    else do
      let hhNxt := e.hhNext thh
      let e ← e.move hashv numBuckets idealChainMaxlen thh
      moveChain hashv numBuckets idealChainMaxlen n hhNxt e

/-- `ceil(num_items / (2 * num_buckets))`, as the macro computes it. -/
def newIdeal (t : UTHashTable) : UInt32 :=
  (t.numItems >>> (t.log2NumBuckets + 1)) +
    if t.numItems &&& (t.numBuckets * 2 - 1) ≠ 0 then 1 else 0

/-- The two loops of `HASH_EXPAND_BUCKETS`, over the zeroed new buckets. -/
def moveAll (s : UTHash) (t : UTHashTable) (idealChainMaxlen : UInt32) : Except Stop Expansion :=
  (List.range t.numBuckets.toNat).foldlM
    (fun e i => Expansion.moveChain s.hashv t.numBuckets idealChainMaxlen t.numItems.toNat
      (t.buckets i).hhHead e)
    ⟨s.hhPrev, s.hhNext, fun _ => zeroBucket, 0⟩

/-- What `HASH_EXPAND_BUCKETS` makes of the table after its loops. -/
def expandedTable (t : UTHashTable) (idealChainMaxlen : UInt32) (e : Expansion) : UTHashTable :=
  let ineffExpands := if e.nonidealItems > t.numItems >>> 1 then t.ineffExpands + 1 else 0
  { t with
    buckets := e.newBuckets
    numBuckets := t.numBuckets * 2
    log2NumBuckets := t.log2NumBuckets + 1
    idealChainMaxlen := idealChainMaxlen
    nonidealItems := e.nonidealItems
    ineffExpands := ineffExpands
    noexpand := if ineffExpands > 1 then 1 else t.noexpand }

/-- `HASH_EXPAND_BUCKETS`. `malloc` tells which requests the allocator can serve. -/
def hashExpandBuckets (malloc : Nat → Bool) (s : UTHash) (t : UTHashTable) : Except Stop UTHash :=
  if malloc (2 * t.numBuckets.toNat * sizeofUTHashBucket) then
    -- the shift in `newIdeal`
    if t.log2NumBuckets + 1 < 32 then
      (s.moveAll t (newIdeal t)).map fun e =>
        { s with
          hhPrev := e.hhPrev
          hhNext := e.hhNext
          tbl := some (expandedTable t (newIdeal t) e) }
    else .error .badShift
  else .error .exit

/-! ## `HASH_ADD_KEYPTR` -/

/-- The table of `HASH_MAKE_TABLE`: zeroed memory, but for its first fields. -/
def initialTable (head : Addr) : UTHashTable where
  buckets := fun _ => zeroBucket
  numBuckets := HASH_INITIAL_NUM_BUCKETS
  log2NumBuckets := HASH_INITIAL_NUM_BUCKETS_LOG2
  numItems := 0
  tail := head
  idealChainMaxlen := 0
  nonidealItems := 0
  ineffExpands := 0
  noexpand := 0

/-- `HASH_MAKE_TABLE`. -/
def hashMakeTable (malloc : Nat → Bool) (head : Addr) : Except Stop UTHashTable :=
  if malloc sizeofUTHashTable then
    if malloc (HASH_INITIAL_NUM_BUCKETS.toNat * sizeofUTHashBucket) then .ok (initialTable head)
    else .error .exit
  else .error .exit

/-- Does `HASH_ADD_TO_BKT` expand the buckets? -/
def expands (ver : UTVersion) (b : UTHashBucket) (noexpand : UInt32) : Bool :=
  b.count ≥ (b.expandMult + 1) * HASH_BKT_CAPACITY_THRESH &&
    match ver with
    | .v1_9_9 => noexpand ≠ 1
    | .v2_0_2 => noexpand = 0

/-- The bucket `bkt` of `HASH_ADD_TO_BKT` with one item more. -/
def pushTable (t : UTHashTable) (bkt : Nat) (add : Addr) : UTHashTable :=
  let b := t.buckets bkt
  { t with buckets := update t.buckets bkt ⟨add, b.count + 1, b.expandMult⟩ }

/-- The links of the item that `HASH_ADD_TO_BKT` puts in front of `hhHead`. -/
def pushBkt (s : UTHash) (hhHead add : Addr) : UTHash :=
  { s with
    hhNext := update s.hhNext add hhHead
    hhPrev := Dll.setAt NULL (update s.hhPrev add NULL) hhHead add }

/-- The first half of `HASH_ADD_KEYPTR`: the element goes to the end of the application order,
and a table is made for the first one. -/
def hashAppend (malloc : Nat → Bool) (s : UTHash) (add : Addr) :
    Except Stop (UTHash × UTHashTable) :=
  let s := { s with next := update s.next add NULL }
  if s.head = NULL then
    (hashMakeTable malloc add).map fun t =>
      ({ s with head := add, prev := update s.prev add NULL }, t)
  else
    match s.tbl with
    | none => .error (.fault .badPointer)
    | some t =>
      .ok ({ s with next := update s.next t.tail add, prev := update s.prev add t.tail },
        { t with tail := add })

/-- `HASH_ADD_KEYPTR` up to the test at the end of `HASH_ADD_TO_BKT`: the hash, its table and the
bucket of the new item. -/
def hashPush (malloc : Nat → Bool) (s : UTHash) (add : Addr) (hashv : UInt32) :
    Except Stop (UTHash × UTHashTable × Nat) := do
  let (s, t) ← s.hashAppend malloc add
  let s := { s with hashv := update s.hashv add hashv }
  let t := { t with numItems := t.numItems + 1 }
  let bkt := (hashToBkt hashv t.numBuckets).toNat
  let s := s.pushBkt (t.buckets bkt).hhHead add
  let t := pushTable t bkt add
  return ({ s with tbl := some t }, t, bkt)

/-- `HASH_ADD_KEYPTR`. -/
def hashAdd (ver : UTVersion) (malloc : Nat → Bool) (s : UTHash) (add : Addr) (hashv : UInt32) :
    Except Stop UTHash := do
  let (s, t, bkt) ← s.hashPush malloc add hashv
  if expands ver (t.buckets bkt) t.noexpand then s.hashExpandBuckets malloc t else return s

/-! ## `HASH_DELETE` -/

/-- `HASH_DEL_IN_BKT`. -/
def hashDelInBkt (s : UTHash) (t : UTHashTable) (bkt : Nat) (del : Addr) : UTHash :=
  let b := t.buckets bkt
  let head := if b.hhHead = del then s.hhNext del else b.hhHead
  let hhNext := Dll.setAt NULL s.hhNext (s.hhPrev del) (s.hhNext del)
  { s with
    hhNext := hhNext
    hhPrev := Dll.setAt NULL s.hhPrev (hhNext del) (s.hhPrev del)
    tbl := some { t with buckets := update t.buckets bkt ⟨head, b.count - 1, b.expandMult⟩ } }

/-- The element at `del` is taken out of the application order. -/
def unlinkApp (s : UTHash) (del : Addr) : UTHash :=
  let next := Dll.setAt NULL s.next (s.prev del) (s.next del)
  { s with
    head := if s.prev del = NULL then s.next del else s.head
    next := next
    prev := Dll.setAt NULL s.prev (next del) (s.prev del) }

/-- `HASH_DELETE`. The last element takes the table with it. -/
def hashDelete (s : UTHash) (del : Addr) : Except Stop UTHash :=
  match s.tbl with
  | none => .error (.fault .badPointer)
  | some t =>
    if s.prev del = NULL ∧ s.next del = NULL then .ok { s with head := NULL, tbl := none }
    else
      let tail := if del = t.tail then s.prev del else t.tail
      .ok ((s.unlinkApp del).hashDelInBkt { t with tail := tail, numItems := t.numItems - 1 }
        (s.bktOf t.numBuckets del) del)

/-! ## `HASH_FSCK` -/

/-- What `HASH_FSCK` reports with `HASH_OOPS`; and the two ways in which it
crashes itself: `head` has no table, or a loop never ends. -/
inductive HashOops
  | hhPrev
  | bucketCount
  | itemCount
  | prev
  | appItemCount
  | noTable
  | runaway
  deriving DecidableEq

/-- A loop of `HASH_FSCK`: it compares every back link with the element it came from, and counts
on from `count`. -/
def fsckChain (oops : HashOops) (next back : Addr → Addr) :
    Nat → Addr → Addr → UInt32 → Except HashOops UInt32
  | 0, _, thh, count => if thh = NULL then .ok count else .error .runaway
  | n + 1, prev, thh, count =>
    if thh = NULL then .ok count
    else if prev ≠ back thh then .error oops
    else fsckChain oops next back n thh (next thh) (count + 1)

/-- The check of the bucket `i`, after `count` items. -/
def fsckBucket (s : UTHash) (t : UTHashTable) (count : UInt32) (i : Nat) :
    Except HashOops UInt32 := do
  let b := t.buckets i
  let bktCount ← fsckChain .hhPrev s.hhNext s.hhPrev t.numItems.toNat NULL b.hhHead 0
  if b.count ≠ bktCount then .error .bucketCount else .ok (count + bktCount)

/-- `HASH_FSCK`. -/
def hashFsck (s : UTHash) : Except HashOops Unit :=
  if s.head = NULL then .ok ()
  else
    match s.tbl with
    | none => .error .noTable
    | some t => do
      let count ← (List.range t.numBuckets.toNat).foldlM (s.fsckBucket t) 0
      if count ≠ t.numItems then .error .itemCount
      else
        let count ← fsckChain .prev s.next s.prev t.numItems.toNat NULL s.head 0
        if count ≠ t.numItems then .error .appItemCount else .ok ()

end UTHash

end ShellJs
