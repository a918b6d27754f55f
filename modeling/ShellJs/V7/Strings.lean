import ShellJs.Lib.Sentinel
import ShellJs.V7.Dictionary
import ShellJs.V7.Varint

/-!
# Strings of V7

`mbuf.c` and `string.c`: the buffers, and the strings that live in them. A short string is inside
of its value, a frequent one in the dictionary; any other string that V7 owns is in the buffer
`owned_strings`, with its length before it and a NUL behind it, and its value holds the offset and
a sequence number.

`realloc` may move a buffer, so a pointer into one is an offset and the block that it was taken
from. Memory that V7 does not own is a `CMem`.
-/

namespace ShellJs.V7

open Memory Sentinel

/-! ## `mbuf.c` -/

/-- The block of a `realloc` that is granted: the old one or another, with `rest` behind what was
there. -/
structure Block where
  moved : Bool
  rest : Nat → UInt8

/-- The answers of `realloc` to requests. -/
abbrev Realloc := Nat → Option Block

/-- `struct mbuf`; `gen` counts the blocks that `buf` has had. -/
structure Mbuf where
  gen : Nat
  buf : Nat → UInt8
  len : Nat
  size : Nat

namespace Mbuf

def relocate (a : Mbuf) (b : Block) (size : Nat) : Mbuf :=
  { gen := if b.moved then a.gen + 1 else a.gen
    buf := fun i => if i < a.size then a.buf i else b.rest i
    len := a.len
    size := size }

/-- `mbuf_resize`. -/
def resize (a : Mbuf) (realloc : Realloc) (newSize : Nat) : Mbuf :=
  if newSize > a.size ∨ (newSize < a.size ∧ newSize ≥ a.len) then
    match realloc newSize with
    | some b => a.relocate b newSize
    | none => if newSize ≠ 0 then a else { a with gen := a.gen + 1, size := 0 }
  else a

/-- Makes room for `len` bytes at `off` and puts `data` there. -/
def splice (a : Mbuf) (off : Nat) (data : Option (List UInt8)) (len : Nat) : Mbuf :=
  let buf := store a.buf (off + len) (load a.buf off (a.len - off))
  { a with buf := store buf off (data.getD []), len := a.len + len }

/-- `mbuf_insert`. It returns 0 when it has no memory. -/
def insert (a : Mbuf) (realloc : Realloc) (off : Nat) (data : Option (List UInt8)) (len : Nat) :
    Except V7Stop (Mbuf × Nat) :=
  if a.len ≤ a.size ∧ off ≤ a.len then
    if a.len + len ≤ a.size then .ok (a.splice off data len, len)
    else
      match realloc ((a.len + len) * 3 / 2) with
      | some b => .ok ((a.relocate b ((a.len + len) * 3 / 2)).splice off data len, len)
      | none => .ok (a, 0)
  else .error .assertFailed

/-- A `memcpy` into the buffer. -/
def write (a : Mbuf) (off : Nat) (data : List UInt8) : Except V7Stop Mbuf :=
  if off + data.length ≤ a.size then .ok { a with buf := store a.buf off data }
  else .error (.fault .outOfBounds)

/-- A `memcpy` out of the buffer. -/
def read (a : Mbuf) (off n : Nat) : Except V7Stop (List UInt8) :=
  if off + n ≤ a.size then .ok (load a.buf off n) else .error (.fault .outOfBounds)

end Mbuf

/-! ## Pointers -/

/-- Memory that V7 does not own: the bytes that can be read from an address on. -/
structure CMem where
  read : Nat → List UInt8
  read_add : ∀ a n, n ≤ (read a).length → read (a + n) = (read a).drop n

/-- Where the `char*` of a string points to. -/
inductive Ptr
  | null
  | mem (a : Nat)
  /-- Into the block `gen` of `owned_strings`. -/
  | owned (gen off : Nat)
  /-- Into a value. -/
  | val (v : Val) (i : Nat)
  | dict (index i : Nat)
  deriving DecidableEq

namespace Ptr

/-- `p + n`. -/
def add : Ptr → Nat → Ptr
  | null, _ => null
  | mem a, n => mem (a + n)
  | owned gen off, n => owned gen (off + n)
  | val v i, n => val v (i + n)
  | dict index i, n => dict index (i + n)

/-- The bytes that can be read through a pointer, as far as its block goes. -/
def bytes (cmem : CMem) (owned : Mbuf) : Ptr → Except V7Stop (List UInt8)
  | null => .error (.fault .nullString)
  | mem a => .ok (cmem.read a)
  | .owned gen off =>
    if gen = owned.gen then .ok (load owned.buf off (owned.size - off))
    else .error (.fault .badPointer)
  | val v i => .ok ((leBytes 8 v.toNat).drop i)
  | dict index i =>
    match vDictionaryStrings[index]? with
    | some s => .ok ((s ++ [0]).drop i)
    | none => .error (.fault .outOfBounds)

/-- `n` bytes, read through a pointer. -/
def read (cmem : CMem) (owned : Mbuf) (p : Ptr) (n : Nat) : Except V7Stop (List UInt8) := do
  let l ← p.bytes cmem owned
  if n ≤ l.length then return l.take n else throw (.fault .outOfBounds)

/-- `strlen`. -/
def strlen (cmem : CMem) (owned : Mbuf) (p : Ptr) : Except V7Stop Nat := do
  let l ← p.bytes cmem owned
  if 0 ∈ l then return (cut 0 l).length else throw (.fault .outOfBounds)

end Ptr

/-! ## The interpreter -/

/-- `struct v7`, as far as its strings go. -/
structure State where
  ownedStrings : Mbuf
  foreignStrings : Mbuf
  needGc : Bool
  gcNextAsn : UInt16
  gcMinAsn : UInt16

def vStringBufReserve : Nat := 500

/-- `compute_need_gc`. -/
def computeNeedGc (v7 : State) : State :=
  if v7.ownedStrings.len * 10 > v7.ownedStrings.size * 9 then { v7 with needGc := true } else v7

/-- `next_asn`, and with it `gc_next_allocation_seqn`. -/
def nextAsn (v7 : State) : State × UInt16 :=
  if v7.gcNextAsn = 0xFFFF then ({ v7 with gcNextAsn := 0 }, 0xFFFF)
  else ({ v7 with gcNextAsn := v7.gcNextAsn + 1 }, v7.gcNextAsn)

/-- `gc_is_valid_allocation_seqn`. -/
def gcIsValidAllocationSeqn (v7 : State) (n : UInt16) : Bool :=
  (n ≥ v7.gcMinAsn && n < v7.gcNextAsn) ||
    (v7.gcMinAsn > v7.gcNextAsn && (n ≥ v7.gcMinAsn || n < v7.gcNextAsn))

/-- `gc_check_valid_allocation_seqn`. -/
def gcCheckValidAllocationSeqn (v7 : State) (n : UInt16) : Except V7Stop Unit :=
  if gcIsValidAllocationSeqn v7 n then .ok () else .error .abort

/-! ## `string.c` -/

/-- `p += m->buf - old_base`, for a pointer into the buffer. -/
def fixup (old new : Mbuf) : Ptr → Ptr
  | .owned gen off =>
    if gen = old.gen ∧ off < old.len then .owned new.gen off else .owned gen off
  | p => p

/-- What `embed_string` writes when it has made room: the length, in `k` bytes, the string, unless
it is `NULL`, and a NUL. -/
def writeString (cmem : CMem) (m : Mbuf) (offset k : Nat) (p : Ptr) (len : Nat) :
    Except V7Stop Mbuf := do
  let bytes ← encodeVarint len
  let m ← m.write offset bytes
  let m ←
    if p = .null then pure m
    else do
      let data ← p.read cmem m len
      m.write (offset + k) data
  m.write (offset + (k + len + 1) - 1) [0]

/-- `embed_string` into `owned_strings`, with `EMBSTR_ZERO_TERM`. -/
def embedString (cmem : CMem) (realloc : Realloc) (m : Mbuf) (offset : Nat) (p : Ptr)
    (len : Nat) : Except V7Stop Mbuf := do
  let k ← calcLlen len
  let (new, _) ← m.insert realloc offset none (k + len + 1)
  writeString cmem new offset k (fixup m new p) len

/-- What `v7_mk_string` puts into a value for a string of less than five bytes. -/
def inlineVal (len : Nat) (data : List UInt8) : Val :=
  payload (memcpyVal (memcpyVal 0 1 data) 0 [UInt8.ofNat len]) ||| tagStringI

/-- The bytes that a string is made of; a `NULL` leaves them as they are. -/
def source (cmem : CMem) (owned : Mbuf) (p : Ptr) (len : Nat) :
    Except V7Stop (Option (List UInt8)) :=
  if p = .null then .ok none
  else do
    let data ← p.read cmem owned len
    return some data

/-- The branch of `v7_mk_string` for an owned string that is not in the dictionary. -/
def mkOwned (cmem : CMem) (realloc : Realloc) (v7 : State) (p : Ptr) (len : Nat) :
    Except V7Stop (State × Val) := do
  let v7 := computeNeedGc v7
  let m := v7.ownedStrings
  let offset := m.len
  let m :=
    if m.len + len > m.size then m.resize realloc (m.len + len + vStringBufReserve) else m
  let m ← embedString cmem realloc m m.len p len
  let (v7, asn) := nextAsn { v7 with ownedStrings := m }
  return (v7, payload (UInt64.ofNat offset ||| asn.toUInt64 <<< 32) ||| tagStringO)

/-- The branch for a foreign string: the length and the pointer go into `foreign_strings`. -/
def mkForeign (realloc : Realloc) (v7 : State) (a len : Nat) : Except V7Stop (State × Val) := do
  let m := v7.foreignStrings
  let pos := m.len
  let llen ← calcLlen len
  let (m, _) ← m.insert realloc pos none (llen + 8)
  let bytes ← encodeVarint len
  let m ← m.write pos bytes
  let m ← m.write (pos + llen) (leBytes 8 a)
  return ({ v7 with foreignStrings := m }, payload (UInt64.ofNat pos) ||| tagStringF)

/-- `v7_mk_string`. The address of what V7 itself keeps is not modelled, so no foreign string is
made of it. -/
def v7MkString (cmem : CMem) (realloc : Realloc) (v7 : State) (p : Ptr) (len : Nat) (copy : Bool) :
    Except V7Stop (State × Val) := do
  let len ← if len = 2 ^ 64 - 1 then p.strlen cmem v7.ownedStrings else pure len
  let data ← source cmem v7.ownedStrings p len
  if len ≤ 4 then return (v7, inlineVal len (data.getD []))
  else if len = 5 then return (v7, payload (memcpyVal 0 0 (data.getD [])) ||| tagString5)
  else
    match vFindStringInDictionary data with
    | some i => return (v7, payload (memcpyVal 0 0 [UInt8.ofNat i]) ||| tagStringD)
    | none =>
      if copy then mkOwned cmem realloc v7 p len
      else
        match p with
        | .null => mkForeign realloc v7 0 len
        | .mem a => mkForeign realloc v7 a len
        | _ => throw (.fault .badPointer)

/-- `v7_is_string`. -/
def v7IsString (v : Val) : Bool :=
  tag v = tagStringI || tag v = tagStringF || tag v = tagStringO || tag v = tagString5 ||
    tag v = tagStringD

/-- The first byte of a value. -/
def valByte (v : Val) : UInt8 := UInt8.ofNat v.toNat

/-- `v7_get_string_data`: the pointer and the length. -/
def v7GetStringData (v7 : State) (v : Val) : Except V7Stop (Ptr × Nat) :=
  if tag v = tagStringI then .ok (.val v 1, charToSize (valByte v))
  else if tag v = tagString5 then .ok (.val v 0, 5)
  else if tag v = tagStringD then
    match vDictionaryStrings[(valByte v).toNat]? with
    | some s => .ok (.dict (valByte v).toNat 0, s.length)
    | none => .error (.fault .outOfBounds)
  else if tag v = tagStringO then do
    let offset := gcStringValToOffset v
    gcCheckValidAllocationSeqn v7 (asnOf v)
    let (len, llen) ← decodeVarint fun i => v7.ownedStrings.buf (offset + i)
    return (.owned v7.ownedStrings.gen (offset + llen), len)
  else if tag v = tagStringF then do
    let offset := gcStringValToOffset v
    let (len, llen) ← decodeVarint fun i => v7.foreignStrings.buf (offset + i)
    let p ← v7.foreignStrings.read (offset + llen) 8
    return (.mem (leVal p), len)
  else .error .assertFailed

/-- A `memcpy` to `p + n`, where `p` is the pointer of the string `res`. -/
def memcpyString (v7 : State) (res : Val) (p : Ptr) (n : Nat) (data : List UInt8) :
    Except V7Stop (State × Val) :=
  match p with
  | .val _ i => .ok (v7, memcpyVal res (i + n) data)
  | .owned _ off => do
    let m ← v7.ownedStrings.write (off + n) data
    return ({ v7 with ownedStrings := m }, res)
  | _ => .error (.fault .outOfBounds)

/-- `s_concat`. -/
def sConcat (cmem : CMem) (realloc : Realloc) (v7 : State) (a b : Val) :
    Except V7Stop (State × Val) := do
  let (_, aLen) ← v7GetStringData v7 a
  let (_, bLen) ← v7GetStringData v7 b
  let (v7, res) ← v7MkString cmem realloc v7 .null (aLen + bLen) true
  let (aPtr, aLen) ← v7GetStringData v7 a
  let (bPtr, bLen) ← v7GetStringData v7 b
  let (resPtr, _) ← v7GetStringData v7 res
  let aData ← aPtr.read cmem v7.ownedStrings aLen
  let (v7, res) ← memcpyString v7 res resPtr 0 aData
  let bData ← bPtr.read cmem v7.ownedStrings bLen
  memcpyString v7 res resPtr aLen bData

/-- `s_cmp`. -/
def sCmp (cmem : CMem) (v7 : State) (a b : Val) : Except V7Stop Int := do
  let (aPtr, aLen) ← v7GetStringData v7 a
  let (bPtr, bLen) ← v7GetStringData v7 b
  if aLen = bLen then do
    let aData ← aPtr.read cmem v7.ownedStrings aLen
    let bData ← bPtr.read cmem v7.ownedStrings bLen
    return memcmp aData bData
  else if aLen > bLen then return 1
  else return -1

/-- `v7_to_cstring`. -/
def v7ToCstring (cmem : CMem) (v7 : State) (v : Val) : Except V7Stop (Option Ptr) := do
  let (p, size) ← v7GetStringData v7 v
  let l ← p.bytes cmem v7.ownedStrings
  match l[size]? with
  | none => throw (.fault .outOfBounds)
  | some b =>
    if b ≠ 0 ∨ (cut 0 l).length ≠ size then return none else return some p

end ShellJs.V7
