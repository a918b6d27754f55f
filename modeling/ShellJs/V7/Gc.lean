import ShellJs.V7.Strings

/-!
# The collector of strings

`gc_mark_string` and `gc_compact_strings` of `gc.c`. Marking threads the values that refer to a
string: the first six bytes of the string hold the address of the value that was marked last, that
value holds the address of the one marked before it, and the first one the six bytes. The NUL before
a string is its mark. Compaction follows the threads, puts the bytes back and packs the strings.
-/

namespace ShellJs.V7

open Memory Function

/-- The values in memory, by their addresses. -/
abbrev Vals := Nat → Val

/-- `memcpy(&tmp, s, sizeof(tmp) - 2)` of a `tmp` that is 0. -/
def chunk (bytes : List UInt8) : Val := UInt64.ofNat (leVal bytes)

/-- `s[-1]`. -/
def Mbuf.before (a : Mbuf) (s : Nat) : Except V7Stop UInt8 :=
  if s = 0 then .error (.fault .outOfBounds) else .ok (a.buf (s - 1))

/-- `gc_mark_string` of the value at `v`. -/
def gcMarkString (v7 : State) (vals : Vals) (v : Nat) : Except V7Stop (State × Vals) :=
  if tag (vals v) ≠ tagStringO then .ok (v7, vals)
  else do
    gcCheckValidAllocationSeqn v7 (asnOf (vals v))
    let m := v7.ownedStrings
    let s := gcStringValToOffset (vals v)
    if s < m.len then
      let mark ← m.before s
      let first ← m.read s 6
      let tmp := chunk first ||| if mark = 0 then tagStringC else tagForeign
      let m ← m.write (s - 1) [1]
      let m ← m.write s (leBytes 6 v)
      return ({ v7 with ownedStrings := m }, update vals v tmp)
    else throw .assertFailed

/-- As many steps as there are addresses. -/
def addressSpace : Nat := 2 ^ 48

/-- The loop over a thread: every value gets `new`; the six bytes at its end are left. -/
def relocate (new : Val) : Nat → Vals → Val → Except V7Stop (Vals × Val)
  | 0, _, _ => .error (.fault .diverges)
  | fuel + 1, vals, h =>
    if tag h = tagStringC then .ok (vals, payload h)
    else
      let a := (payload h).toNat
      relocate new fuel (update vals a new) (vals a)

/-- `decode_varint(p, &llen)`, and the bytes of the string with its length and its NUL. -/
def chunkLen (p : Nat → UInt8) : Except V7Stop Nat := do
  let (len, llen) ← decodeVarint p
  return len + llen + 1

/-- The branch of the loop for a marked string: its values, its bytes and its new place. -/
def moveString (v7 : State) (vals : Vals) (p head : Nat) : Except V7Stop (State × Vals × Nat) := do
  let (v7, asn) := nextAsn v7
  let m := v7.ownedStrings
  let first ← m.read p 6
  let (vals, h) ← relocate (ownedVal head asn) (addressSpace + 1) vals (chunk first)
  let bytes := leBytes 8 h.toNat
  let len ← chunkLen fun i => bytes.getD i 0
  let m ← m.write p (bytes.take 6)
  let data ← m.read p len
  let m ← m.write head data
  let m ← m.write (head - 1) [0]
  return ({ v7 with ownedStrings := m }, vals, len)

/-- The loop of `gc_compact_strings`. -/
def compactLoop : Nat → State → Vals → Nat → Nat → Except V7Stop (State × Vals × Nat)
  | 0, _, _, _, _ => .error (.fault .diverges)
  | fuel + 1, v7, vals, p, head =>
    if p < v7.ownedStrings.len then
      if v7.ownedStrings.buf (p - 1) = 1 then do
        let (v7, vals, len) ← moveString v7 vals p head
        compactLoop fuel v7 vals (p + len) (head + len)
      else do
        let len ← chunkLen fun i => v7.ownedStrings.buf (p + i)
        compactLoop fuel v7 vals (p + len) head
    else .ok (v7, vals, head)

/-- `gc_compact_strings`. -/
def gcCompactStrings (v7 : State) (vals : Vals) : Except V7Stop (State × Vals) := do
  let v7 := { v7 with gcMinAsn := v7.gcNextAsn }
  let (v7, vals, head) ← compactLoop (v7.ownedStrings.len + 1) v7 vals 1 1
  return ({ v7 with ownedStrings := { v7.ownedStrings with len := head } }, vals)

/-- The strings' part of `v7_gc`: the values that `gc_mark` and its relatives come to are marked, in
the order in which they come to them. -/
def v7Gc (realloc : Realloc) (v7 : State) (vals : Vals) (marks : List Nat) (full : Bool) :
    Except V7Stop (State × Vals) := do
  let (v7, vals) ← marks.foldlM (fun (s : State × Vals) v => gcMarkString s.1 s.2 v) (v7, vals)
  let (v7, vals) ← gcCompactStrings v7 vals
  let m := v7.ownedStrings
  let trimmedSize := m.len + vStringBufReserve
  if full ∧ trimmedSize < m.size then
    return ({ v7 with ownedStrings := m.resize realloc trimmedSize }, vals)
  else return (v7, vals)

end ShellJs.V7
