import ShellJs.V7.Strings

/-!
# What strings are for

A string of the interpreter is a value, and so it never changes. The spec keeps the bytes of every
variable and knows of no buffer: what has been a string, stays this string as long as every
collection marks the variable that it is in.

* `Op`: what the rest of the interpreter does with strings.
* `specStep`: what it means. There is no answer where the interpreter is misused.
-/

namespace ShellJs.V7

open Sentinel Function

/-- What a variable holds. -/
inductive Content
  /-- Nothing that may be used. -/
  | dead
  /-- A value that is not a string. -/
  | other (v : Val)
  /-- A string, and the byte that can be read behind it. -/
  | str (b : List UInt8) (next : Option UInt8)
  deriving DecidableEq

/-- What the caller of an operation sees. -/
inductive Answer
  | bytes (b : List UInt8)
  | order (o : Ordering)
  | cstring (o : Option (List UInt8))
  deriving DecidableEq

/-- What is done with the variables. A length that is not given is `~0`. -/
inductive Op
  | assign (dst : Nat) (v : Val)
  | move (dst src : Nat)
  /-- `v7_mk_string` of the bytes at an address, with a copy or without one. -/
  | make (dst a : Nat) (len : Option Nat) (copy : Bool)
  /-- `v7_mk_string` of a part of a string, as in `Str_trim`. -/
  | slice (dst src start len : Nat)
  | concat (dst x y : Nat)
  | read (x : Nat)
  | compare (x y : Nat)
  | cstring (x : Nat)
  /-- `v7_gc`, which comes to these variables. -/
  | collect (marks : List Nat) (full : Bool)

structure Spec where
  slots : Nat → Content
  answers : List Answer

/-- The interpreter is not meant to be used like this. -/
inductive Misuse
  | misuse

theorem spec_bind_eq_ok {ρ τ : Type} {x : Except Misuse ρ} {g : ρ → Except Misuse τ} {r : τ} :
    x >>= g = .ok r ↔ ∃ y, x = .ok y ∧ g y = .ok r := by
  cases x with
  | error e => exact ⟨nofun, nofun⟩
  | ok y => exact ⟨fun h => ⟨y, rfl, h⟩, fun ⟨_, hy, h⟩ => Except.ok.inj hy ▸ h⟩

namespace Spec

/-- A longer string has its length in more than four bytes. -/
def maxLength : Nat := 2 ^ 28

def put (t : Spec) (dst : Nat) (b : List UInt8) (next : Option UInt8) : Except Misuse Spec :=
  if b.length < maxLength then .ok { t with slots := update t.slots dst (.str b next) }
  else .error .misuse

def answer (t : Spec) (x : Answer) : Spec := { t with answers := t.answers ++ [x] }

def bytes (t : Spec) (x : Nat) : Except Misuse (List UInt8) :=
  match t.slots x with
  | .str b _ => .ok b
  | _ => .error .misuse

end Spec

/-- The bytes at an address. -/
def memString (cmem : CMem) (a : Nat) : Option Nat → Except Misuse (List UInt8)
  | none => if 0 ∈ cmem.read a ∧ a < 2 ^ 64 then .ok (cut 0 (cmem.read a)) else .error .misuse
  | some len =>
    if len ≤ (cmem.read a).length ∧ a < 2 ^ 64 then .ok ((cmem.read a).take len)
    else .error .misuse

/-- A string that is not copied stays where it is, unless it is short or frequent. -/
def stays (b : List UInt8) (copy : Bool) : Bool :=
  !copy && 5 < b.length && b ∉ vDictionaryStrings

/-- What follows a new string: a NUL, or what is in memory behind it. -/
def nextByte (cmem : CMem) (a : Nat) (b : List UInt8) (copy : Bool) : Option UInt8 :=
  if stays b copy then (cmem.read a)[b.length]? else some 0

/-- The shorter string comes first, and the bytes decide between strings of one length. -/
def shortlex (x y : List UInt8) : Ordering :=
  if x = y then .eq
  else if x.length < y.length ∨ x.length = y.length ∧ x < y then .lt
  else .gt

def specStep (cmem : CMem) (t : Spec) : Op → Except Misuse Spec
  | .assign dst v =>
    if v7IsString v then .error .misuse
    else .ok { t with slots := update t.slots dst (.other v) }
  | .move dst src => .ok { t with slots := update t.slots dst (t.slots src) }
  | .make dst a len copy => do
    let b ← memString cmem a len
    t.put dst b (nextByte cmem a b copy)
  | .slice dst src start len => do
    let b ← t.bytes src
    if start + len ≤ b.length then t.put dst ((b.drop start).take len) (some 0)
    else .error .misuse
  | .concat dst x y => do
    let b ← t.bytes x
    let c ← t.bytes y
    t.put dst (b ++ c) (some 0)
  | .read x => do
    let b ← t.bytes x
    return t.answer (.bytes b)
  | .compare x y => do
    let b ← t.bytes x
    let c ← t.bytes y
    return t.answer (.order (shortlex b c))
  | .cstring x =>
    match t.slots x with
    | .str b (some c) => .ok (t.answer (.cstring (if c ≠ 0 ∨ 0 ∈ b then none else some b)))
    | _ => .error .misuse
  | .collect marks _ =>
    if ∀ a ∈ marks, a < 2 ^ 48 ∧ t.slots a ≠ .dead then
      .ok { t with slots := fun a => if a ∈ marks then t.slots a else .dead }
    else .error .misuse

end ShellJs.V7
