import Mathlib.Algebra.Ring.Int.Defs
import Mathlib.Algebra.Ring.Nat
import ShellJs.Lib.Table

/-!
# Machine types, faults and `plat_mem.h`

`int` is `BitVec 32` (two's complement, wrapping), `size_t` is `UInt64` and `uint`
is `UInt32`, as on the 64-bit targets of the build. A function of the source that
can end the process returns in `Except Fault`: the fault names the first undefined
step, and nothing after it is modelled.
-/

namespace ShellJs

/-- What can end a run before the source's function returns. -/
inductive Fault
  /-- A `NULL` of `plat_mem_allocate` is used as a pointer. -/
  | outOfMemory
  /-- The `nil` of a failed lookup is used as a record. -/
  | nilRecord
  /-- A pointer is used whose block is not allocated any more. -/
  | badPointer
  /-- `plat_mem_release` of a block that is not allocated. -/
  | badFree
  /-- A load or store outside of the block or array that it is meant for. -/
  | outOfBounds
  /-- A libc call on a `FILE*` that is not open. -/
  | badStream
  /-- A libc call on a `NULL` string, or a load through one. -/
  | nullString
  /-- A libc structure is used that nothing has initialised. -/
  | uninitialised
  /-- A loop that never ends. -/
  | diverges
  /-- A lock of a mutex that the caller's thread left locked. -/
  | deadlock
  deriving DecidableEq

abbrev CInt := BitVec 32

/-- The answer of a step that has one only where it is defined. -/
def orFault {ρ : Type} (f : Fault) : Option ρ → Except Fault ρ
  | some r => .ok r
  | none => .error f

theorem orFault_eq_ok {ρ : Type} {f : Fault} {o : Option ρ} {r : ρ} :
    orFault f o = .ok r ↔ o = some r := by
  cases o <;> simp [orFault]

theorem orFault_error {ρ : Type} {f e : Fault} {o : Option ρ} (h : orFault f o = .error e) :
    e = f := by
  cases o with
  | none => exact (Except.error.inj h).symm
  | some r => cases h

@[simp] theorem ok_bind {ρ τ : Type} (r : ρ) (g : ρ → Except Fault τ) :
    (Except.ok r >>= g) = g r := rfl

@[simp] theorem error_bind {ρ τ : Type} (f : Fault) (g : ρ → Except Fault τ) :
    (Except.error f >>= g) = .error f := rfl

theorem bind_eq_ok {ρ τ : Type} {x : Except Fault ρ} {g : ρ → Except Fault τ} {r : τ} :
    x >>= g = .ok r ↔ ∃ y, x = .ok y ∧ g y = .ok r := by
  cases x <;> simp

theorem bind_eq_error {ρ τ : Type} {x : Except Fault ρ} {g : ρ → Except Fault τ} {e : Fault} :
    x >>= g = .error e ↔ x = .error e ∨ ∃ y, x = .ok y ∧ g y = .error e := by
  cases x <;> simp

/-- A run that does not end with the fault `e`. -/
def Avoids {ρ : Type} (e : Fault) (x : Except Fault ρ) : Prop := x ≠ .error e

namespace Avoids

variable {ρ τ : Type} {e : Fault}

theorem ok (r : ρ) : Avoids e (.ok r) := nofun

theorem error {f : Fault} (h : f ≠ e) : Avoids e (.error f : Except Fault ρ) :=
  fun heq => h (Except.error.inj heq)

theorem orFault {f : Fault} (h : f ≠ e) (o : Option ρ) : Avoids e (orFault f o) :=
  fun heq => h (orFault_error heq).symm

theorem bind {x : Except Fault ρ} {g : ρ → Except Fault τ} (hx : Avoids e x)
    (hg : ∀ r, Avoids e (g r)) : Avoids e (x >>= g) := by
  intro h
  rcases bind_eq_error.mp h with h | ⟨r, -, h⟩
  · exact hx h
  · exact hg r h

theorem foldlM {f : τ → ρ → Except Fault τ} (hf : ∀ acc a, Avoids e (f acc a)) (l : List ρ)
    (acc : τ) : Avoids e (l.foldlM f acc) := by
  induction l generalizing acc with
  | nil => exact ok acc
  | cons a l ih =>
    rw [List.foldlM_cons]
    exact (hf acc a).bind ih

end Avoids

/-! ## `plat_mem.h` -/

/-- The bytes that `plat_mem_allocate(size)` asks `malloc` for: its parameter is a
`uint`, so a `size_t` argument loses its upper half. -/
def platMemSize (size : UInt64) : Nat := size.toUInt32.toNat

theorem platMemSize_of_lt {size : UInt64} (h : size.toNat < 2 ^ 32) :
    platMemSize size = size.toNat := by
  rw [platMemSize, UInt64.toNat_toUInt32, Nat.mod_eq_of_lt h]

theorem platMemSize_lt (size : UInt64) : platMemSize size < 2 ^ 32 := size.toUInt32.toNat_lt

theorem platMemSize_le (size : UInt64) : platMemSize size ≤ size.toNat := by
  rw [platMemSize, UInt64.toNat_toUInt32]
  exact Nat.mod_le _ _

/-- The block of `plat_mem_allocate(size)`, zeroed. -/
def zeroBytes (size : UInt64) : List UInt8 := List.replicate (platMemSize size) 0

@[simp] theorem length_zeroBytes (size : UInt64) : (zeroBytes size).length = platMemSize size :=
  List.length_replicate

/-- `plat_mem_copy(dest, src, size)`, as far as it stays within the two blocks: what it
would read or write outside of them is not modelled. -/
def platMemCopy (dest src : List UInt8) (size : UInt64) : List UInt8 :=
  let n := min (platMemSize size) (min dest.length src.length)
  src.take n ++ dest.drop n

@[simp] theorem length_platMemCopy (dest src : List UInt8) (size : UInt64) :
    (platMemCopy dest src size).length = dest.length := by
  simp only [platMemCopy, List.length_append, List.length_take, List.length_drop]
  omega

theorem getElem?_platMemCopy (dest src : List UInt8) (size : UInt64) (i : Nat) :
    (platMemCopy dest src size)[i]? =
      if i < min (platMemSize size) (min dest.length src.length) then src[i]? else dest[i]? := by
  unfold platMemCopy
  have hn : min (platMemSize size) (min dest.length src.length) ≤ src.length := by omega
  generalize min (platMemSize size) (min dest.length src.length) = n at hn
  rw [List.getElem?_append, List.length_take, Nat.min_eq_left hn]
  split
  · next hi => exact List.getElem?_take_of_lt hi
  · next hi =>
    rw [List.getElem?_drop]
    congr 1
    omega

/-- A copy of the whole source over a block of its length. -/
theorem platMemCopy_all {dest src : List UInt8} {size : UInt64}
    (hd : dest.length = src.length) (hs : platMemSize size = src.length) :
    platMemCopy dest src size = src := by
  simp only [platMemCopy, hs, hd, Nat.min_self, List.take_length]
  rw [← hd, List.drop_length, List.append_nil]

end ShellJs
