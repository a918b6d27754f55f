import Mathlib.Data.Nat.Bitwise
import ShellJs.Basic
import ShellJs.Lib.Memory

/-!
# Values of V7

A `val_t` is a double, or one of its NaNs with a tag of 16 bits and a payload of 48 bits. Here are
the tags, the payloads that are offsets and pointers, and the bytes of a value.
-/

namespace ShellJs.V7

open Memory

/-- What ends a run inside of V7. -/
inductive V7Stop
  /-- `abort()`. -/
  | abort
  /-- A failed `assert`. -/
  | assertFailed
  /-- A shift of an `int` that is not defined. -/
  | badShift
  | fault (f : Fault)
  deriving DecidableEq

@[simp] theorem v7_ok_bind {ρ τ : Type} (r : ρ) (g : ρ → Except V7Stop τ) :
    (Except.ok r >>= g) = g r := rfl

@[simp] theorem v7_error_bind {ρ τ : Type} (e : V7Stop) (g : ρ → Except V7Stop τ) :
    (Except.error e >>= g) = .error e := rfl

theorem v7_bind_eq_ok {ρ τ : Type} {x : Except V7Stop ρ} {g : ρ → Except V7Stop τ} {r : τ} :
    x >>= g = .ok r ↔ ∃ y, x = .ok y ∧ g y = .ok r := by
  cases x <;> simp

/-- `val_t`. -/
abbrev Val := UInt64

/-! ## Tags -/

/-- `MAKE_TAG`. -/
def makeTag (s t : UInt64) : Val := s <<< 63 ||| (0x7ff0 : UInt64) <<< 48 ||| t <<< 48

def tagForeign : Val := makeTag 1 0xE
def tagStringI : Val := makeTag 1 0xA
def tagString5 : Val := makeTag 1 0x9
def tagStringO : Val := makeTag 1 0x8
def tagStringF : Val := makeTag 1 0x7
def tagStringC : Val := makeTag 1 0x6
def tagStringD : Val := makeTag 1 0x3
def tagMask : Val := makeTag 1 0xF

/-- `v & V7_TAG_MASK`. -/
def tag (v : Val) : Val := v &&& tagMask

/-- `v & ~V7_TAG_MASK`. -/
def payload (v : Val) : Val := v &&& ~~~tagMask

theorem toNat_tag (v : Val) : (tag v).toNat = v.toNat / 2 ^ 48 * 2 ^ 48 := by
  have hmask : tagMask.toNat = (2 ^ 16 - 1) * 2 ^ 48 := rfl
  rw [tag, UInt64.toNat_and, hmask]
  refine Nat.eq_of_testBit_eq fun i => ?_
  rw [Nat.testBit_and, Nat.testBit_mul_two_pow, Nat.testBit_mul_two_pow,
    Nat.testBit_two_pow_sub_one, Nat.testBit_div_two_pow]
  by_cases hi : 48 ≤ i
  · rw [Nat.sub_add_cancel hi]
    by_cases h16 : i - 48 < 16
    · simp [hi, h16]
    · have hlt : v.toNat < 2 ^ i :=
        Nat.lt_of_lt_of_le v.toNat_lt (Nat.pow_le_pow_right (by decide) (by omega))
      simp [Nat.testBit_lt_two_pow hlt]
  · simp [hi]

theorem toNat_payload (v : Val) : (payload v).toNat = v.toNat % 2 ^ 48 := by
  have hmask : (~~~tagMask).toNat = 2 ^ 48 - 1 := by decide
  rw [payload, UInt64.toNat_and, hmask, Nat.and_two_pow_sub_one_eq_mod]

theorem toNat_payload_lt (v : Val) : (payload v).toNat < 2 ^ 48 := by
  rw [toNat_payload]
  exact Nat.mod_lt _ (Nat.two_pow_pos 48)

section
variable {x t : Val}

/-- A tag that is put on a payload. -/
theorem toNat_or_tag (hx : x.toNat < 2 ^ 48) (ht : tag t = t) :
    (x ||| t).toNat = t.toNat + x.toNat := by
  obtain ⟨n, hn⟩ : ∃ n, t.toNat = 2 ^ 48 * n := by
    refine ⟨t.toNat / 2 ^ 48, ?_⟩
    rw [Nat.mul_comm, ← toNat_tag, ht]
  rw [UInt64.toNat_or, hn, Nat.or_comm, ← Nat.two_pow_add_eq_or_of_lt hx]

theorem tag_or (hx : x.toNat < 2 ^ 48) (ht : tag t = t) : tag (x ||| t) = t := by
  refine UInt64.toNat_inj.mp ?_
  have htag := toNat_tag t
  rw [ht] at htag
  rw [toNat_tag, toNat_or_tag hx ht]
  omega

theorem payload_or (hx : x.toNat < 2 ^ 48) (ht : tag t = t) : payload (x ||| t) = x := by
  refine UInt64.toNat_inj.mp ?_
  have htag := toNat_tag t
  rw [ht] at htag
  rw [toNat_payload, toNat_or_tag hx ht]
  omega

end

@[simp] theorem tag_stringI : tag tagStringI = tagStringI := by decide

@[simp] theorem tag_string5 : tag tagString5 = tagString5 := by decide

@[simp] theorem tag_stringO : tag tagStringO = tagStringO := by decide

@[simp] theorem tag_stringF : tag tagStringF = tagStringF := by decide

@[simp] theorem tag_stringC : tag tagStringC = tagStringC := by decide

@[simp] theorem tag_stringD : tag tagStringD = tagStringD := by decide

@[simp] theorem tag_foreign : tag tagForeign = tagForeign := by decide

/-! ## Payloads -/

/-- `v7_to_pointer`. -/
def v7ToPointer (v : Val) : UInt64 := v &&& 0xFFFFFFFFFFFF

/-- `gc_string_val_to_offset`. -/
def gcStringValToOffset (v : Val) : Nat := ((v7ToPointer v &&& ~~~tagMask) &&& 0xFFFFFFFF).toNat

/-- `gc_string_val_from_offset`. -/
def gcStringValFromOffset (s : UInt64) : Val := s ||| tagStringO

/-- `(v >> 32) & 0xFFFF`. -/
def asnOf (v : Val) : UInt16 := (v >>> 32).toUInt16

/-- The value of an owned string: `gc_string_val_from_offset(offset) | asn << 32`. -/
def ownedVal (offset : Nat) (asn : UInt16) : Val :=
  gcStringValFromOffset (UInt64.ofNat offset) ||| asn.toUInt64 <<< 32

theorem gcStringValToOffset_eq (v : Val) : gcStringValToOffset v = v.toNat % 2 ^ 32 := by
  have hptr : (v7ToPointer v).toNat = v.toNat % 2 ^ 48 := by
    rw [v7ToPointer, UInt64.toNat_and]
    exact Nat.and_two_pow_sub_one_eq_mod _ 48
  have hmask : (v7ToPointer v &&& ~~~tagMask).toNat = (v7ToPointer v).toNat % 2 ^ 48 :=
    toNat_payload _
  have hlow : ((v7ToPointer v &&& ~~~tagMask) &&& 0xFFFFFFFF).toNat =
      (v7ToPointer v &&& ~~~tagMask).toNat % 2 ^ 32 := by
    rw [UInt64.toNat_and]
    exact Nat.and_two_pow_sub_one_eq_mod _ 32
  rw [gcStringValToOffset, hlow, hmask, hptr]
  omega

section
variable {offset : Nat} {asn : UInt16}

theorem toNat_place (h : offset < 2 ^ 32) :
    (UInt64.ofNat offset ||| asn.toUInt64 <<< 32).toNat = 2 ^ 32 * asn.toNat + offset := by
  have hasn := asn.toNat_lt
  have hoff : (UInt64.ofNat offset).toNat = offset := by
    rw [UInt64.toNat_ofNat', Nat.mod_eq_of_lt (Nat.lt_trans h (by decide))]
  have hshift : (asn.toUInt64 <<< 32).toNat = 2 ^ 32 * asn.toNat := by
    have h32 : (32 : UInt64).toNat % 64 = 32 := rfl
    rw [UInt64.toNat_shiftLeft, UInt16.toNat_toUInt64, h32, Nat.shiftLeft_eq, Nat.mul_comm]
    exact Nat.mod_eq_of_lt (by omega)
  rw [UInt64.toNat_or, hoff, hshift, Nat.or_comm, ← Nat.two_pow_add_eq_or_of_lt h]

/-- The value that `v7_mk_string` makes of an offset and a sequence number. -/
theorem ownedVal_eq (h : offset < 2 ^ 32) :
    payload (UInt64.ofNat offset ||| asn.toUInt64 <<< 32) ||| tagStringO = ownedVal offset asn := by
  have hlt := asn.toNat_lt
  have hpay : payload (UInt64.ofNat offset ||| asn.toUInt64 <<< 32) =
      UInt64.ofNat offset ||| asn.toUInt64 <<< 32 := by
    refine UInt64.toNat_inj.mp ?_
    rw [toNat_payload, toNat_place h, Nat.mod_eq_of_lt (by omega)]
  rw [hpay, ownedVal, gcStringValFromOffset, UInt64.or_assoc, UInt64.or_comm _ tagStringO,
    ← UInt64.or_assoc]

theorem toNat_ownedVal (h : offset < 2 ^ 32) :
    (ownedVal offset asn).toNat = tagStringO.toNat + (2 ^ 32 * asn.toNat + offset) := by
  have hlt := asn.toNat_lt
  rw [← ownedVal_eq h, toNat_or_tag (toNat_payload_lt _) tag_stringO, toNat_payload, toNat_place h,
    Nat.mod_eq_of_lt (by omega)]

theorem tag_ownedVal (h : offset < 2 ^ 32) : tag (ownedVal offset asn) = tagStringO := by
  rw [← ownedVal_eq h, tag_or (toNat_payload_lt _) tag_stringO]

theorem offset_ownedVal (h : offset < 2 ^ 32) :
    gcStringValToOffset (ownedVal offset asn) = offset := by
  have hlt := asn.toNat_lt
  have htag : tagStringO.toNat = 2 ^ 48 * 0xFFF8 := by decide
  rw [gcStringValToOffset_eq, toNat_ownedVal h, htag]
  omega

theorem asn_ownedVal (h : offset < 2 ^ 32) : asnOf (ownedVal offset asn) = asn := by
  have hlt := asn.toNat_lt
  have hval : (ownedVal offset asn).toNat = _ := toNat_ownedVal h
  have htag : tagStringO.toNat = 2 ^ 48 * 0xFFF8 := by decide
  refine UInt16.toNat_inj.mp ?_
  rw [asnOf, UInt64.toNat_toUInt16, UInt64.toNat_shiftRight, Nat.shiftRight_eq_div_pow, hval, htag]
  show (2 ^ 48 * 0xFFF8 + (2 ^ 32 * asn.toNat + offset)) / 2 ^ 32 % 2 ^ 16 = asn.toNat
  omega

end

/-! ## Bytes -/

/-- `memcpy` into a value. -/
def memcpyVal (v : Val) (pos : Nat) (data : List UInt8) : Val :=
  let bytes := leBytes 8 v.toNat
  UInt64.ofNat (leVal (bytes.take pos ++ data ++ bytes.drop (pos + data.length)))

/-- A `char` as a `size_t`. -/
def charToSize (b : UInt8) : Nat := if b < 128 then b.toNat else 2 ^ 64 - 256 + b.toNat

end ShellJs.V7
