import Mathlib.Tactic.Ring
import ShellJs.V7.Value

/-!
# Lengths of variable size

`varint.c`: seven bits of a length in each byte, the lowest first, and a high bit that says whether
another byte follows. The writer takes any length that `calc_llen` accepts. The reader shifts an
`int`, so it has an answer for lengths below `2^31` only.

* `decode_encode_iff`: the lengths that can be written, and those that come back.
-/

namespace ShellJs.V7

open Memory

/-! ## The source -/

/-- The loop of `calc_llen`; a `size_t` has at most ten groups. -/
def llenLoop : Nat → Nat → Nat
  | 0, _ => 0
  | fuel + 1, len => if len >>> 7 = 0 then 1 else llenLoop fuel (len >>> 7) + 1

/-- `calc_llen`. -/
def calcLlen (len : Nat) : Except V7Stop Nat :=
  let n := llenLoop 10 len
  if n ≤ 8 then .ok n else .error .assertFailed

/-- The loop of `encode_varint` over the bytes that are left. -/
def encodeLoop : Nat → Nat → List UInt8
  | 0, _ => []
  | k + 1, len =>
    (UInt8.ofNat (len &&& 0x7f) ||| if k = 0 then 0 else 0x80) :: encodeLoop k (len >>> 7)

/-- `encode_varint`. -/
def encodeVarint (len : Nat) : Except V7Stop (List UInt8) := do
  let llen ← calcLlen len
  return encodeLoop llen len

/-- The loop of `decode_varint`. -/
def decodeLoop (p : Nat → UInt8) : Nat → Nat → Nat → Except V7Stop (Nat × Nat)
  | 0, i, stringLen => .ok (stringLen, i)
  | fuel + 1, i, stringLen =>
    let bits := (p i &&& 0x7f).toNat <<< (7 * i)
    if 7 * i < 32 ∧ bits < 2 ^ 31 then
      if p i &&& 0x80 = 0 then .ok (stringLen ||| bits, i + 1)
      else decodeLoop p fuel (i + 1) (stringLen ||| bits)
    else .error .badShift

/-- `decode_varint`: the length, and `*llen`. -/
def decodeVarint (p : Nat → UInt8) : Except V7Stop (Nat × Nat) := decodeLoop p 8 0 0

/-! ## Bytes -/

theorem and_7f (b : UInt8) : (b &&& 0x7f).toNat = b.toNat % 128 := by
  have hmask : (0x7f : UInt8).toNat = 2 ^ 7 - 1 := rfl
  rw [UInt8.toNat_and, hmask, Nat.and_two_pow_sub_one_eq_mod]

theorem and_80_eq_zero_iff (b : UInt8) : b &&& 0x80 = 0 ↔ b.toNat < 128 := by
  have h : ∀ i : Fin 256, UInt8.ofNat i.val &&& 0x80 = 0 ↔ i.val < 128 := by decide +kernel
  have hb := h ⟨b.toNat, b.toNat_lt⟩
  rwa [show UInt8.ofNat b.toNat = b from UInt8.ofNat_toNat] at hb

theorem toNat_group (len k : Nat) :
    (UInt8.ofNat (len &&& 0x7f) ||| if k = 0 then 0 else 0x80).toNat =
      len % 128 + if k = 0 then 0 else 128 := by
  have hlt : len % 128 < 128 := Nat.mod_lt _ (by decide)
  have hlow : (UInt8.ofNat (len &&& 0x7f)).toNat = len % 128 := by
    have hand : len &&& 0x7f = len % 128 := Nat.and_two_pow_sub_one_eq_mod len 7
    rw [hand, UInt8.toNat_ofNat', Nat.mod_eq_of_lt (Nat.lt_trans hlt (by decide))]
  rw [UInt8.toNat_or, hlow]
  split
  · exact Nat.or_zero _
  · have hbit : (0x80 : UInt8).toNat = 2 ^ 7 * 1 := rfl
    rw [hbit, Nat.or_comm, ← Nat.two_pow_add_eq_or_of_lt hlt, Nat.mul_one, Nat.add_comm]

/-! ## The writer -/

@[simp] theorem length_encodeLoop (k len : Nat) : (encodeLoop k len).length = k := by
  induction k generalizing len with
  | zero => rfl
  | succ k ih => rw [encodeLoop, List.length_cons, ih]

theorem llenLoop_pos (fuel len : Nat) : 0 < llenLoop (fuel + 1) len := by
  rw [llenLoop]
  split
  · exact Nat.one_pos
  · exact Nat.succ_pos _

/-- A length of `k` groups. -/
theorem llenLoop_le {k : Nat} (fuel : Nat) {len : Nat} (hk : 0 < k) (h : len < 2 ^ (7 * k)) :
    llenLoop fuel len ≤ k := by
  induction fuel generalizing k len with
  | zero => exact Nat.zero_le k
  | succ fuel ih =>
    rw [llenLoop, Nat.shiftRight_eq_div_pow]
    split
    · exact hk
    · rename_i hne
      cases k with
      | zero => exact absurd hk (Nat.lt_irrefl 0)
      | succ k =>
        have hdiv : len / 2 ^ 7 < 2 ^ (7 * k) := by
          rw [Nat.div_lt_iff_lt_mul (by decide), ← Nat.pow_add, ← Nat.mul_succ]
          exact h
        refine Nat.succ_le_succ (ih (Nat.pos_of_ne_zero ?_) hdiv)
        rintro rfl
        omega

theorem lt_of_llenLoop_le {fuel k len : Nat} (hk : k < fuel) (h : llenLoop fuel len ≤ k) :
    len < 2 ^ (7 * k) := by
  induction fuel generalizing k len with
  | zero => exact absurd hk (Nat.not_lt_zero k)
  | succ fuel ih =>
    cases k with
    | zero => exact absurd (llenLoop_pos fuel len) (Nat.not_lt_of_le h)
    | succ k =>
      rw [llenLoop, Nat.shiftRight_eq_div_pow] at h
      have hdiv : len / 2 ^ 7 < 2 ^ (7 * k) := by
        split at h
        · rename_i hzero
          rw [hzero]
          exact Nat.two_pow_pos _
        · exact ih (Nat.lt_of_succ_lt_succ hk) (Nat.le_of_succ_le_succ h)
      rwa [Nat.div_lt_iff_lt_mul (by decide), ← Nat.pow_add, ← Nat.mul_succ] at hdiv

/-- The lengths that `calc_llen` accepts. -/
theorem encodeVarint_iff {len : Nat} : (∃ bytes, encodeVarint len = .ok bytes) ↔ len < 2 ^ 56 := by
  rw [encodeVarint, calcLlen]
  constructor
  · rintro ⟨bytes, h⟩
    split at h
    · rename_i hle
      exact lt_of_llenLoop_le (by decide) hle
    · cases h
  · intro h
    rw [if_pos (llenLoop_le 10 (by decide) h)]
    exact ⟨_, rfl⟩

theorem encodeVarint_of_lt {len : Nat} (h : len < 2 ^ 28) :
    calcLlen len = .ok (llenLoop 10 len) ∧
      encodeVarint len = .ok (encodeLoop (llenLoop 10 len) len) := by
  have hle : llenLoop 10 len ≤ 4 := llenLoop_le 10 (by decide) h
  have hcalc : calcLlen len = .ok (llenLoop 10 len) := if_pos (Nat.le_trans hle (by decide))
  refine ⟨hcalc, ?_⟩
  rw [encodeVarint, hcalc]
  rfl

/-! ## The reader -/

theorem decodeLoop_lt {p : Nat → UInt8} {fuel i acc v n : Nat} (hacc : acc < 2 ^ 31)
    (h : decodeLoop p fuel i acc = .ok (v, n)) : v < 2 ^ 31 := by
  induction fuel generalizing i acc with
  | zero =>
    obtain ⟨rfl, -⟩ := Prod.mk.inj (Except.ok.inj h)
    exact hacc
  | succ fuel ih =>
    rw [decodeLoop] at h
    split at h
    · rename_i hc
      have hor := Nat.or_lt_two_pow hacc hc.2
      split at h
      · obtain ⟨rfl, -⟩ := Prod.mk.inj (Except.ok.inj h)
        exact hor
      · exact ih hor h
    · cases h

theorem llenLoop_succ (fuel len : Nat) :
    llenLoop (fuel + 1) len = if len / 128 = 0 then 1 else llenLoop fuel (len / 128) + 1 := by
  rw [llenLoop, Nat.shiftRight_eq_div_pow]

/-- One byte of the writer, read. -/
theorem decodeLoop_group {p : Nat → UInt8} {fuel i acc len k : Nat} (hshift : 7 * i < 32)
    (hfit : len % 128 * 2 ^ (7 * i) < 2 ^ 31) (hacc : acc < 2 ^ (7 * i))
    (hp : p i = UInt8.ofNat (len &&& 0x7f) ||| if k = 0 then 0 else 0x80) :
    decodeLoop p (fuel + 1) i acc =
      if k = 0 then .ok (acc + len % 128 * 2 ^ (7 * i), i + 1)
      else decodeLoop p fuel (i + 1) (acc + len % 128 * 2 ^ (7 * i)) := by
  have hlt : len % 128 < 128 := Nat.mod_lt _ (by decide)
  have hbyte := toNat_group len k
  rw [← hp] at hbyte
  have hlow : (p i &&& 0x7f).toNat = len % 128 := by
    rw [and_7f, hbyte]
    split <;> omega
  have hmore : p i &&& 0x80 = 0 ↔ k = 0 := by
    rw [and_80_eq_zero_iff, hbyte]
    split <;> omega
  have hor : acc ||| (len % 128) <<< (7 * i) = acc + len % 128 * 2 ^ (7 * i) := by
    rw [Nat.shiftLeft_eq, Nat.or_comm, Nat.mul_comm, ← Nat.two_pow_add_eq_or_of_lt hacc,
      Nat.add_comm]
  rw [decodeLoop, hlow, hor, if_pos ⟨hshift, by rwa [Nat.shiftLeft_eq]⟩]
  by_cases hk : k = 0
  · rw [if_pos hk, if_pos (hmore.mpr hk)]
  · rw [if_neg hk, if_neg fun h => hk (hmore.mp h)]

theorem shift_lt {i rest : Nat} (hfit : rest * 2 ^ (7 * i) < 2 ^ 31) (hi : i = 0 ∨ 0 < rest) :
    7 * i < 32 := by
  rcases hi with rfl | hpos
  · decide
  · refine Nat.lt_of_not_le fun hge => ?_
    have hle := Nat.mul_le_mul hpos (Nat.pow_le_pow_right (by decide : 0 < 2) hge)
    omega

theorem decodeLoop_last {p : Nat → UInt8} {fuel i acc rest : Nat}
    (hfit : rest * 2 ^ (7 * i) < 2 ^ 31) (hacc : acc < 2 ^ (7 * i)) (hi : i = 0 ∨ 0 < rest)
    (hq : rest / 128 = 0)
    (hp : p i = UInt8.ofNat (rest &&& 0x7f) ||| if (0 : Nat) = 0 then 0 else 0x80) :
    decodeLoop p (fuel + 1) i acc = .ok (acc + rest * 2 ^ (7 * i), i + 1) := by
  have hrest : rest % 128 = rest := by omega
  rw [decodeLoop_group (shift_lt hfit hi) (by rwa [hrest]) hacc hp, if_pos rfl, hrest]

/-- The reader on what the writer has left to write: the groups below are in `acc`. -/
theorem decodeLoop_encodeLoop {p : Nat → UInt8} {fuel fuel' i acc rest : Nat}
    (hfit : rest * 2 ^ (7 * i) < 2 ^ 31) (hacc : acc < 2 ^ (7 * i)) (hi : i = 0 ∨ 0 < rest)
    (hrest : rest < 2 ^ (7 * (fuel + 1))) (hfuel : llenLoop (fuel + 1) rest ≤ fuel')
    (hp : Holds p i (encodeLoop (llenLoop (fuel + 1) rest) rest)) :
    decodeLoop p fuel' i acc = .ok (acc + rest * 2 ^ (7 * i), i + llenLoop (fuel + 1) rest) := by
  induction fuel generalizing fuel' i acc rest with
  | zero =>
    have hq : rest / 128 = 0 := Nat.div_eq_of_lt hrest
    obtain ⟨fuel', rfl⟩ := Nat.exists_eq_add_of_lt (Nat.lt_of_lt_of_le (llenLoop_pos 0 rest) hfuel)
    rw [llenLoop_succ, if_pos hq] at hp ⊢
    rw [Nat.zero_add, decodeLoop_last hfit hacc hi hq hp.1]
  | succ fuel ih =>
    obtain ⟨fuel', rfl⟩ := Nat.exists_eq_add_of_lt
      (Nat.lt_of_lt_of_le (llenLoop_pos (fuel + 1) rest) hfuel)
    rw [Nat.zero_add] at hfuel ⊢
    by_cases hq : rest / 128 = 0
    · rw [llenLoop_succ, if_pos hq] at hp ⊢
      rw [decodeLoop_last hfit hacc hi hq hp.1]
    · rw [llenLoop_succ, if_neg hq] at hp hfuel ⊢
      obtain ⟨hbyte, hp⟩ := hp
      rw [Nat.shiftRight_eq_div_pow] at hp
      have hk : llenLoop (fuel + 1) (rest / 128) ≠ 0 := Nat.ne_of_gt (llenLoop_pos _ _)
      have hnext : 2 ^ (7 * (i + 1)) = 2 ^ (7 * i) * 128 := by
        rw [Nat.mul_succ, Nat.pow_add]
      have hsplit : rest * 2 ^ (7 * i) =
          rest % 128 * 2 ^ (7 * i) + rest / 128 * (2 ^ (7 * i) * 128) := by
        conv_lhs => rw [← Nat.div_add_mod rest 128]
        ring
      rw [decodeLoop_group (shift_lt hfit hi) (by omega) hacc hbyte, if_neg hk,
        @ih _ (i + 1) _ (rest / 128) ?_ ?_ (Or.inr (Nat.pos_of_ne_zero hq)) ?_
          (Nat.le_of_succ_le_succ hfuel) hp, hnext, hsplit, Nat.add_assoc, Nat.add_right_comm,
        Nat.add_assoc i]
      · rw [hnext]
        omega
      · have hlt : rest % 128 * 2 ^ (7 * i) ≤ 127 * 2 ^ (7 * i) :=
          Nat.mul_le_mul_right _ (Nat.le_of_lt_succ (Nat.mod_lt _ (by decide)))
        omega
      · rw [Nat.div_lt_iff_lt_mul (by decide)]
        rwa [Nat.mul_succ, Nat.pow_add] at hrest

theorem decodeVarint_encodeLoop {p : Nat → UInt8} {len : Nat} (h : len < 2 ^ 31)
    (hp : Holds p 0 (encodeLoop (llenLoop 10 len) len)) :
    decodeVarint p = .ok (len, llenLoop 10 len) := by
  have hle : llenLoop 10 len ≤ 5 :=
    llenLoop_le 10 (by decide) (Nat.lt_trans h (by decide))
  have hrest : len < 2 ^ (7 * 10) := Nat.lt_trans h (by decide)
  rw [decodeVarint, @decodeLoop_encodeLoop p 9 _ 0 0 len (by rwa [Nat.mul_zero, Nat.pow_zero,
    Nat.mul_one]) (by decide) (Or.inl rfl) hrest (Nat.le_trans hle (by decide)) hp, Nat.zero_add,
    Nat.zero_add, Nat.mul_zero, Nat.pow_zero, Nat.mul_one]

/-- The lengths that can be written, and those of them that come back, whatever follows them in
memory. -/
theorem decode_encode_iff {len : Nat} :
    ((∃ bytes, encodeVarint len = .ok bytes) ↔ len < 2 ^ 56) ∧
      ∀ p bytes, encodeVarint len = .ok bytes → Holds p 0 bytes →
        (decodeVarint p = .ok (len, bytes.length) ↔ len < 2 ^ 31) := by
  refine ⟨encodeVarint_iff, fun p bytes hbytes hp => ⟨fun h => ?_, fun h => ?_⟩⟩
  · exact decodeLoop_lt (Nat.two_pow_pos 31) h
  · have hle : llenLoop 10 len ≤ 8 :=
      llenLoop_le 10 (by decide) (Nat.lt_trans h (by decide))
    rw [encodeVarint, calcLlen, if_pos hle] at hbytes
    obtain rfl := Except.ok.inj hbytes
    rw [decodeVarint_encodeLoop h hp, length_encodeLoop]

/-- On both sides of the two bounds. -/
theorem decode_encode_iff_sample :
    decodeVarint (fun i => [0xac, 0x02].getD i 0) = .ok (300, 2) ∧
    encodeVarint (2 ^ 31) = .ok [0x80, 0x80, 0x80, 0x80, 0x08] ∧
    decodeVarint (fun i => [0x80, 0x80, 0x80, 0x80, 0x08].getD i 0) ≠ .ok (2 ^ 31, 5) ∧
    ¬∃ bytes, encodeVarint (2 ^ 56) = .ok bytes := by
  have hbytes : encodeVarint (2 ^ 31) = .ok [0x80, 0x80, 0x80, 0x80, 0x08] := by decide
  refine ⟨?_, hbytes, fun h => ?_, fun h => ?_⟩
  · exact (decode_encode_iff.2 _ [0xac, 0x02] (by decide) ⟨rfl, rfl, trivial⟩).mpr (by decide)
  · have hlt := (decode_encode_iff.2 _ _ hbytes (holds_getD _ 0)).mp h
    exact absurd hlt (by decide)
  · exact absurd (decode_encode_iff.1.mp h) (by decide)

end ShellJs.V7
