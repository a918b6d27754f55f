import ShellJs.V7.Flat
import ShellJs.V7.Spec

/-!
# What a value stands for

* `Owns`: the buffer holds these strings, and the sequence numbers count them.
* `valid_iff`: which strings of the buffer the collector takes for valid.
* `Represents`: a value stands for a content of the spec.
* `Represents.reads`: the string of a value can be read, unless its number is not valid any more.
-/

namespace ShellJs.V7

open Memory Function

variable {cmem : CMem} {v7 : State} {m m' : Mbuf} {strs more pre post : List Str} {s : Str}
  {v : Val} {b r : List UInt8} {len lim pos a i n : Nat} {c : Content} {next : Option UInt8}

/-! ## The buffer and its numbers -/

/-- The strings of the buffer. The number of a string is its index, from `gc_min_asn` on. -/
structure Owns (v7 : State) (strs : List Str) : Prop where
  resting : Resting v7.ownedStrings strs
  next : v7.gcNextAsn = v7.gcMinAsn + UInt16.ofNat strs.length
  foreign : v7.foreignStrings.len ≤ v7.foreignStrings.size

/-- The numbers wrap around, and so they are valid in a window only. -/
theorem valid_iff (h : v7.gcNextAsn = v7.gcMinAsn + UInt16.ofNat n) :
    gcIsValidAllocationSeqn v7 (v7.gcMinAsn + UInt16.ofNat i) = true ↔ i % 2 ^ 16 < n % 2 ^ 16 := by
  have hmin := v7.gcMinAsn.toNat_lt
  have hi : (v7.gcMinAsn + UInt16.ofNat i).toNat = (v7.gcMinAsn.toNat + i % 2 ^ 16) % 2 ^ 16 := by
    rw [UInt16.toNat_add, UInt16.toNat_ofNat']
  have hn : v7.gcNextAsn.toNat = (v7.gcMinAsn.toNat + n % 2 ^ 16) % 2 ^ 16 := by
    rw [h, UInt16.toNat_add, UInt16.toNat_ofNat']
  simp only [gcIsValidAllocationSeqn, Bool.or_eq_true, Bool.and_eq_true, decide_eq_true_eq,
    ge_iff_le, gt_iff_lt, UInt16.le_iff_toNat_le, UInt16.lt_iff_toNat_lt]
  rw [hi, hn]
  omega

theorem Owns.valid (h : Owns v7 strs) (hi : i < strs.length) :
    gcIsValidAllocationSeqn v7 (v7.gcMinAsn + UInt16.ofNat i) = true ∨ 2 ^ 16 ≤ strs.length := by
  rw [valid_iff h.next]
  omega

/-! ## Foreign strings -/

/-- The value of a string that `foreign_strings` has an entry for. -/
def foreignVal (pos : Nat) : Val := payload (UInt64.ofNat pos) ||| tagStringF

/-- The entry of a string: its length and its address. -/
def entry (len a : Nat) : List UInt8 := encodeLoop (llenLoop 10 len) len ++ leBytes 8 a

structure HasEntry (m : Mbuf) (pos len a : Nat) : Prop where
  holds : Holds m.buf pos (entry len a)
  inside : pos + (entry len a).length ≤ m.len
  small : pos < 2 ^ 32

theorem length_entry (len a : Nat) : (entry len a).length = llenLoop 10 len + 8 := by
  rw [entry, List.length_append, length_encodeLoop, length_leBytes]

theorem tag_foreignVal (pos : Nat) : tag (foreignVal pos) = tagStringF :=
  tag_or (toNat_payload_lt _) tag_stringF

theorem offset_foreignVal (h : pos < 2 ^ 32) : gcStringValToOffset (foreignVal pos) = pos := by
  have htag : tagStringF.toNat = 2 ^ 48 * 0xFFF7 := by decide
  rw [gcStringValToOffset_eq, foreignVal, toNat_or_tag (toNat_payload_lt _) tag_stringF,
    toNat_payload, htag, UInt64.toNat_ofNat', Nat.mod_eq_of_lt (Nat.lt_trans h (by decide))]
  omega

theorem foreign_reads (h : HasEntry v7.foreignStrings pos b.length a)
    (hsize : v7.foreignStrings.len ≤ v7.foreignStrings.size) (hshort : b.length < 2 ^ 31)
    (ha : a < 2 ^ 64) (hb : cmem.read a = b ++ r) :
    Reads cmem v7 lim (foreignVal pos) (.mem a) b r.head? := by
  obtain ⟨hlen, haddr⟩ := holds_append.mp h.holds
  rw [length_encodeLoop] at haddr
  have hin := h.inside
  rw [length_entry] at hin
  have hdecode := decodeVarint_encodeLoop hshort (holds_shift.mpr hlen)
  have haddr' := haddr.load_eq length_leBytes
  refine ⟨?_, ⟨r, congrArg Except.ok hb, rfl⟩, nofun⟩
  rw [v7GetStringData, tag_foreignVal, if_neg (by decide), if_neg (by decide), if_neg (by decide),
    if_neg (by decide), if_pos rfl]
  simp only [offset_foreignVal h.small, hdecode, v7_ok_bind]
  rw [Mbuf.read_eq (by omega), v7_ok_bind, haddr', leVal_leBytes_of_lt (by exact ha)]
  rfl

/-! ## Values -/

/-- A value and what it stands for, when the buffer holds `strs`. -/
inductive Represents (cmem : CMem) (min : UInt16) (foreign : Mbuf) (strs : List Str) :
    Val → Content → Prop
  | dead (v : Val) : Represents cmem min foreign strs v .dead
  | other {v : Val} (h : v7IsString v = false) : Represents cmem min foreign strs v (.other v)
  | flat {b : List UInt8} {v : Val} (h : flatVal b = some v) (hshort : b.length < 2 ^ 28) :
    Represents cmem min foreign strs v (.str b (some 0))
  | owned {pre post : List Str} {s : Str} (h : strs = pre ++ s :: post) :
    Represents cmem min foreign strs (ownedVal (total pre + 1) (min + UInt16.ofNat pre.length))
      (.str s.bytes (some 0))
  | foreign {b r : List UInt8} {pos a : Nat} (h : HasEntry foreign pos b.length a)
    (hshort : b.length < 2 ^ 28) (ha : a < 2 ^ 64) (hb : cmem.read a = b ++ r) :
    Represents cmem min foreign strs (foreignVal pos) (.str b r.head?)

variable {min : UInt16} {foreign foreign' : Mbuf}

/-- What is in the buffer of foreign strings stays there. -/
structure Extends (m m' : Mbuf) : Prop where
  buf : ∀ i < m.len, m'.buf i = m.buf i
  len : m.len ≤ m'.len

theorem Extends.refl (m : Mbuf) : Extends m m := ⟨fun _ _ => rfl, Nat.le_refl _⟩

theorem HasEntry.mono (h : HasEntry m pos len a) (he : Extends m m') : HasEntry m' pos len a :=
  ⟨h.holds.congr fun i _ hi => he.buf i (Nat.lt_of_lt_of_le hi h.inside),
    Nat.le_trans h.inside he.len, h.small⟩

/-- A value stands for the same when strings are added. -/
theorem Represents.mono (h : Represents cmem min foreign strs v c) (more : List Str)
    (he : Extends foreign foreign') : Represents cmem min foreign' (strs ++ more) v c := by
  cases h with
  | dead v => exact .dead v
  | other h => exact .other h
  | flat h hshort => exact .flat h hshort
  | owned h =>
    rename_i pre post s
    have hmore : strs ++ more = pre ++ s :: (post ++ more) := by
      rw [h, List.append_assoc, List.cons_append]
    exact .owned hmore
  | foreign h hshort ha hb => exact .foreign (h.mono he) hshort ha hb

/-- A value that is not in the buffer stands for the same, whatever the buffer holds. -/
theorem Represents.of_tag_ne (h : Represents cmem min foreign strs v c) (htag : tag v ≠ tagStringO)
    (hroom : total strs + 1 < 2 ^ 32) (min' : UInt16) (strs' : List Str) :
    Represents cmem min' foreign strs' v c := by
  cases h with
  | dead v => exact .dead v
  | other h => exact .other h
  | flat h hshort => exact .flat h hshort
  | owned h =>
    rename_i pre post s
    refine absurd (tag_ownedVal ?_) htag
    rw [h, total_append] at hroom
    omega
  | foreign h hshort ha hb => exact .foreign h hshort ha hb

/-- What is in use refers to the buffer, or has no owned string. -/
theorem Represents.place (h : Represents cmem min foreign strs v c) (hc : c ≠ .dead) :
    tag v ≠ tagStringO ∨ ∃ pre s post, strs = pre ++ s :: post ∧
      v = ownedVal (total pre + 1) (min + UInt16.ofNat pre.length) ∧ c = .str s.bytes (some 0) := by
  cases h with
  | dead v => exact absurd rfl hc
  | other h =>
    refine Or.inl fun htag => ?_
    rw [v7IsString, htag] at h
    exact absurd h (by decide)
  | flat h hshort => exact Or.inl (flatVal_tag h)
  | owned h => exact Or.inr ⟨_, _, _, h, rfl, rfl⟩
  | foreign h hshort ha hb =>
    refine Or.inl ?_
    rw [tag_foreignVal]
    decide

theorem total_split_le (h : strs = pre ++ s :: post) : total pre + s.size ≤ total strs := by
  rw [h, total_append, total_cons]
  omega

theorem ownedVal_abort (hoff : pos < 2 ^ 32) {asn : UInt16}
    (h : gcIsValidAllocationSeqn v7 asn = false) :
    v7GetStringData v7 (ownedVal pos asn) = .error .abort := by
  rw [v7GetStringData, tag_ownedVal hoff, if_neg (by decide), if_neg (by decide),
    if_neg (by decide), if_pos rfl, asn_ownedVal hoff, gcCheckValidAllocationSeqn, h,
    if_neg Bool.false_ne_true]
  rfl

/-- The string of a value, also when some have been added since. -/
theorem Represents.reads
    (h : Represents cmem v7.gcMinAsn v7.foreignStrings strs v (.str b next)) (more : List Str)
    (ho : Owns v7 (strs ++ more)) (hroom : total strs + 1 < 2 ^ 32) :
    (v7GetStringData v7 v = .error .abort ∧ 2 ^ 16 ≤ (strs ++ more).length) ∨
      ∃ p, Reads cmem v7 (total strs + 1) v p b next := by
  generalize hc : Content.str b next = c at h
  cases h with
  | dead v => cases hc
  | other h => cases hc
  | flat h hshort =>
    cases hc
    obtain ⟨p, hp, -⟩ := flat_reads h (Nat.lt_trans hshort (by decide)) cmem v7 (total strs + 1)
    exact Or.inr ⟨p, hp⟩
  | owned h =>
    rename_i pre post s
    cases hc
    have hle := total_split_le h
    have hoff : total pre + 1 < 2 ^ 32 := by omega
    have hi : pre.length < (strs ++ more).length := by
      rw [h, List.append_assoc, List.length_append, List.cons_append, List.length_cons]
      omega
    cases hasn : gcIsValidAllocationSeqn v7 (v7.gcMinAsn + UInt16.ofNat pre.length) with
    | true =>
      have hrest := ho.resting
      rw [h, List.append_assoc, List.cons_append] at hrest
      exact Or.inr ⟨_, owned_reads cmem hrest hoff hasn (Nat.lt_succ_of_le hle)⟩
    | false =>
      refine Or.inl ⟨ownedVal_abort hoff hasn, (ho.valid hi).resolve_left ?_⟩
      rw [hasn]
      exact Bool.false_ne_true
  | foreign h hshort ha hb =>
    cases hc
    exact Or.inr ⟨_, foreign_reads h ho.foreign (Nat.lt_trans hshort (by decide)) ha hb⟩

end ShellJs.V7
