import ShellJs.V7.Owned

/-!
# Strings inside of values, and reading

* `wordOf`: a tag with up to six bytes under it.
* `flatVal`: the value of a string that is not owned.
* `flat_reads`, `owned_reads`: what `v7_get_string_data` leads to, with a NUL behind it.
* `mkString_flat`, `mkString_owned`: the two ways of `v7_mk_string`.
-/

namespace ShellJs.V7

open Memory Sentinel Function

variable {cmem : CMem} {realloc : Realloc} {v7 : State} {m : Mbuf} {strs pre post : List Str}
  {s : Str} {p : Ptr} {v t : Val} {b l r data : List UInt8} {len pos lim i : Nat} {asn : UInt16}
  {next : Option UInt8}

/-! ## The bytes of a value -/

theorem leBytes_memcpyVal (v : Val) (pos : Nat) (data : List UInt8)
    (h : pos + data.length ≤ 8) (hl : leBytes 8 v.toNat = l) :
    leBytes 8 (memcpyVal v pos data).toNat = l.take pos ++ data ++ l.drop (pos + data.length) := by
  have hlen : l.length = 8 := by rw [← hl, length_leBytes]
  have hnew : (l.take pos ++ data ++ l.drop (pos + data.length)).length = 8 := by
    rw [List.length_append, List.length_append, List.length_take, List.length_drop]
    omega
  have hlt := leVal_lt (l.take pos ++ data ++ l.drop (pos + data.length))
  rw [hnew] at hlt
  rw [memcpyVal, hl, UInt64.toNat_ofNat', Nat.mod_eq_of_lt (by exact hlt), leBytes_of_leVal hnew]

theorem val_eq_of_leBytes {w : Val} (h : leBytes 8 v.toNat = leBytes 8 w.toNat) : v = w :=
  UInt64.toNat_inj.mp (leBytes_inj v.toNat_lt w.toNat_lt h)

theorem payload_eq_chunk (hl : leBytes 8 v.toNat = l) : payload v = chunk (l.take 6) := by
  refine UInt64.toNat_inj.mp ?_
  have hsix : (l.take 6).length = 6 := by rw [← hl, List.length_take, length_leBytes]; rfl
  rw [toNat_payload, toNat_chunk hsix, ← hl, take_leBytes (by decide), leVal_leBytes]
  rfl

theorem leBytes_chunk_or (hl : l.length = 6) (ht : tag t = t) :
    leBytes 8 (chunk l ||| t).toNat = l ++ leBytes 2 (t.toNat / 2 ^ 48) := by
  have hlt := chunk_lt hl
  have htag := toNat_tag t
  rw [ht] at htag
  have hlow : (t.toNat + (chunk l).toNat) / 256 ^ 6 = t.toNat / 2 ^ 48 := by omega
  have hmod : (t.toNat + (chunk l).toNat) % 256 ^ 6 = leVal l := by
    rw [toNat_chunk hl] at hlt ⊢
    omega
  have hsix : leBytes 6 (t.toNat + (chunk l).toNat) = l := by
    rw [← leBytes_of_leVal (length_leBytes (k := 6)), leVal_leBytes, hmod, leBytes_of_leVal hl]
  rw [toNat_or_tag hlt ht, leBytes_add 6 2, hlow, hsix]

/-! ## Words -/

/-- Six bytes, with zeros at the end. -/
def padded (l : List UInt8) : List UInt8 := l ++ List.replicate (6 - l.length) 0

/-- The bytes `l` under the tag `t`. -/
def wordOf (t : Val) (l : List UInt8) : Val := chunk (padded l) ||| t

theorem length_padded (h : l.length ≤ 6) : (padded l).length = 6 := by
  rw [padded, List.length_append, List.length_replicate]
  omega

theorem padded_append : (padded l).take l.length ++ data ++
    (padded l).drop (l.length + data.length) = padded (l ++ data) := by
  have hrest : 6 - l.length - data.length = 6 - (l ++ data).length := by
    rw [List.length_append]
    omega
  rw [padded, List.take_left' rfl, ← List.drop_drop, List.drop_left' rfl, List.drop_replicate,
    hrest, padded]

theorem tag_wordOf (h : l.length ≤ 6) (ht : tag t = t) : tag (wordOf t l) = t :=
  tag_or (chunk_lt (length_padded h)) ht

theorem leBytes_wordOf (h : l.length ≤ 6) (ht : tag t = t) :
    leBytes 8 (wordOf t l).toNat = padded l ++ leBytes 2 (t.toNat / 2 ^ 48) :=
  leBytes_chunk_or (length_padded h) ht

/-- A `memcpy` behind the bytes of a word. -/
theorem memcpyVal_wordOf (h : (l ++ data).length ≤ 6) (ht : tag t = t) :
    memcpyVal (wordOf t l) l.length data = wordOf t (l ++ data) := by
  rw [List.length_append] at h
  have hl : l.length ≤ 6 := by omega
  have hpad := length_padded hl
  refine val_eq_of_leBytes ?_
  rw [leBytes_memcpyVal _ _ _ (by omega) (leBytes_wordOf hl ht),
    leBytes_wordOf (by rwa [List.length_append]) ht, List.take_append_of_le_length (by omega),
    List.drop_append_of_le_length (by omega), ← List.append_assoc, padded_append]

theorem leBytes_zero : leBytes 8 (0 : Val).toNat = List.replicate 8 0 := rfl

theorem valByte_wordOf {x : UInt8} (h : (x :: l).length ≤ 6) (ht : tag t = t) :
    valByte (wordOf t (x :: l)) = x :=
  (List.cons.inj (leBytes_wordOf h ht)).1

theorem drop_zeros {j k : Nat} (h : j + k = 6) :
    (List.replicate 8 (0 : UInt8)).drop j = List.replicate k 0 ++ List.replicate 2 0 := by
  rw [List.drop_replicate, List.replicate_append_replicate]
  congr 1
  omega

/-- What `v7_mk_string` puts into a value. -/
theorem payload_memcpyVal (h : data.length ≤ 6) :
    payload (memcpyVal 0 0 data) ||| t = wordOf t data := by
  have hbytes := leBytes_memcpyVal 0 0 data (by omega) leBytes_zero
  have hwhole : leBytes 8 (memcpyVal 0 0 data).toNat = padded data ++ List.replicate 2 0 := by
    rw [hbytes, drop_zeros (k := 6 - data.length) (by omega), padded, List.take_zero,
      List.nil_append, List.append_assoc]
  rw [payload_eq_chunk hwhole, List.take_left' (length_padded h)]
  rfl

theorem inlineVal_eq (h : data.length ≤ 4) :
    inlineVal len data = wordOf tagStringI (UInt8.ofNat len :: data) := by
  have hdata := leBytes_memcpyVal 0 1 data (by omega) leBytes_zero
  have hbytes := leBytes_memcpyVal _ 0 [UInt8.ofNat len]
    (Nat.le_of_ble_eq_true rfl) hdata
  have hwhole : leBytes 8 (memcpyVal (memcpyVal 0 1 data) 0 [UInt8.ofNat len]).toNat =
      padded (UInt8.ofNat len :: data) ++ List.replicate 2 0 := by
    rw [hbytes, drop_zeros (k := 6 - (data.length + 1)) (by omega), padded]
    simp only [List.append_assoc]
    rfl
  rw [inlineVal, payload_eq_chunk hwhole, List.take_left' (length_padded (Nat.le_trans
    (Nat.succ_le_succ h) (by decide)))]
  rfl

/-! ## Values without a buffer -/

/-- The value of a string that is short or frequent. -/
def flatVal (b : List UInt8) : Option Val :=
  if b.length ≤ 4 then some (wordOf tagStringI (UInt8.ofNat b.length :: b))
  else if b.length = 5 then some (wordOf tagString5 b)
  else (vFindStringInDictionary (some b)).map fun i => wordOf tagStringD [UInt8.ofNat i]

/-- The string of a value can be read, and so can `next` behind it. In the buffer it ends before
`lim`. -/
structure Reads (cmem : CMem) (v7 : State) (lim : Nat) (v : Val) (p : Ptr) (b : List UInt8)
    (next : Option UInt8) : Prop where
  data : v7GetStringData v7 v = .ok (p, b.length)
  bytes : ∃ r, p.bytes cmem v7.ownedStrings = .ok (b ++ r) ∧ r.head? = next
  inside : ∀ gen off, p = .owned gen off → off + b.length < lim

theorem Reads.points (h : Reads cmem v7 lim v p b next) : Points cmem v7.ownedStrings lim p b :=
  ⟨h.bytes.imp fun _ hr => hr.1, h.inside⟩

/-- A pointer into a string. -/
theorem bytes_add (h : p.bytes cmem m = .ok l) {k : Nat} (hk : k ≤ l.length) :
    (p.add k).bytes cmem m = .ok (l.drop k) := by
  cases p with
  | null => cases h
  | mem a =>
    obtain rfl := Except.ok.inj h
    exact congrArg Except.ok (cmem.read_add a k hk)
  | owned gen off =>
    rw [Ptr.bytes] at h
    split at h
    · rename_i hgen
      obtain rfl := Except.ok.inj h
      rw [length_load] at hk
      rw [Ptr.add, Ptr.bytes, if_pos hgen, drop_load hk, Nat.sub_add_eq]
    · cases h
  | val v i =>
    obtain rfl := Except.ok.inj h
    rw [Ptr.add, Ptr.bytes, List.drop_drop]
  | dict index i =>
    rw [Ptr.bytes] at h
    rw [Ptr.add, Ptr.bytes]
    split at h
    · obtain rfl := Except.ok.inj h
      rw [List.drop_drop]
    · cases h

theorem isOwned_add (p : Ptr) (k : Nat) : (p.add k).isOwned = p.isOwned := by
  cases p <;> rfl

/-- A part of a string. -/
theorem Reads.points_add (h : Reads cmem v7 lim v p b next) {k n : Nat} (hk : k + n ≤ b.length) :
    Points cmem v7.ownedStrings lim (p.add k) ((b.drop k).take n) := by
  obtain ⟨r, hr, -⟩ := h.bytes
  refine ⟨⟨(b.drop k).drop n ++ r, ?_⟩, ?_⟩
  · rw [bytes_add hr (by rw [List.length_append]; omega), List.drop_append_of_le_length (by omega),
      ← List.append_assoc, List.take_append_drop]
  · intro gen off heq
    cases p with
    | owned gen' off' =>
      cases heq
      have hin := h.inside _ _ rfl
      rw [List.length_take, List.length_drop]
      omega
    | _ => cases heq

theorem val_reads {x : Nat} (hx : v7GetStringData v7 v = .ok (.val v x, b.length))
    (hb : (leBytes 8 v.toNat).drop x = b ++ 0 :: r) :
    Reads cmem v7 lim v (.val v x) b (some 0) :=
  ⟨hx, ⟨0 :: r, congrArg Except.ok hb, rfl⟩, nofun⟩

theorem toNat_byte {n : Nat} (h : n < 256) : (UInt8.ofNat n).toNat = n := by
  rw [UInt8.toNat_ofNat', Nat.mod_eq_of_lt h]

theorem inline_reads (h : b.length ≤ 4) :
    Reads cmem v7 lim (wordOf tagStringI (UInt8.ofNat b.length :: b))
      (.val (wordOf tagStringI (UInt8.ofNat b.length :: b)) 1) b (some 0) := by
  have hle : (UInt8.ofNat b.length :: b).length ≤ 6 := by
    rw [List.length_cons]
    omega
  obtain ⟨k, hk⟩ : ∃ k, 6 - (b.length + 1) = k + 1 := ⟨4 - b.length, by omega⟩
  refine val_reads (r := List.replicate k 0 ++ leBytes 2 (tagStringI.toNat / 2 ^ 48)) ?_ ?_
  · have hbyte : UInt8.ofNat b.length < 128 := by
      rw [UInt8.lt_iff_toNat_lt, toNat_byte (by omega)]
      exact Nat.lt_of_le_of_lt h (by decide)
    rw [v7GetStringData, if_pos (tag_wordOf hle tag_stringI), valByte_wordOf hle tag_stringI,
      charToSize, if_pos hbyte, toNat_byte (by omega)]
  · rw [leBytes_wordOf hle tag_stringI, padded, List.length_cons, hk, List.replicate_succ]
    simp only [List.append_assoc, List.cons_append]
    rfl

theorem five_reads (h : b.length = 5) :
    Reads cmem v7 lim (wordOf tagString5 b) (.val (wordOf tagString5 b) 0) b (some 0) := by
  have hle : b.length ≤ 6 := by omega
  refine val_reads (r := leBytes 2 (tagString5.toNat / 2 ^ 48)) ?_ ?_
  · rw [v7GetStringData, tag_wordOf hle tag_string5, if_neg (by decide), if_pos rfl, h]
  · rw [leBytes_wordOf hle tag_string5, padded, h, List.drop_zero, List.append_assoc]
    rfl

theorem dictionary_reads (hi : vDictionaryStrings[i]? = some b) :
    Reads cmem v7 lim (wordOf tagStringD [UInt8.ofNat i]) (.dict i 0) b (some 0) := by
  have hle : [UInt8.ofNat i].length ≤ 6 := by simp
  have hlt : i < vDictionaryStrings.length := (List.getElem?_eq_some_iff.mp hi).1
  have hindex : (valByte (wordOf tagStringD [UInt8.ofNat i])).toNat = i := by
    rw [valByte_wordOf hle tag_stringD, toNat_byte (Nat.lt_trans hlt (by decide +kernel))]
  refine ⟨?_, ⟨[0], ?_, rfl⟩, nofun⟩
  · rw [v7GetStringData, tag_wordOf hle tag_stringD, if_neg (by decide), if_neg (by decide),
      if_pos rfl, hindex, hi]
  · rw [Ptr.bytes, hi]
    rfl

theorem flat_reads (h : flatVal b = some v) (hshort : b.length < 2 ^ 31) (cmem : CMem)
    (v7 : State) (lim : Nat) : ∃ p, Reads cmem v7 lim v p b (some 0) ∧ p.isOwned = false := by
  rw [flatVal] at h
  split at h
  · rename_i hle
    obtain rfl := Option.some.inj h
    exact ⟨_, inline_reads hle, rfl⟩
  · split at h
    · rename_i heq
      obtain rfl := Option.some.inj h
      exact ⟨_, five_reads heq, rfl⟩
    · obtain ⟨i, hi, rfl⟩ := Option.map_eq_some_iff.mp h
      exact ⟨_, dictionary_reads ((find_iff hshort).mp hi), rfl⟩

theorem flatVal_tag (h : flatVal b = some v) : tag v ≠ tagStringO := by
  rw [flatVal] at h
  split at h
  · rename_i hle
    obtain rfl := Option.some.inj h
    rw [tag_wordOf (by rw [List.length_cons]; omega) tag_stringI]
    decide
  · split at h
    · rename_i heq
      obtain rfl := Option.some.inj h
      rw [tag_wordOf (by omega) tag_string5]
      decide
    · obtain ⟨i, -, rfl⟩ := Option.map_eq_some_iff.mp h
      rw [tag_wordOf (by simp) tag_stringD]
      decide

theorem flatVal_none (h : flatVal b = none) : 6 ≤ b.length := by
  rw [flatVal] at h
  split at h
  · cases h
  · split at h
    · cases h
    · omega

theorem owned_reads (cmem : CMem) (h : Resting v7.ownedStrings (pre ++ s :: post))
    (hoff : total pre + 1 < 2 ^ 32)
    (hasn : gcIsValidAllocationSeqn v7 asn = true) (hlim : total pre + s.size < lim) :
    Reads cmem v7 lim (ownedVal (total pre + 1) asn)
      (.owned v7.ownedStrings.gen (total pre + 1 + s.llen)) s.bytes (some 0) := by
  have himage := h.image
  have hsize := h.size
  have hlen := h.len
  rw [List.map_append, image_append, List.map_cons, image_cons, Cell.image_of_nil rfl,
    List.append_assoc, List.append_assoc] at himage
  obtain ⟨-, -, hbody⟩ := holds_append.mp himage
  rw [length_image, map_cell_str, Nat.zero_add] at hbody
  change Holds _ _ (s.body ++ _) at hbody
  obtain ⟨hbody, hnul⟩ := holds_append.mp hbody
  have hlength := s.length_body
  rw [total_append, total_cons, Str.size_eq] at hlen
  obtain ⟨hpre, hdata⟩ := holds_append.mp hbody
  rw [length_encodeLoop] at hdata
  -- the byte behind the string is the next mark, or the end of the buffer
  have hzero : v7.ownedStrings.buf (total pre + 1 + s.body.length) = 0 := by
    rw [firstMark_eq hnul]
    cases post with
    | nil => rfl
    | cons q post => rfl
  have hholds : Holds v7.ownedStrings.buf (total pre + 1 + s.llen) (s.bytes ++ [0]) := by
    refine holds_append.mpr ⟨hdata, ?_, trivial⟩
    rw [Nat.add_assoc, ← hlength]
    exact hzero
  obtain ⟨r, hr⟩ := bytes_owned cmem hholds (by
    rw [List.length_append, List.length_singleton]
    omega)
  refine ⟨?_, ⟨0 :: r, ?_, rfl⟩, ?_⟩
  · rw [v7GetStringData, tag_ownedVal hoff, if_neg (by decide), if_neg (by decide),
      if_neg (by decide), if_pos rfl, asn_ownedVal hoff, gcCheckValidAllocationSeqn, if_pos hasn,
      v7_ok_bind]
    simp only [offset_ownedVal hoff, Str.decodeVarint_eq hpre, v7_ok_bind]
    rfl
  · rw [hr, List.append_assoc]
    rfl
  · rintro gen off heq
    cases heq
    rw [Str.size_eq] at hlim
    omega

/-! ## `v7_mk_string` -/

theorem source_points (h : Points cmem v7.ownedStrings pos p b) :
    source cmem v7.ownedStrings p b.length = .ok (some b) := by
  rw [source, if_neg h.ne_null, h.read]
  rfl

/-- The string of some bytes, as far as it needs no buffer. -/
theorem mkString_flat (hshort : b.length < 2 ^ 28) (h : Points cmem v7.ownedStrings pos p b)
    (copy : Bool) (hflat : flatVal b = some v) :
    v7MkString cmem realloc v7 p b.length copy = .ok (v7, v) := by
  have hlen : b.length ≠ 2 ^ 64 - 1 := by omega
  rw [v7MkString, if_neg hlen]
  simp only [pure_bind, source_points h, v7_ok_bind, Option.getD_some]
  rw [flatVal] at hflat
  split at hflat
  · rename_i hle
    rw [if_pos hle, inlineVal_eq hle, Option.some.inj hflat]
    rfl
  · rename_i hle
    rw [if_neg hle]
    split at hflat
    · rename_i heq
      rw [if_pos heq, payload_memcpyVal (by omega), Option.some.inj hflat]
      rfl
    · rename_i hne
      obtain ⟨i, hi, rfl⟩ := Option.map_eq_some_iff.mp hflat
      have hdict : payload (memcpyVal 0 0 [UInt8.ofNat i]) ||| tagStringD =
          wordOf tagStringD [UInt8.ofNat i] := payload_memcpyVal (by simp)
      rw [if_neg hne, hi, ← hdict]
      rfl

theorem mkString_buffer (hshort : b.length < 2 ^ 28) (h : Points cmem v7.ownedStrings pos p b)
    (hflat : flatVal b = none) :
    v7MkString cmem realloc v7 p b.length true = mkOwned cmem realloc v7 p b.length ∧
      ∀ a, p = .mem a →
        v7MkString cmem realloc v7 p b.length false = mkForeign realloc v7 a b.length := by
  have hlen : b.length ≠ 2 ^ 64 - 1 := by omega
  have hlong := flatVal_none hflat
  rw [flatVal, if_neg (by omega), if_neg (by omega), Option.map_eq_none_iff] at hflat
  constructor
  · rw [v7MkString, if_neg hlen]
    simp only [pure_bind, source_points h, v7_ok_bind]
    rw [if_neg (by omega), if_neg (by omega), hflat]
    rfl
  · rintro a rfl
    rw [v7MkString, if_neg hlen]
    simp only [pure_bind, source_points h, v7_ok_bind]
    rw [if_neg (by omega), if_neg (by omega), hflat]
    rfl

/-- The length of a string that ends with a NUL. -/
theorem mkString_strlen (h : p.bytes cmem v7.ownedStrings = .ok l) (hnul : 0 ∈ l)
    (hshort : (cut 0 l).length < 2 ^ 28) (copy : Bool) :
    v7MkString cmem realloc v7 p (2 ^ 64 - 1) copy =
      v7MkString cmem realloc v7 p (cut 0 l).length copy := by
  have hlen : (cut 0 l).length ≠ 2 ^ 64 - 1 := by omega
  rw [v7MkString, if_pos rfl, Ptr.strlen, h, v7_ok_bind, if_pos hnul, v7MkString, if_neg hlen]

/-- The string that is made before its bytes are. -/
theorem mkString_null (hshort : len < 2 ^ 28) :
    v7MkString cmem realloc v7 .null len true =
      if len ≤ 4 then .ok (v7, wordOf tagStringI [UInt8.ofNat len])
      else if len = 5 then .ok (v7, wordOf tagString5 [])
      else mkOwned cmem realloc v7 .null len := by
  have hlen : len ≠ 2 ^ 64 - 1 := by omega
  rw [v7MkString, if_neg hlen]
  simp only [pure_bind, source, if_true, v7_ok_bind, Option.getD_none]
  have hfive : payload (memcpyVal 0 0 []) ||| tagString5 = wordOf tagString5 [] :=
    payload_memcpyVal (Nat.zero_le 6)
  rw [@inlineVal_eq [] len (Nat.zero_le 4), hfive]
  rfl

end ShellJs.V7
