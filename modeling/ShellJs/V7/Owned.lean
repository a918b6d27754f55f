import ShellJs.V7.Compact

/-!
# Owned strings

* `embed_spec`: `embed_string` at the end of the buffer adds a string.
* `mkOwned_spec`: what `v7_mk_string` does with a string that is to be owned. When the buffer grows
  before the string is embedded, and moves, a source in the buffer is lost.
-/

namespace ShellJs.V7

open Memory Function

variable {cmem : CMem} {realloc : Realloc} {v7 : State} {m m' : Mbuf} {strs : List Str} {s : Str}
  {p : Ptr} {b : List UInt8} {len lim : Nat}

/-! ## Sources -/

/-- The pointer leads to the bytes. In the buffer these end before `lim`. -/
structure Points (cmem : CMem) (m : Mbuf) (lim : Nat) (p : Ptr) (b : List UInt8) : Prop where
  bytes : ∃ r, p.bytes cmem m = .ok (b ++ r)
  inside : ∀ gen off, p = .owned gen off → off + b.length < lim

def Ptr.isOwned : Ptr → Bool
  | .owned .. => true
  | _ => false

theorem Ptr.bytes_congr (h : p.isOwned = false) (m m' : Mbuf) :
    p.bytes cmem m' = p.bytes cmem m := by
  cases p with
  | owned gen off => cases h
  | _ => rfl

theorem Points.read (h : Points cmem m lim p b) : p.read cmem m b.length = .ok b := by
  obtain ⟨r, hr⟩ := h.bytes
  rw [Ptr.read, hr, v7_ok_bind, if_pos (by rw [List.length_append]; omega), List.take_left' rfl]
  rfl

theorem Points.ne_null (h : Points cmem m lim p b) : p ≠ .null := by
  rintro rfl
  obtain ⟨r, hr⟩ := h.bytes
  cases hr

theorem bytes_owned (cmem : CMem) {off : Nat} (hb : Holds m.buf off b)
    (hsize : off + b.length ≤ m.size) :
    ∃ r, (Ptr.owned m.gen off).bytes cmem m = .ok (b ++ r) := by
  obtain ⟨d, hd⟩ := Nat.exists_eq_add_of_le hsize
  refine ⟨load m.buf (off + b.length) d, ?_⟩
  have hlen : m.size - off = b.length + d := by omega
  rw [Ptr.bytes, if_pos rfl, hlen, load_add, hb.load_eq rfl]

theorem holds_of_bytes {gen off : Nat} {r : List UInt8}
    (h : (Ptr.owned gen off).bytes cmem m = .ok (b ++ r)) : gen = m.gen ∧ Holds m.buf off b := by
  rw [Ptr.bytes] at h
  split at h
  · rename_i hgen
    have hload := Except.ok.inj h
    have hall := holds_load m.buf off (m.size - off)
    rw [hload] at hall
    exact ⟨hgen, (holds_append.mp hall).1⟩
  · cases h

/-- A source that moves with its buffer. -/
theorem Points.fixup (h : Points cmem m lim p b) (hbuf : ∀ i < lim, m'.buf i = m.buf i)
    (hlen : lim ≤ m.len) (hsize : lim ≤ m'.size) : Points cmem m' lim (fixup m m' p) b := by
  obtain ⟨r, hr⟩ := h.bytes
  cases p with
  | owned gen off =>
    obtain ⟨rfl, hb⟩ := holds_of_bytes hr
    have hin := h.inside _ _ rfl
    have hb' : Holds m'.buf off b := hb.congr fun i _ hi => hbuf i (by omega)
    rw [V7.fixup, if_pos ⟨rfl, by omega⟩]
    refine ⟨bytes_owned cmem hb' (by omega), fun gen' off' heq => ?_⟩
    cases heq
    exact hin
  | null => exact ⟨⟨r, hr⟩, nofun⟩
  | mem _ => exact ⟨⟨r, hr⟩, nofun⟩
  | val _ _ => exact ⟨⟨r, hr⟩, nofun⟩
  | dict _ _ => exact ⟨⟨r, hr⟩, nofun⟩

theorem fixup_of_gen (h : m'.gen = m.gen) (p : Ptr) : V7.fixup m m' p = p := by
  cases p with
  | owned gen off =>
    rw [V7.fixup]
    split
    · rename_i hc
      rw [h, hc.1]
    · rfl
  | _ => rfl

/-- A source in a buffer that does not move. -/
theorem Points.congr (h : Points cmem m lim p b) (hgen : m'.gen = m.gen)
    (hbuf : ∀ i < lim, m'.buf i = m.buf i) (hlen : lim ≤ m.len) (hsize : lim ≤ m'.size) :
    Points cmem m' lim p b := by
  have hfix := h.fixup hbuf hlen hsize
  rwa [fixup_of_gen hgen] at hfix

/-! ## Growth -/

theorem splice_end (m : Mbuf) (n : Nat) :
    m.splice m.len none n = { m with len := m.len + n } := by
  rw [Mbuf.splice, Nat.sub_self]
  rfl

/-- `mbuf_insert` has no room for `n` bytes, and does not get any. -/
def Mbuf.Refused (m : Mbuf) (realloc : Realloc) (n : Nat) : Prop :=
  m.size < m.len + n ∧ realloc ((m.len + n) * 3 / 2) = none

/-- Room at the end of the buffer, unless it has to grow and cannot. -/
theorem insert_end (hm : m.len ≤ m.size) (realloc : Realloc) (n : Nat) :
    (m.insert realloc m.len none n = .ok (m, 0) ∧ m.Refused realloc n) ∨
      ∃ m', m.insert realloc m.len none n = .ok (m', n) ∧ m'.len = m.len + n ∧
        m'.len ≤ m'.size ∧ ∀ i < m.len, m'.buf i = m.buf i := by
  rw [Mbuf.insert, if_pos ⟨hm, Nat.le_refl _⟩]
  split
  · rename_i hfit
    rw [splice_end]
    exact Or.inr ⟨_, rfl, rfl, hfit, fun _ _ => rfl⟩
  · rename_i hfull
    cases hblk : realloc ((m.len + n) * 3 / 2) with
    | none => exact Or.inl ⟨rfl, Nat.lt_of_not_le hfull, hblk⟩
    | some blk =>
      have hsplice := splice_end (m.relocate blk ((m.len + n) * 3 / 2)) n
      refine Or.inr ⟨{ m.relocate blk ((m.len + n) * 3 / 2) with len := m.len + n }, ?_, rfl, ?_,
        fun i hi => if_pos (Nat.lt_of_lt_of_le hi hm)⟩
      · exact congrArg (fun m' => Except.ok (m', n)) hsplice
      · show m.len + n ≤ (m.len + n) * 3 / 2
        omega

/-- The buffer before the string is embedded: it may have moved. -/
theorem resize_grow (realloc : Realloc) {n : Nat} (hn : m.size < n) :
    (m.resize realloc n = m ∧ realloc n = none) ∨
      ∃ blk, realloc n = some blk ∧ m.resize realloc n = m.relocate blk n := by
  rw [Mbuf.resize, if_pos (Or.inl hn)]
  cases hblk : realloc n with
  | none => exact Or.inl ⟨if_pos (by omega), rfl⟩
  | some blk => exact Or.inr ⟨blk, rfl, rfl⟩

/-! ## A new string -/

/-- Bytes that are written behind those of a buffer. -/
theorem Resting.append (h : Resting m strs) (hbuf : ∀ i < m.len, m'.buf i = m.buf i)
    (hbody : Holds m'.buf m.len (s.body ++ [0])) (hlen : m'.len = m.len + s.size)
    (hsize : m'.len ≤ m'.size) : Resting m' (strs ++ [s]) := by
  have hold : Holds m'.buf 0 _ := h.image.congr fun i _ hi => by
    rw [List.length_append, length_image, map_cell_str, List.length_singleton, ← h.len] at hi
    exact hbuf i (by omega)
  have himage : V7.image ((strs ++ [s]).map Str.cell) ++ [0] =
      V7.image (strs.map Str.cell) ++ [0] ++ (s.body ++ [0]) := by
    rw [List.map_append, image_append, List.map_singleton, image_cons, Cell.image_of_nil rfl]
    show _ ++ (0 :: s.body ++ []) ++ [0] = _
    simp only [List.append_nil, List.append_assoc, List.cons_append, List.nil_append]
  refine ⟨?_, ?_, hsize⟩
  · rw [himage]
    refine holds_append.mpr ⟨hold, ?_⟩
    rwa [List.length_append, length_image, map_cell_str, List.length_singleton, ← h.len,
      Nat.zero_add]
  · rw [hlen, h.len, total_append, total_cons]
    show total strs + 1 + s.size = total strs + (s.size + 0) + 1
    omega

theorem write_cases (m : Mbuf) (off : Nat) (data : List UInt8) :
    (m.write off data = .error (.fault .outOfBounds) ∧ m.size < off + data.length) ∨
      m.write off data = .ok { m with buf := store m.buf off data } := by
  rcases Nat.lt_or_ge m.size (off + data.length) with hlt | hge
  · exact Or.inl ⟨if_neg (Nat.not_le_of_lt hlt), hlt⟩
  · exact Or.inr (Mbuf.write_eq hge)

/-- A source, when something is written behind the part of the buffer that it is in. -/
theorem Points.store (h : Points cmem m lim p b) (hlen : lim ≤ m.len) (hsize : m.len ≤ m.size)
    (l : List UInt8) : Points cmem { m with buf := Memory.store m.buf lim l } lim p b :=
  h.congr rfl (fun _ hi => store_of_lt hi) hlen (Nat.le_trans hlen hsize)

/-- Without room for the string something is written outside of the buffer. -/
theorem writeString_error (hshort : len < 2 ^ 28) {offset : Nat}
    (hp : p = .null ∨ ∃ b, Points cmem m offset p b ∧ b.length = len) (hlen : offset ≤ m.len)
    (hsize : m.len ≤ m.size) (hfull : m.size < offset + (llenLoop 10 len + len + 1)) :
    writeString cmem m offset (llenLoop 10 len) p len = .error (.fault .outOfBounds) := by
  have hlast : ∀ buf : Nat → UInt8, ({ m with buf := buf } : Mbuf).write
      (offset + (llenLoop 10 len + len + 1) - 1) [0] = .error (.fault .outOfBounds) := fun buf =>
    if_neg (by show ¬_ + 1 ≤ m.size; omega)
  rw [writeString, (encodeVarint_of_lt hshort).2, v7_ok_bind]
  rcases write_cases m offset (encodeLoop (llenLoop 10 len) len) with ⟨hw, -⟩ | hw
  · rw [hw]
    rfl
  · rw [hw, v7_ok_bind]
    rcases hp with rfl | ⟨b, hb, rfl⟩
    · rw [if_pos rfl]
      exact hlast _
    · rw [if_neg hb.ne_null, (hb.store hlen hsize _).read, v7_ok_bind]
      rcases write_cases { m with buf := _ } (offset + llenLoop 10 b.length) b with ⟨hw, -⟩ | hw
      · rw [hw]
        rfl
      · rw [hw]
        exact hlast _

/-- The string is written where there is room for it. A `NULL` leaves its bytes as they are. -/
theorem writeString_ok (hlong : 6 ≤ len) (hshort : len < 2 ^ 28) {offset : Nat}
    (hp : p = .null ∨ ∃ b, Points cmem m offset p b ∧ b.length = len) (hlen : offset ≤ m.len)
    (hsize : m.len ≤ m.size) (hfit : offset + (llenLoop 10 len + len + 1) ≤ m.size) :
    ∃ buf, ∃ s : Str, writeString cmem m offset (llenLoop 10 len) p len =
        .ok { m with buf := buf } ∧ s.bytes.length = len ∧
      Holds buf offset (s.body ++ [0]) ∧ (∀ i < offset, buf i = m.buf i) ∧
      ∀ b, Points cmem m offset p b → b.length = len → s.bytes = b := by
  obtain ⟨enc, henc⟩ : ∃ enc, enc = encodeLoop (llenLoop 10 len) len := ⟨_, rfl⟩
  have henclen : enc.length = llenLoop 10 len := by rw [henc, length_encodeLoop]
  have hw : m.write offset enc = .ok { m with buf := store m.buf offset enc } :=
    Mbuf.write_eq (by omega)
  -- the length and the bytes; what is left is the NUL
  have hlast : ∀ (buf : Nat → UInt8) (d : List UInt8) (hd : d.length = len),
      Holds buf offset (enc ++ d) → (∀ i < offset, buf i = m.buf i) →
      ∃ buf', ∃ s : Str, ({ m with buf := buf } : Mbuf).write
          (offset + (llenLoop 10 len + len + 1) - 1) [0] = .ok { m with buf := buf' } ∧
        s.bytes = d ∧ Holds buf' offset (s.body ++ [0]) ∧ ∀ i < offset, buf' i = m.buf i := by
    intro buf d hd hbuf hsame
    have hplace : offset + (llenLoop 10 len + len + 1) - 1 = offset + (enc ++ d).length := by
      rw [List.length_append, henclen, hd]
      omega
    have hbody : (⟨d, hd ▸ hlong, hd ▸ hshort⟩ : Str).body = enc ++ d := by
      subst hd
      rw [henc]
      rfl
    refine ⟨store buf (offset + (enc ++ d).length) [0], ⟨d, hd ▸ hlong, hd ▸ hshort⟩, ?_, rfl, ?_,
      fun i hi => (store_of_lt (by omega)).trans (hsame i hi)⟩
    · rw [hplace]
      refine Mbuf.write_eq ?_
      rw [List.length_append, henclen, hd, List.length_singleton]
      exact hfit
    · rw [hbody]
      exact holds_append.mpr ⟨hbuf.store (Or.inl (Nat.le_refl _)), holds_store_self _ _ _⟩
  rw [writeString, (encodeVarint_of_lt hshort).2, v7_ok_bind, ← henc, hw, v7_ok_bind]
  have hbehind : ∀ i < offset, store m.buf offset enc i = m.buf i := fun i hi => store_of_lt hi
  rcases hp with rfl | ⟨b, hb, rfl⟩
  · rw [if_pos rfl]
    obtain ⟨buf, s, hrun, hs, hholds, hsame⟩ := hlast (store m.buf offset enc)
      (load (store m.buf offset enc) (offset + enc.length) len) length_load
      (holds_append.mpr ⟨holds_store_self _ _ _, holds_load _ _ _⟩) hbehind
    refine ⟨buf, s, hrun, by rw [hs, length_load], hholds, hsame, fun b hb => ?_⟩
    exact absurd rfl hb.ne_null
  · rw [if_neg hb.ne_null, (hb.store hlen hsize enc).read, v7_ok_bind, ← henclen,
      Mbuf.write_eq (by show _ ≤ m.size; omega), v7_ok_bind, henclen]
    obtain ⟨buf, s, hrun, hs, hholds, hsame⟩ := hlast
      (store (store m.buf offset enc) (offset + enc.length) b) b rfl
      (holds_append.mpr ⟨(holds_store_self _ _ _).store (Or.inl (Nat.le_refl _)),
        holds_store_self _ _ _⟩)
      fun i hi => (store_of_lt (by omega)).trans (hbehind i hi)
    refine ⟨buf, s, ?_, by rw [hs], hholds, hsame, fun b' hb' hlen' => ?_⟩
    · rw [← hrun, henclen]
    · have hread := hb'.read
      rw [hlen', hb.read] at hread
      rw [hs, Except.ok.inj hread]

/-- `embed_string` at the end of the buffer. -/
theorem embed_spec (realloc : Realloc) (h : Resting m strs) (hlong : 6 ≤ len)
    (hshort : len < 2 ^ 28) (hp : p = .null ∨ ∃ b, Points cmem m m.len p b ∧ b.length = len) :
    (embedString cmem realloc m m.len p len = .error (.fault .outOfBounds) ∧
        m.Refused realloc (llenLoop 10 len + len + 1)) ∨
      ∃ m' s, embedString cmem realloc m m.len p len = .ok m' ∧ Resting m' (strs ++ [s]) ∧
        s.bytes.length = len ∧ ∀ b, Points cmem m m.len p b → b.length = len → s.bytes = b := by
  rw [embedString, (encodeVarint_of_lt hshort).1, v7_ok_bind]
  rcases insert_end h.size realloc (llenLoop 10 len + len + 1) with
    ⟨hins, hno⟩ | ⟨new, hins, hlen, hsize, hsame⟩
  · refine Or.inl ⟨?_, hno⟩
    rw [hins, v7_ok_bind]
    simp only []
    rw [fixup_of_gen rfl, writeString_error hshort hp (Nat.le_refl _) h.size hno.1]
  · have hpoints : ∀ b, Points cmem m m.len p b → Points cmem new m.len (fixup m new p) b :=
      fun b hb => hb.fixup hsame (Nat.le_refl _) (by omega)
    have hp' : fixup m new p = .null ∨
        ∃ b, Points cmem new m.len (fixup m new p) b ∧ b.length = len :=
      hp.imp (fun hnull => by rw [hnull, fixup]; exact nofun) fun ⟨b, hb, hlen⟩ =>
        ⟨b, hpoints b hb, hlen⟩
    obtain ⟨buf, s, hrun, hs, hholds, hbuf, heq⟩ := writeString_ok hlong hshort hp' (by omega) hsize
      (by omega)
    refine Or.inr ⟨{ new with buf := buf }, s, ?_, ?_, hs,
      fun b hb hlen => heq b (hpoints b hb) hlen⟩
    · rw [hins, v7_ok_bind]
      exact hrun
    · refine h.append (fun i hi => (hbuf i hi).trans (hsame i hi)) hholds ?_ hsize
      show new.len = m.len + s.size
      rw [hlen, Str.size_eq, Str.llen, hs]
      omega

/-! ## `v7_mk_string` -/

theorem computeNeedGc_eq (v7 : State) : ∃ g, computeNeedGc v7 = { v7 with needGc := g } := by
  rw [computeNeedGc]
  split
  · exact ⟨true, rfl⟩
  · exact ⟨v7.needGc, rfl⟩

/-- The buffer is too small for the bytes alone, and moves when it grows. -/
def Moves (realloc : Realloc) (m : Mbuf) (len : Nat) : Prop :=
  m.size < m.len + len ∧ ∃ blk, realloc (m.len + len + vStringBufReserve) = some blk ∧
    blk.moved = true

theorem Resting.relocate (h : Resting m strs) {blk : Block} {n : Nat} (hn : m.len ≤ n) :
    Resting (m.relocate blk n) strs := by
  refine ⟨h.image.congr fun i _ hi => if_pos ?_, h.len, hn⟩
  have hsize := h.size
  rw [List.length_append, length_image, map_cell_str, List.length_singleton, ← h.len] at hi
  omega

/-- The string is read from a block that has been freed. -/
theorem embedString_moved {gen off : Nat} (hlong : 6 ≤ len) (hshort : len < 2 ^ 28)
    (hfit : m.len + (llenLoop 10 len + len + 1) ≤ m.size) (hgen : gen ≠ m.gen) :
    embedString cmem realloc m m.len (.owned gen off) len = .error (.fault .badPointer) := by
  have hins : m.insert realloc m.len none (llenLoop 10 len + len + 1) =
      .ok ({ m with len := m.len + (llenLoop 10 len + len + 1) }, llenLoop 10 len + len + 1) := by
    rw [Mbuf.insert, if_pos ⟨by omega, Nat.le_refl _⟩, if_pos hfit, splice_end]
  have hfix : ∀ new : Mbuf, fixup m new (.owned gen off) = .owned gen off := fun new =>
    if_neg fun h => hgen h.1
  rw [embedString, (encodeVarint_of_lt hshort).1, v7_ok_bind, hins, v7_ok_bind]
  simp only [hfix]
  rw [writeString, (encodeVarint_of_lt hshort).2, v7_ok_bind,
    Mbuf.write_eq (by rw [length_encodeLoop]; show _ ≤ m.size; omega), v7_ok_bind,
    if_neg nofun, Ptr.read, Ptr.bytes, if_neg hgen]
  rfl

/-- The buffer before the string is embedded. -/
def grown (realloc : Realloc) (m : Mbuf) (len : Nat) : Mbuf :=
  if m.len + len > m.size then m.resize realloc (m.len + len + vStringBufReserve) else m

theorem grown_spec (cmem : CMem) (h : Resting m strs) (realloc : Realloc) (len : Nat) (p : Ptr) :
    Resting (grown realloc m len) strs ∧ (grown realloc m len).len = m.len ∧
      ((p.isOwned = true ∧ Moves realloc m len ∧ (grown realloc m len).gen = m.gen + 1 ∧
          (grown realloc m len).size = m.len + len + vStringBufReserve) ∨
        (¬(p.isOwned = true ∧ Moves realloc m len) ∧
          ∀ b, Points cmem m m.len p b → Points cmem (grown realloc m len) m.len p b)) := by
  rw [grown]
  split
  · rename_i hfull
    rcases resize_grow realloc (n := m.len + len + vStringBufReserve)
      (Nat.lt_of_lt_of_le hfull (Nat.le_add_right _ _)) with ⟨hsame, hno⟩ | ⟨blk, hblk, hsome⟩
    · rw [hsame]
      refine ⟨h, rfl, Or.inr ⟨?_, fun b hb => hb⟩⟩
      rintro ⟨-, -, blk, hblk, -⟩
      rw [hno] at hblk
      cases hblk
    · rw [hsome]
      have hrest : Resting (m.relocate blk (m.len + len + vStringBufReserve)) strs :=
        h.relocate (by omega)
      refine ⟨hrest, rfl, ?_⟩
      cases howned : p.isOwned with
      | false =>
        refine Or.inr ⟨fun hc => absurd hc.1 Bool.false_ne_true, fun b hb => ⟨?_, hb.inside⟩⟩
        rw [Ptr.bytes_congr howned]
        exact hb.bytes
      | true =>
        cases hmoved : blk.moved with
        | true =>
          exact Or.inl ⟨rfl, ⟨hfull, blk, hblk, hmoved⟩,
            by rw [Mbuf.relocate, if_pos hmoved], rfl⟩
        | false =>
          refine Or.inr ⟨?_, fun b hb => hb.congr ?_ ?_ (Nat.le_refl _) ?_⟩
          · rintro ⟨-, -, blk', hblk', hmoved'⟩
            obtain rfl := Option.some.inj (hblk.symm.trans hblk')
            rw [hmoved] at hmoved'
            cases hmoved'
          · rw [Mbuf.relocate, hmoved]
            rfl
          · exact fun i hi => if_pos (Nat.lt_of_lt_of_le hi h.size)
          · exact hrest.size
  · rename_i hfit
    exact ⟨h, rfl, Or.inr ⟨fun hc => hfit hc.2.1, fun b hb => hb⟩⟩

theorem mkOwned_eq (cmem : CMem) (realloc : Realloc) (v7 : State) (p : Ptr) (len : Nat) :
    ∃ g, mkOwned cmem realloc v7 p len = (do
      let m ← embedString cmem realloc (grown realloc v7.ownedStrings len)
        (grown realloc v7.ownedStrings len).len p len
      return ({ v7 with
          ownedStrings := m
          needGc := g
          gcNextAsn := v7.gcNextAsn + 1 },
        payload (UInt64.ofNat v7.ownedStrings.len ||| v7.gcNextAsn.toUInt64 <<< 32) |||
          tagStringO)) := by
  obtain ⟨g, hg⟩ := computeNeedGc_eq v7
  refine ⟨g, ?_⟩
  rw [mkOwned, hg]
  simp only [nextAsn_eq, grown]

theorem mkOwned_spec (cmem : CMem) (realloc : Realloc) (h : Resting v7.ownedStrings strs)
    (hlong : 6 ≤ len) (hshort : len < 2 ^ 28) (hroom : total strs + 1 < 2 ^ 32)
    (hp : p = .null ∨
      ∃ b, Points cmem v7.ownedStrings v7.ownedStrings.len p b ∧ b.length = len) :
    (p.isOwned = true ∧ Moves realloc v7.ownedStrings len ∧
        mkOwned cmem realloc v7 p len = .error (.fault .badPointer)) ∨
      (¬(p.isOwned = true ∧ Moves realloc v7.ownedStrings len) ∧
        ((mkOwned cmem realloc v7 p len = .error (.fault .outOfBounds) ∧
            (grown realloc v7.ownedStrings len).Refused realloc (llenLoop 10 len + len + 1)) ∨
        ∃ m g, ∃ s : Str, mkOwned cmem realloc v7 p len =
            .ok ({ v7 with
              ownedStrings := m
              needGc := g
              gcNextAsn := v7.gcNextAsn + 1 }, ownedVal (total strs + 1) v7.gcNextAsn) ∧
          Resting m (strs ++ [s]) ∧ s.bytes.length = len ∧
          ∀ b, Points cmem v7.ownedStrings v7.ownedStrings.len p b → b.length = len →
            s.bytes = b)) := by
  obtain ⟨g, hmk⟩ := mkOwned_eq cmem realloc v7 p len
  obtain ⟨hrest, hlen, ⟨howned, hmoves, hgen, hsize⟩ | ⟨hstay, hpoints⟩⟩ :=
    grown_spec cmem h realloc len p
  · refine Or.inl ⟨howned, hmoves, ?_⟩
    obtain ⟨b, hb, rfl⟩ := hp.resolve_left (by rintro rfl; cases howned)
    obtain ⟨r, hr⟩ := hb.bytes
    cases p with
    | owned gen off =>
      obtain ⟨rfl, -⟩ := holds_of_bytes hr
      have hk : llenLoop 10 b.length ≤ 4 := llenLoop_le 10 (by decide) hshort
      rw [hmk, embedString_moved hlong hshort _ (by omega)]
      · rfl
      · rw [hlen, hsize, vStringBufReserve]
        omega
    | _ => cases howned
  · refine Or.inr ⟨hstay, ?_⟩
    have hp' : p = .null ∨ ∃ b, Points cmem (grown realloc v7.ownedStrings len)
        (grown realloc v7.ownedStrings len).len p b ∧ b.length = len := by
      rw [hlen]
      exact hp.imp_right fun ⟨b, hb, heq⟩ => ⟨b, hpoints b hb, heq⟩
    rcases embed_spec realloc hrest hlong hshort hp' with
      ⟨herr, hno⟩ | ⟨m, s, hrun, hm, hs, heq⟩
    · refine Or.inl ⟨?_, hno⟩
      rw [hmk, herr]
      rfl
    · refine Or.inr ⟨m, g, s, ?_, hm, hs, fun b hb hlen' => heq b ?_ hlen'⟩
      · rw [hmk, hrun, h.len, ← ownedVal_eq hroom]
        rfl
      · rw [hlen]
        exact hpoints b hb

end ShellJs.V7
