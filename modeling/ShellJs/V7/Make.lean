import ShellJs.V7.Represents

/-!
# New strings

* `Made`: the outcome of an operation that makes the string `b`.
* `copy_spec`, `foreign_spec`: `v7_mk_string` with a copy and without one.
* `concat_spec`: `s_concat`.
-/

namespace ShellJs.V7

open Memory Function

variable {cmem : CMem} {realloc : Realloc} {v7 v7' : State} {m : Mbuf} {strs more : List Str}
  {s : Str} {p : Ptr} {v va vb : Val} {b l r x y : List UInt8} {len lim a n : Nat}
  {nx ny : Option UInt8}

/-- The state has the string `b` in the value `v`, and all that it had before. -/
structure Made (cmem : CMem) (v7 : State) (strs more : List Str) (b : List UInt8)
    (next : Option UInt8) (v7' : State) (v : Val) : Prop where
  owns : Owns v7' (strs ++ more)
  min : v7'.gcMinAsn = v7.gcMinAsn
  foreign : Extends v7.foreignStrings v7'.foreignStrings
  value : Represents cmem v7'.gcMinAsn v7'.foreignStrings (strs ++ more) v (.str b next)

theorem made_flat (ho : Owns v7 strs) (h : flatVal b = some v) (hshort : b.length < 2 ^ 28) :
    Made cmem v7 strs [] b (some 0) v7 v :=
  ⟨by rwa [List.append_nil], rfl, .refl _, .flat h hshort⟩

/-- A string at the end of the buffer. -/
theorem Owns.snoc (ho : Owns v7 strs) {g : Bool} (hm : Resting m (strs ++ [s])) :
    Owns { v7 with ownedStrings := m, needGc := g, gcNextAsn := v7.gcNextAsn + 1 }
      (strs ++ [s]) := by
  refine ⟨hm, ?_, ho.foreign⟩
  show v7.gcNextAsn + 1 = v7.gcMinAsn + UInt16.ofNat (strs ++ [s]).length
  rw [ho.next, List.length_append, UInt16.ofNat_add, UInt16.add_assoc]
  rfl

theorem represents_last (ho : Owns v7 strs) (foreign : Mbuf) :
    Represents cmem v7.gcMinAsn foreign (strs ++ [s]) (ownedVal (total strs + 1) v7.gcNextAsn)
      (.str s.bytes (some 0)) := by
  rw [ho.next]
  exact .owned rfl

/-! ## `v7_mk_string` -/

/-- `embed_string` gets no room for a string that is to be owned. -/
def OwnedRefused (realloc : Realloc) (v7 : State) (len : Nat) : Prop :=
  (grown realloc v7.ownedStrings len).Refused realloc (llenLoop 10 len + len + 1)

/-- There is no room for the length and the pointer of a string that is not copied. -/
def ForeignRefused (realloc : Realloc) (v7 : State) (len : Nat) : Prop :=
  v7.foreignStrings.Refused realloc (llenLoop 10 len + 8)

theorem copy_spec (realloc : Realloc) (ho : Owns v7 strs) (hroom : total strs + 1 < 2 ^ 32)
    (hp : Points cmem v7.ownedStrings v7.ownedStrings.len p b) (hshort : b.length < 2 ^ 28) :
    (v7MkString cmem realloc v7 p b.length true = .error (.fault .badPointer) ∧
        p.isOwned = true ∧ Moves realloc v7.ownedStrings b.length) ∨
      (v7MkString cmem realloc v7 p b.length true = .error (.fault .outOfBounds) ∧
        OwnedRefused realloc v7 b.length) ∨
      ∃ v7' v more, v7MkString cmem realloc v7 p b.length true = .ok (v7', v) ∧
        Made cmem v7 strs more b (some 0) v7' v := by
  cases hflat : flatVal b with
  | some v =>
    exact Or.inr (Or.inr ⟨v7, v, [], mkString_flat hshort hp true hflat, made_flat ho hflat hshort⟩)
  | none =>
    rw [(mkString_buffer hshort hp hflat).1]
    rcases mkOwned_spec cmem realloc ho.resting (flatVal_none hflat) hshort hroom
      (Or.inr ⟨b, hp, rfl⟩) with
      ⟨howned, hmoves, herr⟩ | ⟨-, ⟨herr, hno⟩ | ⟨m, g, s, hok, hm, -, hs⟩⟩
    · exact Or.inl ⟨herr, howned, hmoves⟩
    · exact Or.inr (Or.inl ⟨herr, hno⟩)
    · refine Or.inr (Or.inr ⟨_, _, [s], hok, ho.snoc hm, rfl, .refl _, ?_⟩)
      rw [← hs b hp rfl]
      exact represents_last ho _

/-- A string that goes into `foreign_strings`. -/
theorem mkForeign_spec (realloc : Realloc) (ho : Owns v7 strs)
    (hroom : v7.foreignStrings.len < 2 ^ 32) (hshort : b.length < 2 ^ 28) (ha : a < 2 ^ 64)
    (hb : cmem.read a = b ++ r) :
    (mkForeign realloc v7 a b.length = .error (.fault .outOfBounds) ∧
        ForeignRefused realloc v7 b.length) ∨
      ∃ v7' v, mkForeign realloc v7 a b.length = .ok (v7', v) ∧
        Made cmem v7 strs [] b r.head? v7' v := by
  obtain ⟨k, hk⟩ : ∃ k, k = llenLoop 10 b.length := ⟨_, rfl⟩
  obtain ⟨enc, henc⟩ : ∃ enc, enc = encodeLoop k b.length := ⟨_, rfl⟩
  have henclen : enc.length = k := by rw [henc, length_encodeLoop]
  have hentry : entry b.length a = enc ++ leBytes 8 a := by rw [entry, henc, hk]
  obtain ⟨hllen, hencode⟩ := encodeVarint_of_lt hshort
  rw [mkForeign, ForeignRefused]
  simp only [hllen, hencode, v7_ok_bind, ← hk, ← henc]
  rcases insert_end ho.foreign realloc (k + 8) with
    ⟨hins, hno⟩ | ⟨new, hins, hlen, hsize, hsame⟩
  · refine Or.inl ⟨?_, hno⟩
    rw [hins, v7_ok_bind]
    simp only []
    rcases write_cases v7.foreignStrings v7.foreignStrings.len enc with ⟨hw, -⟩ | hw
    · rw [hw]
      rfl
    · have hout : ¬v7.foreignStrings.len + k + (leBytes 8 a).length ≤ v7.foreignStrings.size := by
        have hfull := hno.1
        rw [length_leBytes]
        omega
      rw [hw, v7_ok_bind, Mbuf.write, if_neg hout]
      rfl
  · refine Or.inr ⟨{ v7 with foreignStrings := { new with
      buf := store (store new.buf v7.foreignStrings.len enc) (v7.foreignStrings.len + k)
        (leBytes 8 a) } }, foreignVal v7.foreignStrings.len, ?_, ⟨?_, rfl, ⟨?_, ?_⟩, ?_⟩⟩
    · rw [hins, v7_ok_bind]
      simp only []
      rw [Mbuf.write_eq (by omega), v7_ok_bind,
        Mbuf.write_eq (by rw [length_leBytes]; show _ ≤ new.size; omega), v7_ok_bind]
      rfl
    · rw [List.append_nil]
      exact ⟨ho.resting, ho.next, hsize⟩
    · intro i hi
      exact (store_of_lt (by omega)).trans ((store_of_lt hi).trans (hsame i hi))
    · show v7.foreignStrings.len ≤ new.len
      omega
    · refine .foreign ⟨?_, ?_, hroom⟩ hshort ha hb
      · rw [hentry]
        refine holds_append.mpr ⟨(holds_store_self _ _ _).store (Or.inl ?_), ?_⟩
        · rw [henclen]
        · rw [henclen]
          exact holds_store_self _ _ _
      · rw [length_entry, ← hk]
        exact Nat.le_of_eq hlen.symm

theorem stays_iff (hshort : b.length < 2 ^ 28) : stays b false = true ↔ flatVal b = none := by
  have hfind : vFindStringInDictionary (some b) = none ↔ b ∉ vDictionaryStrings := by
    rw [Option.eq_none_iff_forall_ne_some, List.mem_iff_getElem?, not_exists]
    exact forall_congr' fun i => not_congr (find_iff (Nat.lt_trans hshort (by decide)))
  rw [stays, Bool.and_eq_true, Bool.and_eq_true, decide_eq_true_eq, decide_eq_true_eq, flatVal,
    ← hfind]
  split
  · exact iff_of_false (by omega) (Option.some_ne_none _)
  · split
    · exact iff_of_false (by omega) (Option.some_ne_none _)
    · rw [Option.map_eq_none_iff]
      exact and_iff_right ⟨rfl, by omega⟩

/-- Without a copy, the string is not owned. -/
theorem foreign_spec (realloc : Realloc) (ho : Owns v7 strs)
    (hroom : v7.foreignStrings.len < 2 ^ 32) (hshort : b.length < 2 ^ 28) (ha : a < 2 ^ 64)
    (hb : cmem.read a = b ++ r) :
    (v7MkString cmem realloc v7 (.mem a) b.length false = .error (.fault .outOfBounds) ∧
        ForeignRefused realloc v7 b.length) ∨
      ∃ v7' v, v7MkString cmem realloc v7 (.mem a) b.length false = .ok (v7', v) ∧
        Made cmem v7 strs [] b (nextByte cmem a b false) v7' v := by
  have hp : Points cmem v7.ownedStrings 0 (.mem a) b :=
    ⟨⟨r, congrArg Except.ok hb⟩, nofun⟩
  cases hflat : flatVal b with
  | some v =>
    have hnot : ¬stays b false = true := fun h => by
      rw [(stays_iff hshort).mp h] at hflat
      cases hflat
    rw [nextByte, if_neg hnot]
    exact Or.inr ⟨v7, v, mkString_flat hshort hp false hflat, made_flat ho hflat hshort⟩
  | none =>
    have hhead : (cmem.read a)[b.length]? = r.head? := by
      rw [hb, List.getElem?_append_right (Nat.le_refl _), Nat.sub_self, List.head?_eq_getElem?]
    rw [(mkString_buffer hshort hp hflat).2 a rfl, nextByte, if_pos ((stays_iff hshort).mpr hflat),
      hhead]
    exact mkForeign_spec realloc ho hroom hshort ha hb

/-! ## `s_concat` -/

/-- Other bytes are written over the last string. -/
theorem Resting.overwrite (h : Resting m (strs ++ [s])) {t : Str}
    (ht : t.bytes.length = s.bytes.length) :
    Resting { m with buf := store m.buf (total strs + 1 + s.llen) t.bytes } (strs ++ [t]) := by
  have hllen : t.llen = s.llen := by rw [Str.llen, ht, Str.llen]
  have himage : ∀ u : Str, V7.image ((strs ++ [u]).map Str.cell) ++ [0] =
      (V7.image (strs.map Str.cell) ++ 0 :: encodeLoop u.llen u.bytes.length) ++ u.bytes ++
        [0] := by
    intro u
    rw [List.map_append, image_append, List.map_singleton, image_cons, Cell.image_of_nil rfl]
    show _ ++ (0 :: (encodeLoop u.llen u.bytes.length ++ u.bytes) ++ []) ++ [0] = _
    simp only [List.append_nil, List.append_assoc, List.cons_append]
  have hplace : (V7.image (strs.map Str.cell) ++ 0 :: encodeLoop s.llen s.bytes.length).length =
      total strs + 1 + s.llen := by
    rw [List.length_append, length_image, map_cell_str, List.length_cons, length_encodeLoop]
    omega
  have hsize : total (strs ++ [t]) = total (strs ++ [s]) := by
    rw [total_append, total_append, total_cons, total_cons, Str.size_eq, Str.size_eq, ht, hllen]
  refine ⟨?_, by rw [hsize]; exact h.len, h.size⟩
  have hholds := h.image
  rw [himage] at hholds
  have hnew := hholds.replace ht
  rw [Nat.zero_add, hplace] at hnew
  rw [himage, hllen, ht]
  exact hnew

/-- `s_concat`, when the placeholder has been made. -/
def fill (cmem : CMem) (v7 : State) (a b res : Val) : Except V7Stop (State × Val) := do
  let (aPtr, aLen) ← v7GetStringData v7 a
  let (bPtr, bLen) ← v7GetStringData v7 b
  let (resPtr, _) ← v7GetStringData v7 res
  let aData ← aPtr.read cmem v7.ownedStrings aLen
  let (v7, res) ← memcpyString v7 res resPtr 0 aData
  let bData ← bPtr.read cmem v7.ownedStrings bLen
  memcpyString v7 res resPtr aLen bData

theorem sConcat_eq {p q : Ptr} (hp : v7GetStringData v7 va = .ok (p, x.length))
    (hq : v7GetStringData v7 vb = .ok (q, y.length)) :
    sConcat cmem realloc v7 va vb = (do
      let (v7, res) ← v7MkString cmem realloc v7 .null (x.length + y.length) true
      fill cmem v7 va vb res) := by
  rw [sConcat, hp, v7_ok_bind]
  simp only [hq, v7_ok_bind]
  rfl

/-- The copies into a value. -/
theorem fill_word {p q : Ptr} {t : Val} (hp : Reads cmem v7 lim va p x nx)
    (hq : Reads cmem v7 lim vb q y ny)
    (ht : tag t = t) (hl : (l ++ x ++ y).length ≤ 6)
    (hres : v7GetStringData v7 (wordOf t l) = .ok (.val (wordOf t l) l.length, n)) :
    fill cmem v7 va vb (wordOf t l) = .ok (v7, wordOf t (l ++ x ++ y)) := by
  have hlx : (l ++ x).length ≤ 6 := by
    rw [List.length_append] at hl
    omega
  rw [fill, hp.data, v7_ok_bind]
  simp only [hq.data, hres, v7_ok_bind, hp.points.read, hq.points.read, memcpyString, Nat.add_zero]
  rw [memcpyVal_wordOf hlx ht, ← List.length_append, memcpyVal_wordOf hl ht]

/-- The copies into the last string of the buffer. -/
theorem fill_owned {p q : Ptr} {res : Val} (hp : Reads cmem v7 (total strs + 1) va p x nx)
    (hq : Reads cmem v7 (total strs + 1) vb q y ny) (hm : Resting v7.ownedStrings (strs ++ [s]))
    (hs : s.bytes.length = x.length + y.length)
    (hres : v7GetStringData v7 res =
      .ok (.owned v7.ownedStrings.gen (total strs + 1 + s.llen), n)) :
    ∃ m, ∃ t : Str, fill cmem v7 va vb res = .ok ({ v7 with ownedStrings := m }, res) ∧
      Resting m (strs ++ [t]) ∧ t.bytes = x ++ y := by
  obtain ⟨off, hoff⟩ : ∃ off, off = total strs + 1 + s.llen := ⟨_, rfl⟩
  have hlim : total strs + 1 ≤ off := by omega
  have hlong := s.long
  have hshort := s.short
  rw [hs, ← List.length_append] at hlong hshort
  have hlen := hm.len
  rw [total_append, total_cons, Str.size_eq, hs] at hlen
  have hsize := hm.size
  have hq' : Points cmem { v7.ownedStrings with buf := store v7.ownedStrings.buf off x }
      (total strs + 1) q y :=
    hq.points.congr rfl (fun i hi => store_of_lt (Nat.lt_of_lt_of_le hi hlim)) (by omega)
      (by show _ ≤ v7.ownedStrings.size; omega)
  have hnew := hm.overwrite (t := ⟨x ++ y, hlong, hshort⟩) (by rw [List.length_append, hs])
  refine ⟨_, _, ?_, hnew, rfl⟩
  rw [fill, hp.data, v7_ok_bind]
  simp only [hq.data, hres, v7_ok_bind, hp.points.read, memcpyString, Nat.add_zero, ← hoff]
  rw [Mbuf.write_eq (by omega), v7_ok_bind]
  simp only [pure_bind, hq'.read, v7_ok_bind]
  rw [Mbuf.write_eq (by show _ ≤ v7.ownedStrings.size; omega), v7_ok_bind, store_append]
  rfl

theorem fill_error {res : Val} {e : V7Stop}
    (h : v7GetStringData v7 va = .error e ∨
      (∃ r, v7GetStringData v7 va = .ok r) ∧ (v7GetStringData v7 vb = .error e ∨
        (∃ r, v7GetStringData v7 vb = .ok r) ∧ v7GetStringData v7 res = .error e)) :
    fill cmem v7 va vb res = .error e := by
  rcases h with h | ⟨⟨_, ha⟩, h | ⟨⟨_, hb⟩, h⟩⟩
  · rw [fill, h]
    rfl
  · rw [fill, ha, v7_ok_bind]
    simp only [h]
    rfl
  · rw [fill, ha, v7_ok_bind]
    simp only [hb, h, v7_ok_bind]
    rfl

/-- The last string of the buffer gets the bytes of two others, as long as all three are valid. -/
theorem fill_spec (cmem : CMem) (ho : Owns v7 (strs ++ [s])) (hroom : total strs + 1 < 2 ^ 32)
    (hx : Represents cmem v7.gcMinAsn v7.foreignStrings strs va (.str x nx))
    (hy : Represents cmem v7.gcMinAsn v7.foreignStrings strs vb (.str y ny))
    (hs : s.bytes.length = x.length + y.length) {res : Val}
    (hres : res = ownedVal (total strs + 1) (v7.gcMinAsn + UInt16.ofNat strs.length)) :
    (fill cmem v7 va vb res = .error .abort ∧ 2 ^ 16 ≤ strs.length + 1) ∨
      ∃ m, ∃ t : Str, fill cmem v7 va vb res = .ok ({ v7 with ownedStrings := m }, res) ∧
        Resting m (strs ++ [t]) ∧ t.bytes = x ++ y := by
  have hcount : (strs ++ [s]).length = strs.length + 1 := List.length_append
  rcases hx.reads _ ho hroom with ⟨herr, hn⟩ | ⟨p, hp⟩
  · exact Or.inl ⟨fill_error (Or.inl herr), hcount ▸ hn⟩
  rcases hy.reads _ ho hroom with ⟨herr, hn⟩ | ⟨q, hq⟩
  · exact Or.inl ⟨fill_error (Or.inr ⟨⟨_, hp.data⟩, Or.inl herr⟩), hcount ▸ hn⟩
  cases hasn : gcIsValidAllocationSeqn v7 (v7.gcMinAsn + UInt16.ofNat strs.length) with
  | true =>
    have hread := owned_reads cmem ho.resting hroom hasn (Nat.lt_succ_self _)
    rw [← hres] at hread
    exact Or.inr (fill_owned hp hq ho.resting hs hread.data)
  | false =>
    have herr := ownedVal_abort hroom hasn
    rw [← hres] at herr
    refine Or.inl ⟨fill_error (Or.inr ⟨⟨_, hp.data⟩, Or.inr ⟨⟨_, hq.data⟩, herr⟩⟩), ?_⟩
    have hvalid := (ho.valid (i := strs.length) (by omega)).resolve_left (by rw [hasn]; decide)
    rwa [hcount] at hvalid

theorem concat_spec (realloc : Realloc) (ho : Owns v7 strs) (hroom : total strs + 1 < 2 ^ 32)
    (hx : Represents cmem v7.gcMinAsn v7.foreignStrings strs va (.str x nx))
    (hy : Represents cmem v7.gcMinAsn v7.foreignStrings strs vb (.str y ny))
    (hshort : (x ++ y).length < 2 ^ 28) :
    (sConcat cmem realloc v7 va vb = .error .abort ∧ 2 ^ 16 ≤ strs.length + 1) ∨
      (sConcat cmem realloc v7 va vb = .error (.fault .outOfBounds) ∧
        (∃ p, v7GetStringData v7 va = .ok (p, x.length)) ∧
        (∃ q, v7GetStringData v7 vb = .ok (q, y.length)) ∧
        OwnedRefused realloc v7 (x.length + y.length)) ∨
      ∃ v7' v more, sConcat cmem realloc v7 va vb = .ok (v7', v) ∧
        Made cmem v7 strs more (x ++ y) (some 0) v7' v := by
  have hlen : (x ++ y).length = x.length + y.length := List.length_append
  have ho' : Owns v7 (strs ++ []) := by rwa [List.append_nil]
  rcases hx.reads _ ho' hroom with ⟨herr, hn⟩ | ⟨p, hp⟩
  · refine Or.inl ⟨?_, by simpa using Nat.le_succ_of_le hn⟩
    rw [sConcat, herr]
    rfl
  rcases hy.reads _ ho' hroom with ⟨herr, hn⟩ | ⟨q, hq⟩
  · refine Or.inl ⟨?_, by simpa using Nat.le_succ_of_le hn⟩
    rw [sConcat, hp.data, v7_ok_bind]
    simp only [herr]
    rfl
  rw [sConcat_eq hp.data hq.data, mkString_null (by rwa [← hlen])]
  split
  · rename_i hle
    refine Or.inr (Or.inr ⟨v7, wordOf tagStringI (UInt8.ofNat (x ++ y).length :: (x ++ y)), [], ?_,
      made_flat ho (if_pos (by omega)) hshort⟩)
    have hsix : ([UInt8.ofNat (x ++ y).length] ++ x ++ y).length ≤ 6 := by
      rw [List.append_assoc, List.length_append, hlen, List.length_singleton]
      omega
    rw [v7_ok_bind, ← hlen]
    exact fill_word hp hq tag_stringI hsix (if_pos (tag_wordOf (by simp) tag_stringI))
  · rename_i hlt
    split
    · rename_i heq
      have hflat : flatVal (x ++ y) = some (wordOf tagString5 (x ++ y)) := by
        rw [flatVal, if_neg (by omega), if_pos (by omega)]
      refine Or.inr (Or.inr ⟨v7, _, [], ?_, made_flat ho hflat hshort⟩)
      have hdata : v7GetStringData v7 (wordOf tagString5 []) =
          .ok (.val (wordOf tagString5 []) 0, 5) := by
        rw [v7GetStringData, tag_wordOf (by simp) tag_string5, if_neg (by decide), if_pos rfl]
      rw [v7_ok_bind]
      refine fill_word (l := []) hp hq tag_string5 ?_ hdata
      rw [List.nil_append, hlen]
      omega
    · rename_i hne
      have hlong : 6 ≤ x.length + y.length := by omega
      rcases mkOwned_spec cmem realloc ho.resting hlong (hlen ▸ hshort) hroom
        (Or.inl rfl) with ⟨hno, -, -⟩ | ⟨-, ⟨herr, hno⟩ | ⟨m, g, s, hok, hm, hs, -⟩⟩
      · cases hno
      · refine Or.inr (Or.inl ⟨?_, ⟨p, hp.data⟩, ⟨q, hq.data⟩, hno⟩)
        rw [herr]
        rfl
      · have hnew := ho.snoc (g := g) hm
        rw [hok, v7_ok_bind]
        rcases fill_spec cmem hnew hroom hx hy hs (congrArg _ ho.next) with
          habort | ⟨m', t, hfill, hm', ht⟩
        · exact Or.inl habort
        · refine Or.inr (Or.inr ⟨_, _, [t], hfill, ⟨hm', ?_, ho.foreign⟩, rfl, .refl _, ?_⟩)
          · have hnext := hnew.next
            rw [List.length_append] at hnext ⊢
            exact hnext
          · rw [← ht]
            exact represents_last ho _

end ShellJs.V7
