import ShellJs.V7.Marking

/-!
# Compaction

* `relocate_spec`: the loop over a thread gives every value of it the new word.
* `moveString_spec`: a marked string is put together again at its new place.
* `compactLoop_spec`: the marked strings are packed, in their order, and their values follow them.
-/

namespace ShellJs.V7

open Memory Function

variable {v7 : State} {m : Mbuf} {vals vals₀ : Vals} {cs : List Cell} {c : Cell} {s : Str}
  {l : List Nat} {h new : Val} {p head : Nat}

/-! ## A thread -/

/-- The word in a string or in a value refers to the thread. -/
def RefersTo (s : Str) (h : Val) : List Nat → Prop
  | [] => h = chunk (s.body.take 6) ||| tagStringC
  | a :: _ => tag h ≠ tagStringC ∧ (payload h).toNat = a

theorem refersTo_linkWord {l : List Nat} (hl : ∀ a ∈ l, a < 2 ^ 48) :
    RefersTo s (linkWord s l) l := by
  cases l with
  | nil => rfl
  | cons a l =>
    have ha : a < 256 ^ 6 := hl a List.mem_cons_self
    refine ⟨?_, ?_⟩
    · rw [linkWord, tag_or (chunk_lt length_leBytes) tag_foreign]
      decide
    · rw [linkWord, payload_or (chunk_lt length_leBytes) tag_foreign, toNat_chunk length_leBytes,
        leVal_leBytes_of_lt ha]

theorem relocate_spec (new : Val) {fuel : Nat} (hh : RefersTo s h l) (hlink : Linked vals s l)
    (hnodup : l.Nodup) (hl : ∀ a ∈ l, a < 2 ^ 48) (hfuel : l.length < fuel) :
    ∃ vals', relocate new fuel vals h = .ok (vals', chunk (s.body.take 6)) ∧
      (∀ a ∈ l, vals' a = new) ∧ ∀ a, a ∉ l → vals' a = vals a := by
  induction l generalizing fuel vals h with
  | nil =>
    obtain ⟨fuel, rfl⟩ := Nat.exists_eq_add_of_lt hfuel
    refine ⟨vals, ?_, nofun, fun _ _ => rfl⟩
    have hlt := chunk_lt (length_take_body s)
    obtain rfl : h = _ := hh
    rw [relocate, if_pos (tag_or hlt tag_stringC), payload_or hlt tag_stringC]
  | cons a l ih =>
    obtain ⟨fuel, rfl⟩ := Nat.exists_eq_add_of_lt hfuel
    obtain ⟨htag, rfl⟩ := hh
    obtain ⟨hnew, hnodup⟩ := List.nodup_cons.mp hnodup
    have hl' : ∀ b ∈ l, b < 2 ^ 48 := fun b hb => hl b (List.mem_cons_of_mem _ hb)
    have hsame : ∀ b ∈ l, update vals (payload h).toNat new b = vals b := fun b hb =>
      update_of_ne (fun heq : b = (payload h).toNat => hnew (heq ▸ hb)) ..
    have hfuel' : l.length < l.length + 1 + fuel := by omega
    obtain ⟨vals', hrun, hin, hout⟩ := ih (hlink.1 ▸ refersTo_linkWord hl')
      (hlink.2.congr hsame) hnodup hl' hfuel'
    refine ⟨vals', ?_, fun b hb => ?_, fun b hb => ?_⟩
    · rw [relocate, if_neg htag]
      exact hrun
    · rcases List.mem_cons.mp hb with rfl | hb
      · rw [hout _ hnew, update_self]
      · exact hin b hb
    · obtain ⟨hne, hb⟩ := not_or.mp fun h => hb (List.mem_cons.mpr h)
      rw [hout b hb, update_of_ne hne]

theorem refersTo_first (hl : ∀ a ∈ c.refs, a < 2 ^ 48) (hc : c.refs ≠ []) :
    RefersTo c.str (chunk c.first) c.refs := by
  have hlt := chunk_lt c.length_first
  unfold Cell.first at hlt ⊢
  cases hr : c.refs with
  | nil => exact absurd hr hc
  | cons a l =>
    have ha : a < 256 ^ 6 := hl a (by rw [hr]; exact List.mem_cons_self)
    rw [hr] at hlt
    have htag : (tag (chunk (leBytes 6 a))).toNat = 0 := by
      rw [toNat_tag, Nat.div_eq_of_lt hlt, Nat.zero_mul]
    refine ⟨fun h => ?_, ?_⟩
    · rw [h] at htag
      exact absurd htag (by decide)
    · rw [toNat_payload, Nat.mod_eq_of_lt hlt, toNat_chunk length_leBytes, leVal_leBytes_of_lt ha]

/-- Addresses that differ are no more than there are. -/
theorem length_le_addressSpace (hnodup : l.Nodup) (hl : ∀ a ∈ l, a < 2 ^ 48) :
    l.length ≤ addressSpace := by
  have hsub : l ⊆ List.range addressSpace := fun a ha => List.mem_range.mpr (hl a ha)
  have hle := (hnodup.subperm hsub).length_le
  rwa [List.length_range] at hle

/-! ## A string -/

theorem nextAsn_eq (v7 : State) :
    nextAsn v7 = ({ v7 with gcNextAsn := v7.gcNextAsn + 1 }, v7.gcNextAsn) := by
  unfold nextAsn
  split
  · rename_i h
    rw [h]
    rfl
  · rfl

theorem asn_succ (asn : UInt16) (n : Nat) :
    asn + 1 + UInt16.ofNat n = asn + UInt16.ofNat (n + 1) := by
  rw [UInt16.add_assoc, UInt16.ofNat_add, UInt16.add_comm 1]
  rfl

/-- The bytes of the word at the end of a thread. -/
theorem leBytes_chunk (s : Str) :
    (leBytes 8 (chunk (s.body.take 6)).toNat).take 6 = s.body.take 6 := by
  have hle := leBytes_leVal (s.body.take 6)
  rw [length_take_body] at hle
  rw [toNat_chunk (length_take_body s), take_leBytes (by decide), hle]

theorem chunkLen_chunk (s : Str) :
    chunkLen (fun i => (leBytes 8 (chunk (s.body.take 6)).toNat).getD i 0) = .ok s.size := by
  obtain ⟨w, hw⟩ : ∃ w, w = leBytes 8 (chunk (s.body.take 6)).toNat := ⟨_, rfl⟩
  have htake : w.take 6 = encodeLoop s.llen s.bytes.length ++ s.bytes.take (6 - s.llen) := by
    have hle : s.llen ≤ 6 := Nat.le_trans s.llen_le (by decide)
    rw [hw, leBytes_chunk, Str.body, List.take_append, length_encodeLoop, List.take_of_length_le]
    rwa [length_encodeLoop]
  have hholds := holds_getD w 0
  rw [← List.take_append_drop 6 w, htake, List.append_assoc] at hholds
  have hlen := Str.chunkLen_eq (holds_append.mp hholds).1
  simp only [Nat.zero_add] at hlen
  rwa [← List.append_assoc, ← htake, List.take_append_drop, hw] at hlen

/-- The bytes of a string are put back, copied to `head`, and closed off to the left. -/
def packed (buf : Nat → UInt8) (s : Str) (p head : Nat) : Nat → UInt8 :=
  store (store (store buf p (s.body.take 6)) head
    (load (store buf p (s.body.take 6)) p s.size)) (head - 1) [0]

section
variable {buf : Nat → UInt8}

theorem packed_of_lt (hp : head ≤ p) {i : Nat} (hi : i < head - 1) :
    packed buf s p head i = buf i := by
  unfold packed
  rw [store_of_lt hi, store_of_lt (by omega), store_of_lt (by omega)]

theorem packed_of_ge (hp : head ≤ p) {i : Nat} (hi : p + s.body.length ≤ i) :
    packed buf s p head i = buf i := by
  have hlong := s.long
  have hlen := s.length_body
  have hfirst : store buf p (s.body.take 6) i = buf i :=
    store_of_ge (by rw [length_take_body]; omega)
  unfold packed
  rw [store_of_ge (by rw [List.length_singleton]; omega)]
  rcases Nat.lt_or_eq_of_le hp with hlt | rfl
  · rw [store_of_ge (by rw [length_load, Str.size]; omega), hfirst]
  · rw [store_of_holds (holds_load _ _ _), hfirst]

theorem holds_packed (hhead : 1 ≤ head) (hbuf : Holds buf (p + 6) (s.body.drop 6)) :
    Holds (packed buf s p head) (head - 1) (0 :: s.body) := by
  have hbody : Holds (store buf p (s.body.take 6)) p s.body := by
    have hrest := hbuf.store (b := p) (r := s.body.take 6) (Or.inr (by rw [length_take_body]))
    have hall := holds_append.mpr ⟨holds_store_self buf p (s.body.take 6),
      by rwa [length_take_body]⟩
    rwa [List.take_append_drop] at hall
  have hload : load (store buf p (s.body.take 6)) p s.body.length = s.body := hbody.load_eq rfl
  unfold packed
  rw [Str.size, load_add, hload]
  refine ⟨?_, ?_⟩
  · rw [store, store]
    exact Function.update_self ..
  · rw [Nat.sub_add_cancel hhead]
    have hcopy := holds_store_self (store buf p (s.body.take 6)) head
      (s.body ++ load (store buf p (s.body.take 6)) (p + s.body.length) 1)
    exact (holds_append.mp hcopy).1.store (Or.inr (by rw [List.length_singleton]; omega))

end

/-- The NUL of the string in its new place, which is the next mark. -/
theorem packed_end (buf : Nat → UInt8) (s : Str) (p head : Nat) (hhead : 1 ≤ head) :
    packed buf s p head (head + s.body.length) = buf (p + s.body.length) := by
  have hlong := s.long
  have hlen := s.length_body
  have hcopy := (holds_store_self (store buf p (s.body.take 6)) head
    (load (store buf p (s.body.take 6)) p s.size)).get (getElem?_load (Nat.lt_succ_self _))
  unfold packed
  rw [store_of_ge (by rw [List.length_singleton]; omega), hcopy,
    store_of_ge (by rw [length_take_body]; omega)]

/-- The branch of the loop for a marked string. -/
theorem moveString_spec (hc : c.refs ≠ []) (hlink : Linked vals c.str c.refs)
    (hnodup : c.refs.Nodup) (hsmall : ∀ a ∈ c.refs, a < 2 ^ 48) (hhead : 1 ≤ head) (hp : head ≤ p)
    (himage : Holds v7.ownedStrings.buf p (c.first ++ c.str.body.drop 6))
    (hsize : p + c.str.size ≤ v7.ownedStrings.size) :
    ∃ vals', moveString v7 vals p head =
        .ok ({ v7 with
            gcNextAsn := v7.gcNextAsn + 1
            ownedStrings := { v7.ownedStrings with
              buf := packed v7.ownedStrings.buf c.str p head } }, vals', c.str.size) ∧
      (∀ a ∈ c.refs, vals' a = ownedVal head v7.gcNextAsn) ∧
      ∀ a, a ∉ c.refs → vals' a = vals a := by
  obtain ⟨hfirst, -⟩ := holds_append.mp himage
  have hfirst := hfirst.load_eq c.length_first
  obtain ⟨vals', hrun, hin, hout⟩ := relocate_spec (ownedVal head v7.gcNextAsn)
    (refersTo_first hsmall hc) hlink hnodup hsmall
    (Nat.lt_succ_of_le (length_le_addressSpace hnodup hsmall))
  have hlong := c.str.long
  have hlen := c.str.size_eq
  have hback : p + (c.str.body.take 6).length ≤ v7.ownedStrings.size := by
    rw [length_take_body]
    omega
  have hcopy : ∀ buf : Nat → UInt8, head + (load buf p c.str.size).length ≤
      v7.ownedStrings.size := fun buf => by
    rw [length_load]
    omega
  have hterm : head - 1 + [(0 : UInt8)].length ≤ v7.ownedStrings.size := by
    rw [List.length_singleton]
    omega
  refine ⟨vals', ?_, hin, hout⟩
  rw [moveString, nextAsn_eq]
  simp only []
  rw [Mbuf.read_eq (by omega), v7_ok_bind, hfirst, hrun, v7_ok_bind]
  simp only []
  rw [chunkLen_chunk, v7_ok_bind, leBytes_chunk, Mbuf.write_eq hback, v7_ok_bind,
    Mbuf.read_eq (by exact hsize), v7_ok_bind, Mbuf.write_eq (by exact hcopy _), v7_ok_bind,
    Mbuf.write_eq (by exact hterm), v7_ok_bind]
  rfl

/-! ## The loop -/

/-- The strings that are marked. -/
def live : List Cell → List Str
  | [] => []
  | c :: cs => if c.refs = [] then live cs else c.str :: live cs

/-- A string without a mark. -/
def Str.cell (s : Str) : Cell := ⟨s, []⟩

/-- The byte before the first of the strings, or behind the last one. -/
def firstMark : List Cell → UInt8
  | [] => 0
  | c :: _ => c.mark

/-- The values of the marked strings, when these are packed from `head` on. -/
def Placed (vals : Vals) : Nat → UInt16 → List Cell → Prop
  | _, _, [] => True
  | head, asn, c :: cs =>
    if c.refs = [] then Placed vals head asn cs
    else (∀ a ∈ c.refs, vals a = ownedVal head asn) ∧
      Placed vals (head + c.str.size) (asn + 1) cs

theorem firstMark_eq {buf : Nat → UInt8} {a : Nat} (h : Holds buf a (image cs ++ [0])) :
    buf a = firstMark cs := by
  cases cs with
  | nil => exact h.1
  | cons c cs => exact h.1

theorem compactLoop_spec {fuel : Nat}
    (himage : Holds v7.ownedStrings.buf (p - 1) (image cs ++ [0]))
    (hlen : v7.ownedStrings.len = p + total (cs.map Cell.str))
    (hsize : v7.ownedStrings.len ≤ v7.ownedStrings.size)
    (hlink : ∀ c ∈ cs, Linked vals c.str c.refs) (hnodup : (cs.flatMap Cell.refs).Nodup)
    (hsmall : ∀ a ∈ cs.flatMap Cell.refs, a < 2 ^ 48) (hhead : 1 ≤ head) (hp : head ≤ p)
    (hterm : firstMark cs = 0 → v7.ownedStrings.buf (head - 1) = 0) (hfuel : cs.length < fuel) :
    ∃ buf vals', compactLoop fuel v7 vals p head =
        .ok ({ v7 with
            gcNextAsn := v7.gcNextAsn + UInt16.ofNat (live cs).length
            ownedStrings := { v7.ownedStrings with buf := buf } }, vals', head + total (live cs)) ∧
      Holds buf (head - 1) (image ((live cs).map Str.cell) ++ [0]) ∧
      (∀ i < head - 1, buf i = v7.ownedStrings.buf i) ∧
      Placed vals' head v7.gcNextAsn cs ∧
      ∀ a, a ∉ cs.flatMap Cell.refs → vals' a = vals a := by
  induction cs generalizing fuel v7 vals p head with
  | nil =>
    obtain ⟨fuel, rfl⟩ := Nat.exists_eq_add_of_lt hfuel
    refine ⟨v7.ownedStrings.buf, vals, ?_, ⟨hterm rfl, trivial⟩, fun _ _ => rfl, trivial,
      fun _ _ => rfl⟩
    rw [compactLoop, if_neg (by rw [hlen]; exact Nat.lt_irrefl p)]
    simp [live, total]
  | cons c cs ih =>
    obtain ⟨fuel, rfl⟩ := Nat.exists_eq_add_of_lt hfuel
    rw [List.map_cons, total_cons] at hlen
    rw [List.flatMap_cons, List.nodup_append] at hnodup
    rw [image_cons, List.append_assoc] at himage
    have hmark : v7.ownedStrings.buf (p - 1) = firstMark (c :: cs) :=
      firstMark_eq (by rwa [image_cons, List.append_assoc])
    obtain ⟨hc, hrest⟩ := holds_append.mp himage
    have hplace : p - 1 + c.image.length = p + c.str.size - 1 := by
      rw [c.length_image]
      omega
    rw [hplace] at hrest
    have hlt : p < v7.ownedStrings.len := by
      have hpos : 0 < c.str.size := Nat.succ_pos _
      omega
    have hlink' : ∀ d ∈ cs, Linked vals d.str d.refs := fun d hd =>
      hlink d (List.mem_cons_of_mem c hd)
    have hsmall' : ∀ a ∈ cs.flatMap Cell.refs, a < 2 ^ 48 := fun a ha =>
      hsmall a (List.mem_append_right _ ha)
    rcases eq_or_ne c.refs [] with hdead | hne
    · have hm : c.mark = 0 := if_pos hdead
      rw [Cell.image_of_nil hdead] at hc
      obtain ⟨-, hbody⟩ := hc
      rw [Nat.sub_add_cancel (Nat.le_trans hhead hp)] at hbody
      have hchunk := Str.chunkLen_eq (holds_append.mp hbody).1
      obtain ⟨buf, vals', hrun, hholds, hsame, hplaced, hothers⟩ :=
        @ih v7 vals (p + c.str.size) head (cs.length + 1 + fuel)
        hrest (by rw [hlen, Nat.add_assoc]) hsize hlink' hnodup.2.1 hsmall' hhead (by omega)
        (fun _ => hterm hm) (by omega)
      refine ⟨buf, vals', ?_, ?_, hsame, ?_, ?_⟩
      · have hne : v7.ownedStrings.buf (p - 1) ≠ 1 := by
          rw [hmark, firstMark, hm]
          decide
        rw [compactLoop, if_pos hlt, if_neg hne, hchunk, v7_ok_bind, live, if_pos hdead]
        exact hrun
      · rwa [live, if_pos hdead]
      · rwa [Placed, if_pos hdead]
      · intro a ha
        rw [List.flatMap_cons, hdead] at ha
        exact hothers a ha
    · have hm : c.mark = 1 := if_neg hne
      obtain ⟨-, hc⟩ := hc
      rw [Nat.sub_add_cancel (Nat.le_trans hhead hp)] at hc
      obtain ⟨vals₁, hmove, hin, hout⟩ := moveString_spec hne (hlink c List.mem_cons_self)
        hnodup.1 (fun a ha => hsmall a (List.mem_append_left _ ha)) hhead hp hc (by omega)
      have hrestBody := (holds_append.mp hc).2
      rw [c.length_first] at hrestBody
      have hbody := holds_packed (p := p) hhead hrestBody
      have hrest' : Holds (packed v7.ownedStrings.buf c.str p head) (p + c.str.size - 1)
          (image cs ++ [0]) := hrest.congr fun i hi _ => packed_of_ge hp hi
      have hterm' : firstMark cs = 0 →
          packed v7.ownedStrings.buf c.str p head (head + c.str.size - 1) = 0 := fun hnext => by
        show packed _ _ _ _ (head + c.str.body.length) = 0
        rw [packed_end _ _ _ _ hhead, ← hnext]
        exact firstMark_eq hrest
      obtain ⟨buf, vals', hrun, hholds, hsame, hplaced, hothers⟩ := @ih { v7 with
          gcNextAsn := v7.gcNextAsn + 1
          ownedStrings := { v7.ownedStrings with
            buf := packed v7.ownedStrings.buf c.str p head } }
        vals₁ (p + c.str.size) (head + c.str.size) (cs.length + 1 + fuel)
        hrest' (by rw [hlen, Nat.add_assoc]) hsize
        (fun d hd => (hlink' d hd).congr fun a ha => hout a fun hac =>
          hnodup.2.2 a hac a (List.mem_flatMap.mpr ⟨d, hd, ha⟩) rfl)
        hnodup.2.1 hsmall' (by omega) (by omega) hterm' (by omega)
      have hbody' : Holds buf (head - 1) (0 :: c.str.body) := hbody.congr fun i _ hi => by
        refine hsame i ?_
        rw [List.length_cons, ← Str.size] at hi
        omega
      refine ⟨buf, vals', ?_, ?_, ?_, ?_, ?_⟩
      · have hasn : v7.gcNextAsn + 1 + UInt16.ofNat (live cs).length =
            v7.gcNextAsn + UInt16.ofNat (live (c :: cs)).length := by
          rw [live, if_neg hne, List.length_cons, asn_succ]
        rw [compactLoop, if_pos hlt, if_pos (by rw [hmark, firstMark, hm]), hmove, v7_ok_bind,
          ← hasn, live, if_neg hne, total_cons, ← Nat.add_assoc]
        exact hrun
      · rw [live, if_neg hne, List.map_cons, image_cons, Cell.image_of_nil rfl, List.append_assoc]
        have hnext : head - 1 + (0 :: c.str.body).length = head + c.str.size - 1 := by
          rw [List.length_cons, ← Str.size]
          omega
        refine holds_append.mpr ⟨hbody', ?_⟩
        rw [Str.cell, hnext]
        exact hholds
      · intro i hi
        exact (hsame i (by omega)).trans (packed_of_lt hp hi)
      · rw [Placed, if_neg hne]
        refine ⟨fun a ha => ?_, hplaced⟩
        rw [hothers a fun hac => hnodup.2.2 a ha a hac rfl, hin a ha]
      · intro a ha
        rw [List.flatMap_cons, List.mem_append, not_or] at ha
        rw [hothers a ha.2, hout a ha.1]

/-! ## The buffer at rest -/

/-- Between two collections no string is marked. -/
structure Resting (m : Mbuf) (strs : List Str) : Prop where
  image : Holds m.buf 0 (V7.image (strs.map Str.cell) ++ [0])
  len : m.len = total strs + 1
  size : m.len ≤ m.size

theorem map_cell_str (strs : List Str) : (strs.map Str.cell).map Cell.str = strs := by
  rw [List.map_map]
  exact List.map_id' strs

theorem length_le_total (strs : List Str) : strs.length ≤ total strs := by
  induction strs with
  | nil => exact Nat.le_refl 0
  | cons s strs ih =>
    have hpos : 0 < s.size := Nat.succ_pos _
    rw [List.length_cons, total_cons]
    omega

theorem total_live_le (cs : List Cell) : total (live cs) ≤ total (cs.map Cell.str) := by
  induction cs with
  | nil => exact Nat.le_refl 0
  | cons c cs ih =>
    rw [live, List.map_cons, total_cons]
    split
    · omega
    · rw [total_cons]
      omega

/-- `gc_compact_strings` after the marking. -/
theorem compact_spec (h : Threaded v7.ownedStrings vals vals₀ cs) :
    ∃ m vals', gcCompactStrings v7 vals =
        .ok ({ v7 with
            gcMinAsn := v7.gcNextAsn
            gcNextAsn := v7.gcNextAsn + UInt16.ofNat (live cs).length
            ownedStrings := m }, vals') ∧
      m.gen = v7.ownedStrings.gen ∧ m.size = v7.ownedStrings.size ∧ Resting m (live cs) ∧
      Placed vals' 1 v7.gcNextAsn cs ∧ ∀ a, a ∉ cs.flatMap Cell.refs → vals' a = vals₀ a := by
  have hle := length_le_total (cs.map Cell.str)
  have hlen := h.len
  rw [List.length_map] at hle
  obtain ⟨buf, vals', hrun, hholds, -, hplaced, hothers⟩ := @compactLoop_spec
    { v7 with gcMinAsn := v7.gcNextAsn } vals cs 1 1 (v7.ownedStrings.len + 1) h.image
    (hlen.trans (Nat.add_comm _ _)) h.size h.linked h.nodup h.small (Nat.le_refl 1) (Nat.le_refl 1)
    (fun hm => (firstMark_eq h.image).trans hm) (by omega)
  refine ⟨{ v7.ownedStrings with buf := buf, len := 1 + total (live cs) }, vals', ?_, rfl, rfl, ?_,
    hplaced, fun a ha => (hothers a ha).trans (h.others a ha)⟩
  · rw [gcCompactStrings]
    simp only []
    rw [hrun]
    rfl
  · refine ⟨hholds, Nat.add_comm _ _, ?_⟩
    have hlive := total_live_le cs
    have hsize := h.size
    show 1 + total (live cs) ≤ v7.ownedStrings.size
    omega

end ShellJs.V7
