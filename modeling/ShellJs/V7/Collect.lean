import ShellJs.V7.Represents

/-!
# Collections

* `cellsAt`: the strings of the buffer with a thread for every place.
* `marks_spec`: what the marking of some variables leads to.
* `survivors`: the strings that a marked variable refers to.
* `gc_spec`: `v7_gc` keeps these, in their order, and the variables that are marked.
-/

namespace ShellJs.V7

open Memory Function

variable {cmem : CMem} {realloc : Realloc} {v7 v7' : State} {m : Mbuf}
  {vals vals' vals₀ vals₁ : Vals}
  {strs pre post : List Str} {s : Str} {cs ds : List Cell} {c : Cell} {f g : Nat → List Nat}
  {marks done : List Nat} {off head a : Nat} {asn min : UInt16} {foreign : Mbuf}
  {content : Nat → Content}

/-! ## Cells by their places -/

/-- The strings from `off` on, with the threads that `f` has for their places. -/
def cellsAt (f : Nat → List Nat) : Nat → List Str → List Cell
  | _, [] => []
  | off, s :: strs => ⟨s, f off⟩ :: cellsAt f (off + s.size) strs

theorem map_cellsAt : (cellsAt f off strs).map Cell.str = strs := by
  induction strs generalizing off with
  | nil => rfl
  | cons s strs ih => rw [cellsAt, List.map_cons, ih]

theorem cellsAt_append (l r : List Str) :
    cellsAt f off (l ++ r) = cellsAt f off l ++ cellsAt f (off + total l) r := by
  induction l generalizing off with
  | nil => rfl
  | cons s l ih =>
    rw [List.cons_append, cellsAt, ih, cellsAt, total_cons, List.cons_append, Nat.add_assoc]

theorem cellsAt_congr (h : ∀ o, off ≤ o → o < off + total strs → f o = g o) :
    cellsAt f off strs = cellsAt g off strs := by
  induction strs generalizing off with
  | nil => rfl
  | cons s strs ih =>
    have hpos : 0 < s.size := Nat.succ_pos _
    rw [total_cons] at h
    rw [cellsAt, cellsAt, h off (Nat.le_refl off) (by omega),
      ih fun o hle hlt => h o (by omega) (by omega)]

theorem cellsAt_nil : cellsAt (fun _ => []) off strs = strs.map Str.cell := by
  induction strs generalizing off with
  | nil => rfl
  | cons s strs ih => rw [cellsAt, ih, List.map_cons, Str.cell]

theorem mem_refs_cellsAt : a ∈ (cellsAt f off strs).flatMap Cell.refs ↔
    ∃ pre s post, strs = pre ++ s :: post ∧ a ∈ f (off + total pre) := by
  constructor
  · intro h
    induction strs generalizing off with
    | nil => cases h
    | cons s strs ih =>
      rw [cellsAt, List.flatMap_cons, List.mem_append] at h
      rcases h with h | h
      · exact ⟨[], s, strs, rfl, h⟩
      · obtain ⟨pre, t, post, rfl, ha⟩ := ih h
        refine ⟨s :: pre, t, post, rfl, ?_⟩
        rwa [total_cons, ← Nat.add_assoc]
  · rintro ⟨pre, s, post, rfl, ha⟩
    rw [cellsAt_append, List.flatMap_append, cellsAt, List.flatMap_cons]
    exact List.mem_append_right _ (List.mem_append_left _ ha)

/-- One more value in the thread of the string at `off + total pre`. -/
theorem cellsAt_update (v : Nat) :
    cellsAt (update f (off + total pre) (v :: f (off + total pre))) off (pre ++ s :: post) =
      cellsAt f off pre ++ Cell.push ⟨s, f (off + total pre)⟩ v ::
        cellsAt f (off + total pre + s.size) post := by
  have hpos : 0 < s.size := Nat.succ_pos _
  rw [cellsAt_append, cellsAt, update_self]
  congr 1
  · exact cellsAt_congr fun o _ hlt => update_of_ne (Nat.ne_of_lt hlt) ..
  · congr 1
    exact cellsAt_congr fun o hle _ => update_of_ne (by omega) ..

/-! ## Marking -/

/-- The threads, when the variables of `done` have been marked. -/
structure Marked (m : Mbuf) (vals vals₀ : Vals) (strs : List Str) (f : Nat → List Nat)
    (done : List Nat) : Prop where
  threaded : Threaded m vals vals₀ (cellsAt f 1 strs)
  refs : ∀ off a, a ∈ f off ↔
    a ∈ done ∧ tag (vals₀ a) = tagStringO ∧ gcStringValToOffset (vals₀ a) = off

/-- Before the first mark. -/
theorem Resting.marked (h : Resting m strs) (vals : Vals) :
    Marked m vals vals strs (fun _ => []) [] := by
  have hnil : (cellsAt (fun _ => []) 1 strs).flatMap Cell.refs = [] := by
    refine List.eq_nil_iff_forall_not_mem.mpr fun a ha => ?_
    obtain ⟨pre, s, post, -, ha⟩ := mem_refs_cellsAt.mp ha
    cases ha
  refine ⟨⟨?_, ?_, h.size, ?_, ?_, ?_, fun _ _ => rfl⟩, fun off a => ?_⟩
  · rw [cellsAt_nil]
    exact h.image
  · rw [map_cellsAt]
    exact h.len
  · rw [cellsAt_nil]
    intro c hc
    obtain ⟨s, -, rfl⟩ := List.mem_map.mp hc
    trivial
  · rw [hnil]
    exact List.nodup_nil
  · rw [hnil]
    exact nofun
  · exact iff_of_false (List.not_mem_nil) fun h => List.not_mem_nil h.1

theorem Marked.mem_refs (h : Marked m vals vals₀ strs f done)
    (ha : a ∈ (cellsAt f 1 strs).flatMap Cell.refs) :
    a ∈ done ∧ tag (vals₀ a) = tagStringO := by
  obtain ⟨pre, s, post, -, ha⟩ := mem_refs_cellsAt.mp ha
  obtain ⟨hdone, htag, -⟩ := (h.refs _ a).mp ha
  exact ⟨hdone, htag⟩

/-- A variable that has been marked does not count again, nor does one without an owned string. -/
theorem Marked.skip (h : Marked m vals vals₀ strs f done)
    (hv : a ∈ done ∨ tag (vals₀ a) ≠ tagStringO) : Marked m vals vals₀ strs f (done ++ [a]) := by
  refine ⟨h.threaded, fun off b => ?_⟩
  rw [h.refs, List.mem_append, List.mem_singleton]
  constructor
  · exact fun ⟨hdone, htag⟩ => ⟨Or.inl hdone, htag⟩
  · rintro ⟨hdone | rfl, htag⟩
    · exact ⟨hdone, htag⟩
    · exact ⟨hv.resolve_right (not_not_intro htag.1), htag⟩

/-- `gc_mark_string` of a variable that is in use. -/
theorem mark_spec (hnext : v7.gcNextAsn = v7.gcMinAsn + UInt16.ofNat strs.length)
    (hroom : total strs + 1 < 2 ^ 32) (h : Marked v7.ownedStrings vals vals₀ strs f done)
    (ha : a < 2 ^ 48) (hrep : Represents cmem v7.gcMinAsn foreign strs (vals₀ a) (content a))
    (hlive : content a ≠ .dead) :
    (gcMarkString v7 vals a = .error .abort ∧ 2 ^ 16 ≤ strs.length) ∨
      ∃ m vals' f', gcMarkString v7 vals a = .ok ({ v7 with ownedStrings := m }, vals') ∧
        Marked m vals' vals₀ strs f' (done ++ [a]) := by
  have hskip : tag (vals a) ≠ tagStringO → (a ∈ done ∨ tag (vals₀ a) ≠ tagStringO) →
      ∃ m vals' f', gcMarkString v7 vals a = .ok ({ v7 with ownedStrings := m }, vals') ∧
        Marked m vals' vals₀ strs f' (done ++ [a]) := fun htag hv =>
    ⟨v7.ownedStrings, vals, f, by rw [gcMarkString, if_pos htag], h.skip hv⟩
  have hother : tag (vals₀ a) ≠ tagStringO →
      ∃ m vals' f', gcMarkString v7 vals a = .ok ({ v7 with ownedStrings := m }, vals') ∧
        Marked m vals' vals₀ strs f' (done ++ [a]) := fun htag => by
    have hsame := h.threaded.others a fun hmem => htag (h.mem_refs hmem).2
    exact hskip (by rwa [hsame]) (Or.inr htag)
  rcases hrep.place hlive with htag | ⟨pre, s, post, hsplit, hval, -⟩
  · exact Or.inr (hother htag)
  have hle := total_split_le hsplit
  have hoff : total pre + 1 < 2 ^ 32 := by omega
  have htag : tag (vals₀ a) = tagStringO := by rw [hval, tag_ownedVal hoff]
  have hplace : gcStringValToOffset (vals₀ a) = 1 + total pre := by
    rw [hval, offset_ownedVal hoff, Nat.add_comm]
  have hcells := h.threaded
  rw [hsplit, cellsAt_append, cellsAt] at hcells
  rcases Classical.em (a ∈ done) with hdone | hnew
  · have hmem : a ∈ f (1 + total pre) := (h.refs _ a).mpr ⟨hdone, htag, hplace⟩
    have hlink := hcells.linked ⟨s, f (1 + total pre)⟩ (List.mem_append_right _ List.mem_cons_self)
    exact Or.inr (hskip (hlink.tag_ne hmem) (Or.inl hdone))
  have hsame : vals a = vals₀ a := h.threaded.others a fun hmem => hnew (h.mem_refs hmem).1
  rw [← hsame] at hval htag hplace
  cases hasn : gcIsValidAllocationSeqn v7 (v7.gcMinAsn + UInt16.ofNat pre.length) with
  | false =>
    refine Or.inl ⟨?_, ?_⟩
    · rw [gcMarkString, if_neg (not_not_intro htag), hval, asn_ownedVal hoff,
        gcCheckValidAllocationSeqn, hasn, if_neg Bool.false_ne_true]
      rfl
    · have hlen : pre.length < strs.length := by
        rw [hsplit, List.length_append, List.length_cons]
        omega
      have hvalid := not_congr (valid_iff hnext (i := pre.length))
      rw [hasn] at hvalid
      have := hvalid.mp Bool.false_ne_true
      omega
  | true =>
    obtain ⟨m, vals', hmark, hpush⟩ := mark_owned hcells ha htag
      (by rw [hplace, map_cellsAt, Nat.add_comm]) (by rwa [hval, asn_ownedVal hoff])
    refine Or.inr ⟨m, vals', update f (1 + total pre) (a :: f (1 + total pre)), hmark, ?_, ?_⟩
    · rw [hsplit, cellsAt_update]
      exact hpush
    · intro off b
      rw [List.mem_append, List.mem_singleton]
      rcases eq_or_ne off (1 + total pre) with rfl | hne
      · rw [update_self, List.mem_cons, h.refs]
        constructor
        · rintro (rfl | ⟨hdone, hb⟩)
          · exact ⟨Or.inr rfl, hsame ▸ htag, hsame ▸ hplace⟩
          · exact ⟨Or.inl hdone, hb⟩
        · rintro ⟨hdone | rfl, hb⟩
          · exact Or.inr ⟨hdone, hb⟩
          · exact Or.inl rfl
      · rw [update_of_ne hne, h.refs]
        constructor
        · rintro ⟨hdone, hb⟩
          exact ⟨Or.inl hdone, hb⟩
        · rintro ⟨hdone | rfl, hb⟩
          · exact ⟨hdone, hb⟩
          · exact absurd (hb.2.symm.trans (hsame ▸ hplace)) hne

theorem marks_spec (hnext : v7.gcNextAsn = v7.gcMinAsn + UInt16.ofNat strs.length)
    (hroom : total strs + 1 < 2 ^ 32) (h : Marked v7.ownedStrings vals vals₀ strs f done)
    (hmarks : ∀ a ∈ marks, a < 2 ^ 48 ∧ content a ≠ .dead)
    (hrep : ∀ a, Represents cmem v7.gcMinAsn foreign strs (vals₀ a) (content a)) :
    (marks.foldlM (fun (s : State × Vals) v => gcMarkString s.1 s.2 v) (v7, vals) = .error .abort ∧
        2 ^ 16 ≤ strs.length) ∨
      ∃ m vals' f', marks.foldlM (fun (s : State × Vals) v => gcMarkString s.1 s.2 v) (v7, vals) =
          .ok ({ v7 with ownedStrings := m }, vals') ∧
        Marked m vals' vals₀ strs f' (done ++ marks) := by
  induction marks generalizing v7 vals f done with
  | nil => exact Or.inr ⟨v7.ownedStrings, vals, f, rfl, by rwa [List.append_nil]⟩
  | cons a marks ih =>
    obtain ⟨ha, hlive⟩ := hmarks a List.mem_cons_self
    rw [List.foldlM_cons]
    rcases mark_spec hnext hroom h ha (hrep a) hlive with ⟨herr, hn⟩ | ⟨m, vals', f', hok, hm⟩
    · rw [herr]
      exact Or.inl ⟨rfl, hn⟩
    · rw [hok, v7_ok_bind]
      have hnext' : ({ v7 with ownedStrings := m } : State).gcNextAsn =
          ({ v7 with ownedStrings := m } : State).gcMinAsn + UInt16.ofNat strs.length := hnext
      have hrest := ih hnext' hm
        (fun b hb => hmarks b (List.mem_cons_of_mem a hb)) hrep
      rwa [List.append_assoc] at hrest

/-! ## What is left -/

theorem live_append (cs ds : List Cell) : live (cs ++ ds) = live cs ++ live ds := by
  induction cs with
  | nil => rfl
  | cons c cs ih =>
    rw [List.cons_append, live, live, ih]
    split
    · rfl
    · rfl

theorem live_cons (h : c.refs ≠ []) (cs : List Cell) : live (c :: cs) = c.str :: live cs :=
  if_neg h

theorem live_split (h : live cs = pre ++ s :: post) :
    ∃ cs₁ c cs₂, cs = cs₁ ++ c :: cs₂ ∧ c.refs ≠ [] ∧ live cs₁ = pre := by
  induction cs generalizing pre with
  | nil => exact absurd h.symm (List.append_ne_nil_of_right_ne_nil pre (List.cons_ne_nil _ _))
  | cons c cs ih =>
    rw [live] at h
    split at h
    · rename_i hdead
      obtain ⟨cs₁, d, cs₂, rfl, hd, hpre⟩ := ih h
      exact ⟨c :: cs₁, d, cs₂, rfl, hd, by rw [live, if_pos hdead, hpre]⟩
    · rename_i hne
      cases pre with
      | nil => exact ⟨[], c, cs, rfl, hne, rfl⟩
      | cons q pre =>
        obtain ⟨rfl, hrest⟩ := List.cons.inj h
        obtain ⟨cs₁, d, cs₂, rfl, hd, hpre⟩ := ih hrest
        exact ⟨c :: cs₁, d, cs₂, rfl, hd, by rw [live, if_neg hne, hpre]⟩

/-- The values of a marked string get the place that it has among the marked ones. -/
theorem Placed.split (h : Placed vals head asn (cs ++ c :: ds)) (ha : a ∈ c.refs) :
    vals a = ownedVal (head + total (live cs)) (asn + UInt16.ofNat (live cs).length) := by
  induction cs generalizing head asn with
  | nil =>
    rw [List.nil_append, Placed, if_neg (List.ne_nil_of_mem ha)] at h
    rw [h.1 a ha]
    simp [live, total]
  | cons d cs ih =>
    rw [List.cons_append, Placed] at h
    rw [live]
    rcases eq_or_ne d.refs [] with hdead | hne
    · rw [if_pos hdead] at h ⊢
      exact ih h
    · rw [if_neg hne] at h ⊢
      rw [ih h.2, total_cons, List.length_cons, ← Nat.add_assoc, asn_succ]

/-- The strings that a marked variable refers to. -/
def survivors (vals : Vals) (marks : List Nat) : Nat → List Str → List Str
  | _, [] => []
  | off, s :: strs =>
    if marks.any fun a => tag (vals a) = tagStringO ∧ gcStringValToOffset (vals a) = off then
      s :: survivors vals marks (off + s.size) strs
    else survivors vals marks (off + s.size) strs

theorem Marked.live_eq (h : Marked m vals vals₀ strs f marks) (off : Nat) (l : List Str) :
    live (cellsAt f off l) = survivors vals₀ marks off l := by
  induction l generalizing off with
  | nil => rfl
  | cons s l ih =>
    rw [cellsAt, live, survivors, ih]
    simp only [List.any_eq_true, decide_eq_true_eq]
    rcases eq_or_ne (f off) [] with hnil | hne
    · rw [if_pos hnil, if_neg]
      rintro ⟨a, ha⟩
      have hmem := (h.refs off a).mpr ha
      rw [hnil] at hmem
      cases hmem
    · obtain ⟨a, ha⟩ := List.exists_mem_of_ne_nil _ hne
      rw [if_neg hne, if_pos ⟨a, (h.refs off a).mp ha⟩]

/-- A marked variable gets the new place of its string. -/
theorem Marked.moved (h : Marked m vals₁ vals strs f marks)
    (hplaced : Placed vals' 1 asn (cellsAt f 1 strs)) (hroom : total strs + 1 < 2 ^ 32)
    (ha : a ∈ marks) (hsplit : strs = pre ++ s :: post)
    (hval : vals a = ownedVal (total pre + 1) (min + UInt16.ofNat pre.length)) :
    ∃ bef aft, survivors vals marks 1 strs = bef ++ s :: aft ∧
      vals' a = ownedVal (total bef + 1) (asn + UInt16.ofNat bef.length) := by
  have hle := total_split_le hsplit
  have hoff : total pre + 1 < 2 ^ 32 := by omega
  have hmem : a ∈ f (1 + total pre) := by
    refine (h.refs _ a).mpr ⟨ha, ?_, ?_⟩
    · rw [hval, tag_ownedVal hoff]
    · rw [hval, offset_ownedVal hoff, Nat.add_comm]
  have hlive := h.live_eq 1 strs
  rw [hsplit, cellsAt_append, cellsAt] at hplaced
  rw [hsplit, cellsAt_append, cellsAt, live_append, live_cons (List.ne_nil_of_mem hmem)] at hlive
  refine ⟨_, _, hsplit ▸ hlive.symm, ?_⟩
  rw [hplaced.split hmem, Nat.add_comm]

theorem v7Gc_eq (realloc : Realloc) (full : Bool) {v7₁ v7₂ : State} {vals₂ : Vals}
    (hmark : marks.foldlM (fun (s : State × Vals) v => gcMarkString s.1 s.2 v) (v7, vals) =
      .ok (v7₁, vals₁)) (hcompact : gcCompactStrings v7₁ vals₁ = .ok (v7₂, vals₂))
    (hm : Resting v7₂.ownedStrings strs) :
    ∃ m, v7Gc realloc v7 vals marks full = .ok ({ v7₂ with ownedStrings := m }, vals₂) ∧
      Resting m strs := by
  rw [v7Gc, hmark, v7_ok_bind]
  simp only [hcompact, v7_ok_bind]
  split
  · rename_i hfull
    refine ⟨_, rfl, ?_⟩
    rw [Mbuf.resize]
    split
    · cases realloc (v7₂.ownedStrings.len + vStringBufReserve) with
      | some blk => exact hm.relocate (Nat.le_add_right _ _)
      | none =>
        rw [if_pos (Nat.ne_of_gt (Nat.add_pos_right _ (by decide)))]
        exact hm
    · exact hm
  · exact ⟨v7₂.ownedStrings, rfl, hm⟩

/-- A collection keeps the strings of the variables that it comes to. -/
theorem gc_spec (realloc : Realloc) (full : Bool) (ho : Owns v7 strs)
    (hroom : total strs + 1 < 2 ^ 32)
    (hmarks : ∀ a ∈ marks, a < 2 ^ 48 ∧ content a ≠ .dead)
    (hrep : ∀ a, Represents cmem v7.gcMinAsn v7.foreignStrings strs (vals a) (content a)) :
    (v7Gc realloc v7 vals marks full = .error .abort ∧ 2 ^ 16 ≤ strs.length) ∨
      ∃ v7' vals', v7Gc realloc v7 vals marks full = .ok (v7', vals') ∧
        Owns v7' (survivors vals marks 1 strs) ∧
        (∀ a, Represents cmem v7'.gcMinAsn v7'.foreignStrings (survivors vals marks 1 strs)
          (vals' a) (if a ∈ marks then content a else .dead)) ∧
        (∀ a, (a ∈ marks → tag (vals a) ≠ tagStringO) → vals' a = vals a) ∧
        (∀ pre s post, survivors vals marks 1 strs = pre ++ s :: post →
          ∃ a ∈ marks,
            vals' a = ownedVal (total pre + 1) (v7'.gcMinAsn + UInt16.ofNat pre.length)) ∧
        ∀ a ∈ marks, tag (vals a) = tagStringO → ∃ bef s aft pre post,
          strs = bef ++ s :: aft ∧
          vals a = ownedVal (total bef + 1) (v7.gcMinAsn + UInt16.ofNat bef.length) ∧
          content a = .str s.bytes (some 0) ∧ survivors vals marks 1 strs = pre ++ s :: post ∧
          vals' a = ownedVal (total pre + 1) (v7'.gcMinAsn + UInt16.ofNat pre.length) := by
  rcases marks_spec ho.next hroom (ho.resting.marked vals) hmarks hrep with
    ⟨herr, hn⟩ | ⟨m, vals₁, f, hmark, hm⟩
  · refine Or.inl ⟨?_, hn⟩
    rw [v7Gc, herr]
    rfl
  rw [List.nil_append] at hm
  have hthreaded : Threaded ({ v7 with ownedStrings := m } : State).ownedStrings vals₁ vals
      (cellsAt f 1 strs) := hm.threaded
  obtain ⟨m₂, vals₂, hcompact, -, -, hrest, hplaced, hothers⟩ := compact_spec hthreaded
  rw [hm.live_eq] at hrest hcompact
  obtain ⟨m₃, hgc, hrest₃⟩ := v7Gc_eq realloc full hmark hcompact hrest
  refine Or.inr ⟨_, _, hgc, ⟨hrest₃, rfl, ho.foreign⟩, fun a => ?_,
    fun a ha => hothers a fun hmem => ha (hm.mem_refs hmem).1 (hm.mem_refs hmem).2,
    fun pre s post hsplit => ?_, fun a ha htag => ?_⟩
  rotate_left
  · rw [← hm.live_eq] at hsplit
    obtain ⟨cs₁, c, cs₂, hcells, hc, rfl⟩ := live_split hsplit
    obtain ⟨a, ha⟩ := List.exists_mem_of_ne_nil _ hc
    rw [hcells] at hplaced
    refine ⟨a, (hm.mem_refs ?_).1, ?_⟩
    · rw [hcells]
      exact List.mem_flatMap.mpr ⟨c, List.mem_append_right _ List.mem_cons_self, ha⟩
    · rw [hplaced.split ha, Nat.add_comm]
  · obtain ⟨bef, s, aft, hsplit, hval, hc⟩ :=
      ((hrep a).place (hmarks a ha).2).resolve_left (not_not_intro htag)
    obtain ⟨pre, post, hkept, hnew⟩ := hm.moved hplaced hroom ha hsplit hval
    exact ⟨bef, s, aft, pre, post, hsplit, hval, hc, hkept, hnew⟩
  split
  · rename_i ha
    rcases (hrep a).place (hmarks a ha).2 with htag | ⟨pre, s, post, hsplit, hval, hc⟩
    · rw [hothers a fun hmem => htag (hm.mem_refs hmem).2]
      exact (hrep a).of_tag_ne htag hroom _ _
    · obtain ⟨pre, post, hkept, hnew⟩ := hm.moved hplaced hroom ha hsplit hval
      rw [hnew, hc]
      exact .owned hkept
  · exact .dead _

end ShellJs.V7
