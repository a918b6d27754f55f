import ShellJs.V7.Machine

/-!
# Where the limits are

* `readable_iff`: which strings of a reachable state can be read.
* `slice_lost_iff`: when the source of a copy is read after it has been freed.
* `collect_exact`: what a collection leaves.
-/

namespace ShellJs.V7

open Memory Function Runs

variable {cmem : CMem} {realloc : Realloc} {v7 : State} {s : Machine} {t t' : Spec}
  {strs pre post : List Str} {str : Str} {vals : Vals} {p : Ptr} {v : Val} {b : List UInt8}
  {marks : List Nat} {dst src start len n off i : Nat} {full : Bool} {content : Nat → Content}

/-! ## The window of the sequence numbers -/

theorem owned_iff (h : Owns v7 strs) (hroom : total strs + 1 < 2 ^ 32)
    (hsplit : strs = pre ++ str :: post) :
    v7GetStringData v7 (ownedVal (total pre + 1) (v7.gcMinAsn + UInt16.ofNat pre.length)) =
      if pre.length % 2 ^ 16 < strs.length % 2 ^ 16 then
        .ok (.owned v7.ownedStrings.gen (total pre + 1 + str.llen), str.bytes.length)
      else .error .abort := by
  have hle := total_split_le hsplit
  have hoff : total pre + 1 < 2 ^ 32 := by omega
  split
  · rename_i hwindow
    have hasn := (valid_iff h.next).mpr hwindow
    have hrest := h.resting
    rw [hsplit] at hrest
    have hread := owned_reads ⟨fun _ => [], fun _ _ _ => List.drop_nil.symm⟩ hrest hoff hasn
      (Nat.lt_succ_self _)
    exact hread.data
  · rename_i hwindow
    refine ownedVal_abort hoff (Bool.eq_false_iff.mpr fun hasn => ?_)
    exact hwindow ((valid_iff h.next).mp hasn)

/-- In a state that is reached the strings of the buffer can be read which are in the window of the
sequence numbers: none, when there are 65536 of them. -/
theorem readable_iff {blk : Block} {as : List Action} (hblk : realloc 1 = some blk)
    (hcreate : v7Create realloc = .ok v7) (hfits : Along (step cmem) Fits ⟨v7, vals, []⟩ as)
    (hspec : exec (specStep cmem) Spec.init (as.map Action.op) = .ok t)
    (hrun : exec (step cmem) ⟨v7, vals, []⟩ as = .ok s)
    (hlast : s.v7.ownedStrings.len < 2 ^ 32) :
    ∃ strs, Resting s.v7.ownedStrings strs ∧ ∀ pre str post, strs = pre ++ str :: post →
      v7GetStringData s.v7 (ownedVal (total pre + 1) (s.v7.gcMinAsn + UInt16.ofNat pre.length)) =
        if pre.length % 2 ^ 16 < strs.length % 2 ^ 16 then
          .ok (.owned s.v7.ownedStrings.gen (total pre + 1 + str.llen), str.bytes.length)
        else .error .abort := by
  obtain ⟨v7', hv7, hR⟩ := create_refines cmem hblk vals
  obtain rfl := Except.ok.inj (hcreate.symm.trans hv7)
  rcases exec_follows hR hfits hspec with
    ⟨s', hs', strs, hstores⟩ | ⟨e, hstops⟩
  · obtain rfl := Except.ok.inj (hrun.symm.trans hs')
    have hroom : total strs + 1 < 2 ^ 32 := by rwa [← hstores.owns.resting.len]
    exact ⟨strs, hstores.owns.resting, fun pre str post => owned_iff hstores.owns hroom⟩
  · rw [hstops.exec_eq] at hrun
    cases hrun

/-- Before the collection three strings are in the buffer. -/
theorem readable_iff_sample : ∃ s,
    exec (step sampleMem) ⟨sampleV7, fun _ => 0, []⟩ (sampleRun.take 3) = .ok s ∧
    [8, 16, 24].map s.vals = [ownedVal 1 0, ownedVal 14 1, ownedVal 23 2] ∧ ∃ strs,
    Resting s.v7.ownedStrings strs ∧ ∀ pre str post, strs = pre ++ str :: post →
      v7GetStringData s.v7 (ownedVal (total pre + 1) (s.v7.gcMinAsn + UInt16.ofNat pre.length)) =
        if pre.length % 2 ^ 16 < strs.length % 2 ^ 16 then
          .ok (.owned s.v7.ownedStrings.gen (total pre + 1 + str.llen), str.bytes.length)
        else .error .abort := by
  have hfits : Along (step sampleMem) Fits ⟨sampleV7, fun _ => 0, []⟩ (sampleRun.take 3) := by
    decide +kernel
  have hcreate : v7Create sampleRealloc = .ok sampleV7 := rfl
  have hend : (match exec (step sampleMem) ⟨sampleV7, fun _ => 0, []⟩ (sampleRun.take 3) with
      | .ok s => decide (s.v7.ownedStrings.len < 2 ^ 32 ∧
          [8, 16, 24].map s.vals = [ownedVal 1 0, ownedVal 14 1, ownedVal 23 2])
      | .error _ => false) = true := by
    decide +kernel
  split at hend
  · rename_i s hs
    obtain ⟨hlen, hvals⟩ := of_decide_eq_true hend
    exact ⟨s, hs, hvals, readable_iff rfl hcreate hfits rfl hs hlen⟩
  · cases hend

/-! ## Copies of parts -/

theorem isOwned_iff (h : v7GetStringData v7 v = .ok (p, n)) :
    p.isOwned = true ↔ tag v = tagStringO := by
  have hcases : (p.isOwned = true ∧ tag v = tagStringO) ∨
      (p.isOwned = false ∧ tag v ≠ tagStringO) := by
    rw [v7GetStringData] at h
    split at h
    · rename_i htag
      cases h
      exact Or.inr ⟨rfl, by rw [htag]; decide⟩
    · split at h
      · rename_i htag
        cases h
        exact Or.inr ⟨rfl, by rw [htag]; decide⟩
      · split at h
        · rename_i htag
          split at h
          · cases h
            exact Or.inr ⟨rfl, by rw [htag]; decide⟩
          · cases h
        · split at h
          · rename_i htag
            obtain ⟨u, -, h⟩ := v7_bind_eq_ok.mp h
            obtain ⟨r, -, h⟩ := v7_bind_eq_ok.mp h
            cases h
            exact Or.inl ⟨rfl, htag⟩
          · rename_i htag
            split at h
            · obtain ⟨r, -, h⟩ := v7_bind_eq_ok.mp h
              obtain ⟨q, -, h⟩ := v7_bind_eq_ok.mp h
              cases h
              exact Or.inr ⟨rfl, htag⟩
            · cases h
  rcases hcases with ⟨hp, hv⟩ | ⟨hp, hv⟩
  · exact iff_of_true hp hv
  · exact iff_of_false (Bool.eq_false_iff.mp hp) hv

/-- `v7_mk_string` reads its source after it has been freed. -/
theorem copy_lost_iff (realloc : Realloc) (ho : Owns v7 strs) (hroom : total strs + 1 < 2 ^ 32)
    (hp : Points cmem v7.ownedStrings v7.ownedStrings.len p b) (hshort : b.length < 2 ^ 28) :
    v7MkString cmem realloc v7 p b.length true = .error (.fault .badPointer) ↔
      p.isOwned = true ∧ flatVal b = none ∧ Moves realloc v7.ownedStrings b.length := by
  cases hflat : flatVal b with
  | some v =>
    rw [mkString_flat hshort hp true hflat]
    exact iff_of_false nofun nofun
  | none =>
    rw [(mkString_buffer hshort hp hflat).1]
    rcases mkOwned_spec cmem realloc ho.resting (flatVal_none hflat) hshort hroom
      (Or.inr ⟨b, hp, rfl⟩) with ⟨howned, hmoves, herr⟩ | ⟨hnot, ⟨herr, -⟩ | ⟨m, g, s, hok, -⟩⟩
    · exact iff_of_true herr ⟨howned, rfl, hmoves⟩
    · rw [herr]
      exact iff_of_false nofun fun h => hnot ⟨h.1, h.2.2⟩
    · rw [hok]
      exact iff_of_false nofun fun h => hnot ⟨h.1, h.2.2⟩

/-- A part of a string is copied from memory that has been freed, exactly when the string is owned,
the part has to be owned too, and the buffer moves to make room for its bytes. -/
theorem slice_lost_iff (h : Stores cmem s t strs) (hroom : total strs + 1 < 2 ^ 32)
    (hwindow : strs.length < 2 ^ 16) (hb : t.bytes src = .ok b) (hle : start + len ≤ b.length)
    (hshort : len < 2 ^ 28) :
    step cmem s ⟨.slice dst src start len, realloc⟩ = .error (.fault .badPointer) ↔
      tag (s.vals src) = tagStringO ∧ flatVal ((b.drop start).take len) = none ∧
        Moves realloc s.v7.ownedStrings len := by
  have hrep := h.slots src
  obtain ⟨next, hnext⟩ := bytes_eq hb
  rw [hnext] at hrep
  obtain ⟨p, hp⟩ := (hrep.reads [] (by rw [List.append_nil]; exact h.owns) hroom).resolve_left
    fun habort => by
      have hn := habort.2
      rw [List.append_nil] at hn
      omega
  have hlen : ((b.drop start).take len).length = len := by
    rw [List.length_take, List.length_drop]
    omega
  have hpoints := hp.points_add hle
  rw [← h.owns.resting.len] at hpoints
  have hlost := copy_lost_iff realloc h.owns hroom hpoints (by rwa [hlen])
  rw [hlen, isOwned_add, isOwned_iff hp.data] at hlost
  rw [← hlost, step]
  simp only [hp.data, v7_ok_bind]
  cases v7MkString cmem realloc s.v7 (p.add start) len true with
  | error e =>
    rw [v7_error_bind, Except.error.injEq, Except.error.injEq]
  | ok r => exact iff_of_false (fun h => by cases h) (fun h => by cases h)

/-- A buffer with these strings. -/
def Mbuf.ofStrs (strs : List Str) : Mbuf where
  gen := 0
  buf i := (image (strs.map Str.cell) ++ [0]).getD i 0
  len := total strs + 1
  size := total strs + 1

theorem resting_ofStrs (strs : List Str) : Resting (.ofStrs strs) strs :=
  ⟨holds_getD _ 0, rfl, Nat.le_refl _⟩

def hello : Str := ⟨cBytes "hello world", by decide, by decide⟩

def second : Str := ⟨cBytes "the second", by decide, by decide⟩

def third : Str := ⟨cBytes "and a third one", by decide, by decide⟩

/-- Three strings, and variables that they are in. -/
def sampleMachine : Machine where
  v7 :=
    { ownedStrings := .ofStrs [hello, second, third]
      foreignStrings := { gen := 0, buf := fun _ => 0, len := 0, size := 0 }
      needGc := false
      gcNextAsn := 3
      gcMinAsn := 0 }
  vals a := if a = 8 then ownedVal 1 0 else if a = 16 then ownedVal 14 1 else ownedVal 26 2
  answers := []

def sampleSpec : Spec where
  slots a :=
    .str (if a = 8 then hello.bytes else if a = 16 then second.bytes else third.bytes) (some 0)
  answers := []

theorem sample_stores : Stores sampleMem sampleMachine sampleSpec [hello, second, third] := by
  refine ⟨⟨resting_ofStrs _, rfl, Nat.le_refl 0⟩, fun a => ?_, rfl⟩
  rw [sampleMachine, sampleSpec]
  simp only []
  split
  · exact @Represents.owned sampleMem 0 _ _ [] [second, third] hello rfl
  · split
    · exact @Represents.owned sampleMem 0 _ _ [hello] [third] second rfl
    · exact @Represents.owned sampleMem 0 _ _ [hello, second] [] third rfl

/-- A part of seven bytes is lost, and one of five bytes is not. -/
theorem slice_lost_iff_sample :
    step sampleMem sampleMachine ⟨.slice 16 8 3 7, sampleRealloc⟩ = .error (.fault .badPointer) ∧
    step sampleMem sampleMachine ⟨.slice 16 8 3 5, sampleRealloc⟩ ≠ .error (.fault .badPointer) := by
  constructor
  · refine (slice_lost_iff sample_stores (by decide) (by decide) rfl (by decide)
      (by decide)).mpr ?_
    exact ⟨by decide, by decide +kernel, by decide, _, rfl, rfl⟩
  · refine fun hlost => ?_
    have hpart := (slice_lost_iff sample_stores (by decide) (by decide) rfl (by decide)
      (by decide)).mp hlost
    exact absurd hpart.2.1 (by decide +kernel)

/-! ## What a collection leaves -/

theorem survivors_sublist : (survivors vals marks off strs).Sublist strs := by
  induction strs generalizing off with
  | nil => exact .slnil
  | cons s strs ih =>
    rw [survivors]
    split
    · exact ih.cons_cons s
    · exact ih.cons s

/-- After a collection the buffer is what the marked variables refer to, in the old order and
without a gap. These variables have the new places of their strings, and every other value is as
before. -/
theorem collect_exact (h : Stores cmem s t strs) (hroom : total strs + 1 < 2 ^ 32)
    (hwindow : strs.length < 2 ^ 16) (hmarks : ∀ a ∈ marks, a < 2 ^ 48 ∧ t.slots a ≠ .dead) :
    ∃ s' kept, step cmem s ⟨.collect marks full, realloc⟩ = .ok s' ∧
      kept = survivors s.vals marks 1 strs ∧ kept.Sublist strs ∧
      load s'.v7.ownedStrings.buf 0 s'.v7.ownedStrings.len = image (kept.map Str.cell) ++ [0] ∧
      (∀ pre str post, kept = pre ++ str :: post → ∃ a ∈ marks, s'.vals a =
        ownedVal (total pre + 1) (s'.v7.gcMinAsn + UInt16.ofNat pre.length)) ∧
      (∀ a ∈ marks, tag (s.vals a) = tagStringO → ∃ bef str aft pre post,
        strs = bef ++ str :: aft ∧
        s.vals a = ownedVal (total bef + 1) (s.v7.gcMinAsn + UInt16.ofNat bef.length) ∧
        t.slots a = .str str.bytes (some 0) ∧ kept = pre ++ str :: post ∧
        s'.vals a = ownedVal (total pre + 1) (s'.v7.gcMinAsn + UInt16.ofNat pre.length)) ∧
      ∀ a, (a ∈ marks → tag (s.vals a) ≠ tagStringO) → s'.vals a = s.vals a := by
  rcases gc_spec realloc full h.owns hroom hmarks h.slots with
    ⟨-, hn⟩ | ⟨v7', vals', hok, howns, -, hothers, hplaced, hmoved⟩
  · omega
  · refine ⟨⟨v7', vals', s.answers⟩, _, ?_, rfl, survivors_sublist, ?_, hplaced, hmoved, hothers⟩
    · rw [step]
      simp only [hok, v7_ok_bind]
      rfl
    · refine howns.resting.image.load_eq ?_
      rw [List.length_append, length_image, map_cell_str, howns.resting.len, List.length_singleton]

/-- The second of three strings is not marked, and goes. -/
theorem collect_exact_sample :
    ∃ s' kept, step sampleMem sampleMachine ⟨.collect [24, 8, 24] true, sampleRealloc⟩ = .ok s' ∧
      kept = survivors sampleMachine.vals [24, 8, 24] 1 [hello, second, third] ∧
      kept = [hello, third] ∧
      load s'.v7.ownedStrings.buf 0 s'.v7.ownedStrings.len = image (kept.map Str.cell) ++ [0] ∧
      (∀ a ∈ [24, 8, 24], tag (sampleMachine.vals a) = tagStringO → ∃ bef str aft pre post,
        [hello, second, third] = bef ++ str :: aft ∧
        sampleMachine.vals a =
          ownedVal (total bef + 1) (sampleMachine.v7.gcMinAsn + UInt16.ofNat bef.length) ∧
        sampleSpec.slots a = .str str.bytes (some 0) ∧ kept = pre ++ str :: post ∧
        s'.vals a = ownedVal (total pre + 1) (s'.v7.gcMinAsn + UInt16.ofNat pre.length)) ∧
      s'.vals 16 = sampleMachine.vals 16 := by
  obtain ⟨s', kept, hstep, hkept, -, himage, -, hmoved, hothers⟩ :=
    @collect_exact sampleMem sampleRealloc sampleMachine sampleSpec _ [24, 8, 24] true
      sample_stores (by decide) (by decide) (by decide)
  exact ⟨s', kept, hstep, hkept, hkept, himage, hmoved, hothers 16 (by decide)⟩

end ShellJs.V7
