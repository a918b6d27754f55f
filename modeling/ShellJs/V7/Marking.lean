import ShellJs.V7.Heap

/-!
# Marking

* `mark_owned`: `gc_mark_string` of an owned string puts the value in front of its thread.
-/

namespace ShellJs.V7

open Memory Function

variable {v7 : State} {m : Mbuf} {vals vals₀ : Vals} {cs pre post : List Cell} {c : Cell} {v : Nat}

theorem Threaded.total_lt (h : Threaded m vals vals₀ (pre ++ c :: post)) :
    total (pre.map Cell.str) + c.str.size < m.len := by
  have hlen := h.len
  rw [List.map_append, List.map_cons, total_append, total_cons] at hlen
  omega

/-- What the buffer holds around a string. -/
theorem Threaded.image_split (h : Threaded m vals vals₀ (pre ++ c :: post)) :
    Holds m.buf 0 (V7.image pre ++ (c.mark :: c.first) ++
      (c.str.body.drop 6 ++ V7.image post ++ [0])) := by
  have himage := h.image
  rw [image_append, image_cons, Cell.image] at himage
  simpa only [List.append_assoc, List.cons_append] using himage

theorem Threaded.mark_eq (h : Threaded m vals vals₀ (pre ++ c :: post)) :
    m.buf (total (pre.map Cell.str)) = c.mark ∧
      load m.buf (total (pre.map Cell.str) + 1) 6 = c.first := by
  obtain ⟨h, -⟩ := holds_append.mp h.image_split
  obtain ⟨-, hmark, hfirst⟩ := holds_append.mp h
  rw [length_image, Nat.zero_add] at hmark hfirst
  exact ⟨hmark, hfirst.load_eq c.length_first⟩

/-- The thread of a string with one more value. -/
def Cell.push (c : Cell) (v : Nat) : Cell := { c with refs := v :: c.refs }

theorem refs_push : (pre ++ c.push v :: post).flatMap Cell.refs =
    pre.flatMap Cell.refs ++ v :: (c.refs ++ post.flatMap Cell.refs) := by
  rw [List.flatMap_append, List.flatMap_cons]
  rfl

theorem refs_split : (pre ++ c :: post).flatMap Cell.refs =
    pre.flatMap Cell.refs ++ (c.refs ++ post.flatMap Cell.refs) := by
  rw [List.flatMap_append, List.flatMap_cons]

theorem mem_refs_push {a : Nat} : a ∈ (pre ++ c.push v :: post).flatMap Cell.refs ↔
    a = v ∨ a ∈ (pre ++ c :: post).flatMap Cell.refs := by
  rw [refs_push, refs_split, List.mem_append, List.mem_cons, List.mem_append (s := pre.flatMap _)]
  exact or_left_comm

/-- A value that is still a string is in no thread. -/
theorem Threaded.not_mem (h : Threaded m vals vals₀ cs) (htag : tag (vals v) = tagStringO) :
    v ∉ cs.flatMap Cell.refs := by
  intro hv
  obtain ⟨c, hc, hv⟩ := List.mem_flatMap.mp hv
  exact (h.linked c hc).tag_ne hv htag

/-- Seven bytes are written: the mark, and the address. -/
theorem Threaded.push (h : Threaded m vals vals₀ (pre ++ c :: post)) (hv : v < 2 ^ 48)
    (hnew : v ∉ (pre ++ c :: post).flatMap Cell.refs) :
    Threaded { m with buf := store m.buf (total (pre.map Cell.str)) (1 :: leBytes 6 v) }
      (update vals v (linkWord c.str c.refs)) vals₀ (pre ++ c.push v :: post) := by
  have hsame : ∀ a, a ∈ (pre ++ c :: post).flatMap Cell.refs →
      update vals v (linkWord c.str c.refs) a = vals a := fun a ha =>
    update_of_ne (fun hav : a = v => hnew (hav ▸ ha)) ..
  have hlinked : ∀ d ∈ pre ++ c :: post,
      Linked (update vals v (linkWord c.str c.refs)) d.str d.refs := fun d hd =>
    (h.linked d hd).congr fun a ha => hsame a (List.mem_flatMap.mpr ⟨d, hd, ha⟩)
  refine ⟨?_, ?_, h.size, ?_, ?_, ?_, ?_⟩
  · have himage := h.image_split.replace (y := 1 :: leBytes 6 v)
      (by rw [List.length_cons, List.length_cons, length_leBytes, c.length_first])
    rw [length_image, Nat.zero_add] at himage
    rw [image_append, image_cons]
    show Holds _ 0
      (V7.image pre ++ (1 :: (leBytes 6 v ++ c.str.body.drop 6) ++ V7.image post) ++ [0])
    simpa only [List.append_assoc, List.cons_append] using himage
  · have hlen := h.len
    rw [List.map_append, List.map_cons] at hlen ⊢
    exact hlen
  · intro d hd
    rcases List.mem_append.mp hd with hd | hd
    · exact hlinked d (List.mem_append_left _ hd)
    · rcases List.mem_cons.mp hd with rfl | hd
      · exact ⟨update_self .., hlinked c (List.mem_append_right _ List.mem_cons_self)⟩
      · exact hlinked d (List.mem_append_right _ (List.mem_cons_of_mem c hd))
  · rw [refs_push, List.nodup_middle, ← refs_split, List.nodup_cons]
    exact ⟨hnew, h.nodup⟩
  · intro a ha
    rcases mem_refs_push.mp ha with rfl | ha
    · exact hv
    · exact h.small a ha
  · intro a ha
    have hav : a ≠ v := fun hav => ha (mem_refs_push.mpr (Or.inl hav))
    rw [update_of_ne hav]
    exact h.others a fun hmem => ha (mem_refs_push.mpr (Or.inr hmem))

/-- `gc_mark_string` of an owned string. -/
theorem mark_owned (h : Threaded v7.ownedStrings vals vals₀ (pre ++ c :: post)) (hv : v < 2 ^ 48)
    (htag : tag (vals v) = tagStringO)
    (hoff : gcStringValToOffset (vals v) = total (pre.map Cell.str) + 1)
    (hasn : gcIsValidAllocationSeqn v7 (asnOf (vals v)) = true) :
    ∃ m vals', gcMarkString v7 vals v = .ok ({ v7 with ownedStrings := m }, vals') ∧
      Threaded m vals' vals₀ (pre ++ c.push v :: post) := by
  have hpush := h.push hv (h.not_mem htag)
  obtain ⟨hmark, hfirst⟩ := h.mark_eq
  have hlong := c.str.long
  have hsize := c.str.size_eq
  have hlt := h.total_lt
  have hle := h.size
  have hmem : total (pre.map Cell.str) + 1 + 6 ≤ v7.ownedStrings.size := by omega
  refine ⟨_, _, ?_, hpush⟩
  rw [gcMarkString, if_neg (not_not_intro htag), gcCheckValidAllocationSeqn, if_pos hasn,
    v7_ok_bind, hoff]
  simp only []
  rw [if_pos (by omega), Mbuf.before_succ, v7_ok_bind, Mbuf.read_eq hmem, v7_ok_bind, hmark, hfirst,
    Nat.add_sub_cancel, Mbuf.write_eq (Nat.le_of_add_right_le hmem), v7_ok_bind, Mbuf.write_eq]
  · rw [linkWord_eq]
    rfl
  · exact hmem

end ShellJs.V7
