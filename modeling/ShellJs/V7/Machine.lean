import ShellJs.Lib.Runs
import ShellJs.V7.Collect
import ShellJs.V7.Make

/-!
# Runs of the interpreter's strings

The variables are the values in memory, and every step is an operation of `Op` on them.

* `step`: the operations as the code does them.
* `Refines`: the values stand for the contents of the spec.
* `Makes`, `Stops`: the strings that a step makes, and what can end a run there.
* `strings_refine`: in every run that the spec allows, the answers are those of the spec.
-/

namespace ShellJs.V7

open Memory Sentinel Function Runs

/-- An operation, and what `realloc` answers during it. -/
structure Action where
  op : Op
  realloc : Realloc

structure Machine where
  v7 : State
  vals : Vals
  answers : List Answer

namespace Machine

def answer (s : Machine) (x : Answer) : Machine := { s with answers := s.answers ++ [x] }

def put (s : Machine) (dst : Nat) (r : State × Val) : Machine :=
  { s with v7 := r.1, vals := update s.vals dst r.2 }

end Machine

def step (cmem : CMem) (s : Machine) (a : Action) : Except V7Stop Machine :=
  match a.op with
  | .assign dst v => .ok { s with vals := update s.vals dst v }
  | .move dst src => .ok { s with vals := update s.vals dst (s.vals src) }
  | .make dst p len copy => do
    let r ← v7MkString cmem a.realloc s.v7 (.mem p) (len.getD (2 ^ 64 - 1)) copy
    return s.put dst r
  | .slice dst src start len => do
    let (p, _) ← v7GetStringData s.v7 (s.vals src)
    let r ← v7MkString cmem a.realloc s.v7 (p.add start) len true
    return s.put dst r
  | .concat dst x y => do
    let r ← sConcat cmem a.realloc s.v7 (s.vals x) (s.vals y)
    return s.put dst r
  | .read x => do
    let (p, len) ← v7GetStringData s.v7 (s.vals x)
    let b ← p.read cmem s.v7.ownedStrings len
    return s.answer (.bytes b)
  | .compare x y => do
    let c ← sCmp cmem s.v7 (s.vals x) (s.vals y)
    return s.answer (.order (compare c 0))
  | .cstring x => do
    match ← v7ToCstring cmem s.v7 (s.vals x) with
    | none => return s.answer (.cstring none)
    | some p => do
      let l ← p.bytes cmem s.v7.ownedStrings
      return s.answer (.cstring (some (cut 0 l)))
  | .collect marks full => do
    let (v7, vals) ← v7Gc a.realloc s.v7 s.vals marks full
    return { s with v7 := v7, vals := vals }

/-- The strings' part of `v7_create`: the buffer begins with a NUL. -/
def v7Create (realloc : Realloc) : Except V7Stop State := do
  let empty : Mbuf := { gen := 0, buf := fun _ => 0, len := 0, size := 0 }
  let (m, _) ← empty.insert realloc empty.len (some [0]) 1
  return {
    ownedStrings := m
    foreignStrings := empty
    needGc := false
    gcNextAsn := 0
    gcMinAsn := 0 }

/-! ## Refinement -/

/-- The values stand for the contents, and the buffer holds `strs`. -/
structure Stores (cmem : CMem) (s : Machine) (t : Spec) (strs : List Str) : Prop where
  owns : Owns s.v7 strs
  slots : ∀ i, Represents cmem s.v7.gcMinAsn s.v7.foreignStrings strs (s.vals i) (t.slots i)
  answers : s.answers = t.answers

def Refines (cmem : CMem) (s : Machine) (t : Spec) : Prop := ∃ strs, Stores cmem s t strs

/-- The buffers are small enough for offsets of 32 bits. -/
def Fits (s : Machine) (_ : Action) : Prop :=
  s.v7.ownedStrings.len < 2 ^ 32 ∧ s.v7.foreignStrings.len < 2 ^ 32

instance (s : Machine) (a : Action) : Decidable (Fits s a) := inferInstanceAs (Decidable (_ ∧ _))

/-- The length of the string that an operation makes, and whether it is a copy. -/
inductive Makes (cmem : CMem) (s : Machine) : Op → Nat → Bool → Prop
  | make {dst p len : Nat} {copy : Bool} : Makes cmem s (.make dst p (some len) copy) len copy
  | cstring {dst p : Nat} {copy : Bool} :
    Makes cmem s (.make dst p none copy) (cut 0 (cmem.read p)).length copy
  | slice {dst src start len : Nat} : Makes cmem s (.slice dst src start len) len true
  | concat {dst x y m n : Nat} {p q : Ptr} (hx : v7GetStringData s.v7 (s.vals x) = .ok (p, m))
    (hy : v7GetStringData s.v7 (s.vals y) = .ok (q, n)) :
    Makes cmem s (.concat dst x y) (m + n) true

/-- What can end a run at a step. -/
inductive Stops (cmem : CMem) (s : Machine) (a : Action) : V7Stop → Prop
  /-- The buffer gets no room for the copy, and `embed_string` writes all the same. -/
  | refused {n : Nat} (hop : Makes cmem s a.op n true) (h : OwnedRefused a.realloc s.v7 n) :
    Stops cmem s a (.fault .outOfBounds)
  /-- So does `v7_mk_string`, when it keeps the pointer. -/
  | unkept {n : Nat} (hop : Makes cmem s a.op n false) (h : ForeignRefused a.realloc s.v7 n) :
    Stops cmem s a (.fault .outOfBounds)
  /-- The source of the new string is in the buffer, and this has moved. -/
  | moved {dst src start len : Nat} (hop : a.op = .slice dst src start len)
    (h : Moves a.realloc s.v7.ownedStrings len) : Stops cmem s a (.fault .badPointer)
  /-- The numbers of the strings have wrapped around. -/
  | window {strs : List Str} (h : Resting s.v7.ownedStrings strs)
    (hn : 2 ^ 16 ≤ strs.length + 1) : Stops cmem s a .abort

variable {cmem : CMem} {s s' : Machine} {t t' : Spec} {a : Action} {strs more : List Str}
  {v7' : State} {v : Val} {b x y : List UInt8} {dst i j start len : Nat} {copy full : Bool}
  {marks : List Nat} {o : Option Nat} {next nx ny : Option UInt8}

/-- A value in a variable. -/
theorem represents_update {min : UInt16} {foreign : Mbuf} {c : Content} {vals : Vals}
    {slots : Nat → Content} (h : ∀ i, Represents cmem min foreign strs (vals i) (slots i))
    (hv : Represents cmem min foreign strs v c) (dst i : Nat) :
    Represents cmem min foreign strs (update vals dst v i) (update slots dst c i) := by
  rcases eq_or_ne i dst with rfl | hne
  · rwa [update_self, update_self]
  · rw [update_of_ne hne, update_of_ne hne]
    exact h i

/-- A new string in a variable. -/
theorem Made.refines (h : Made cmem s.v7 strs more b next v7' v) (hs : Stores cmem s t strs)
    (ht : t.put dst b next = .ok t') : Refines cmem (s.put dst (v7', v)) t' := by
  rw [Spec.put] at ht
  split at ht
  · obtain rfl := Except.ok.inj ht
    refine ⟨_, h.owns, represents_update (fun i => ?_) h.value dst, hs.answers⟩
    have hold := (hs.slots i).mono more h.foreign
    rwa [← h.min] at hold
  · cases ht

theorem put_length (ht : t.put dst b next = .ok t') : b.length < 2 ^ 28 := by
  rw [Spec.put] at ht
  split at ht
  · assumption
  · cases ht

theorem bytes_eq (h : t.bytes i = .ok b) : ∃ next, t.slots i = .str b next := by
  rw [Spec.bytes] at h
  split at h
  · rename_i next heq
    exact ⟨next, by rw [heq, Except.ok.inj h]⟩
  · cases h

/-! ## One step -/

/-- A step that does what the spec does, unless it stops. -/
def Follows (cmem : CMem) (s : Machine) (a : Action) (t' : Spec) : Prop :=
  (∃ e, step cmem s a = .error e ∧ Stops cmem s a e) ∨
    ∃ s', step cmem s a = .ok s' ∧ Refines cmem s' t'

/-- The bytes at an address, and the call that makes a string of them. -/
theorem memString_spec (h : memString cmem i o = .ok b) (hshort : b.length < 2 ^ 28) (copy : Bool) :
    i < 2 ^ 64 ∧ (∃ r, cmem.read i = b ++ r) ∧
      (∀ s dst, Makes cmem s (.make dst i o copy) b.length copy) ∧
      ∀ realloc v7, v7MkString cmem realloc v7 (.mem i) (o.getD (2 ^ 64 - 1)) copy =
        v7MkString cmem realloc v7 (.mem i) b.length copy := by
  cases o with
  | none =>
    rw [memString] at h
    split at h
    · rename_i hc
      obtain rfl := Except.ok.inj h
      obtain ⟨r, hr⟩ := exists_eq_cut_append hc.1
      exact ⟨hc.2, ⟨_, hr⟩, fun _ _ => .cstring,
        fun realloc v7 => mkString_strlen rfl hc.1 hshort copy⟩
    · cases h
  | some len =>
    rw [memString] at h
    split at h
    · rename_i hc
      obtain rfl := Except.ok.inj h
      have hlen : ((cmem.read i).take len).length = len := by
        rw [List.length_take, Nat.min_eq_left hc.1]
      refine ⟨hc.2, ⟨_, (List.take_append_drop len _).symm⟩, fun _ _ => ?_, fun _ _ => ?_⟩
      · rw [hlen]
        exact .make
      · rw [hlen, Option.getD_some]
    · cases h

theorem Stores.room (h : Stores cmem s t strs) (hfits : Fits s a) : total strs + 1 < 2 ^ 32 := by
  rw [← h.owns.resting.len]
  exact hfits.1

/-- The string of a variable. -/
theorem Stores.reads (h : Stores cmem s t strs) (hroom : total strs + 1 < 2 ^ 32)
    (hb : t.slots i = .str b next) :
    (v7GetStringData s.v7 (s.vals i) = .error .abort ∧ 2 ^ 16 ≤ strs.length + 1) ∨
      ∃ p, Reads cmem s.v7 (total strs + 1) (s.vals i) p b next := by
  have hrep := h.slots i
  rw [hb] at hrep
  have hreads := hrep.reads [] (by rw [List.append_nil]; exact h.owns) hroom
  rw [List.append_nil] at hreads
  exact hreads.imp_left fun ⟨herr, hn⟩ => ⟨herr, Nat.le_succ_of_le hn⟩

/-- What `s_cmp` says about the order of two strings. -/
theorem compare_eq (x y : List UInt8) :
    compare (if x.length = y.length then memcmp x y else if x.length > y.length then 1 else -1) 0 =
      shortlex x y := by
  rw [shortlex]
  rcases Nat.lt_trichotomy x.length y.length with hlt | heq | hgt
  · have hne : x ≠ y := fun h => by rw [h] at hlt; omega
    rw [if_neg (Nat.ne_of_lt hlt), if_neg (Nat.not_lt_of_lt hlt), if_neg hne, if_pos (Or.inl hlt)]
    rfl
  · rw [if_pos heq]
    rcases memcmp_order x y with ⟨hlt, h⟩ | ⟨rfl, h⟩ | ⟨hlt, h⟩
    · have hne : x ≠ y := fun h => by rw [h] at hlt; exact List.lt_irrefl _ hlt
      rw [if_neg hne, if_pos (Or.inr ⟨heq, hlt⟩)]
      exact compare_lt_iff_lt.mpr (by omega)
    · rw [if_pos rfl, h]
      rfl
    · have hne : x ≠ y := fun h => by rw [h] at hlt; exact List.lt_irrefl _ hlt
      have hnot : ¬(x.length < y.length ∨ x.length = y.length ∧ x < y) := fun h =>
        h.elim (by omega) fun h => List.lt_irrefl _ (List.lt_trans hlt h.2)
      rw [if_neg hne, if_neg hnot]
      exact compare_gt_iff_gt.mpr (by omega)
  · have hne : x ≠ y := fun h => by rw [h] at hgt; omega
    rw [if_neg (Nat.ne_of_gt hgt), if_pos hgt, if_neg hne, if_neg (by omega)]
    rfl

theorem Reads.sCmp_eq {lim : Nat} {va vb : Val} {p q : Ptr} (hp : Reads cmem s.v7 lim va p x nx)
    (hq : Reads cmem s.v7 lim vb q y ny) : sCmp cmem s.v7 va vb =
      .ok (if x.length = y.length then memcmp x y else if x.length > y.length then 1 else -1) := by
  rw [sCmp, hp.data, v7_ok_bind]
  simp only [hq.data, v7_ok_bind, hp.points.read, hq.points.read]
  split
  · rfl
  · split
    · rfl
    · rfl

/-- `v7_to_cstring` has no string with a NUL in it, and none without a NUL behind it. -/
theorem Reads.v7ToCstring_eq {lim : Nat} {p : Ptr} {c : UInt8}
    (hp : Reads cmem s.v7 lim v p b (some c)) :
    v7ToCstring cmem s.v7 v = .ok (if c ≠ 0 ∨ 0 ∈ b then none else some p) := by
  obtain ⟨r, hr, hnext⟩ := hp.bytes
  obtain ⟨r, rfl⟩ := List.head?_eq_some_iff.mp hnext
  rw [v7ToCstring, hp.data, v7_ok_bind]
  simp only [hr, v7_ok_bind]
  rw [List.getElem?_append_right (Nat.le_refl _), Nat.sub_self]
  simp only [List.getElem?_cons_zero]
  rcases eq_or_ne c 0 with rfl | hc
  · simp only [cut_append_sentinel, ne_eq, not_true_eq_false, false_or]
    rcases Classical.em (0 ∈ b) with hnul | hnul
    · have hlen : (cut 0 b).length ≠ b.length := fun h =>
        cut_eq_self_iff.mp ((List.takeWhile_prefix _).eq_of_length h) hnul
      rw [if_pos hnul, if_pos hlen]
      rfl
    · rw [if_neg hnul, cut_eq_self_iff.mpr hnul, if_neg (not_not_intro rfl)]
      rfl
  · rw [if_pos (Or.inl hc), if_pos (Or.inl hc)]
    rfl

section
variable {realloc : Realloc} (h : Stores cmem s t strs)
include h

theorem assign_follows (ht : specStep cmem t (.assign dst v) = .ok t') :
    Follows cmem s ⟨.assign dst v, realloc⟩ t' := by
  rw [specStep] at ht
  split at ht
  · cases ht
  · rename_i hv
    obtain rfl := Except.ok.inj ht
    exact Or.inr ⟨_, rfl, strs, h.owns,
      represents_update h.slots (.other (Bool.eq_false_iff.mpr hv)) dst, h.answers⟩

theorem move_follows (ht : specStep cmem t (.move dst i) = .ok t') :
    Follows cmem s ⟨.move dst i, realloc⟩ t' := by
  obtain rfl := Except.ok.inj ht
  exact Or.inr ⟨_, rfl, strs, h.owns, represents_update h.slots (h.slots i) dst, h.answers⟩

/-- An answer that is the one of the spec. -/
theorem Stores.answer (x : Answer) : Refines cmem (s.answer x) (t.answer x) :=
  ⟨strs, h.owns, h.slots, congrArg (· ++ [x]) h.answers⟩

variable (hroom : total strs + 1 < 2 ^ 32)
include hroom

theorem make_follows (hforeign : s.v7.foreignStrings.len < 2 ^ 32)
    (ht : specStep cmem t (.make dst i o copy) = .ok t') :
    Follows cmem s ⟨.make dst i o copy, realloc⟩ t' := by
  obtain ⟨b, hb, hput⟩ := spec_bind_eq_ok.mp ht
  have hshort := put_length hput
  obtain ⟨haddr, hread, hmakes, hcall⟩ := memString_spec hb hshort copy
  obtain ⟨r, hr⟩ := hread
  have hp : Points cmem s.v7.ownedStrings s.v7.ownedStrings.len (.mem i) b :=
    ⟨⟨r, congrArg Except.ok hr⟩, nofun⟩
  rw [Follows, step]
  simp only [hcall]
  cases copy with
  | true =>
    rcases copy_spec realloc h.owns hroom hp hshort with
      ⟨-, howned, -⟩ | ⟨herr, hno⟩ | ⟨v7', v, more, hok, hmade⟩
    · cases howned
    · rw [herr]
      exact Or.inl ⟨_, rfl, .refused (hmakes s dst) hno⟩
    · rw [hok]
      exact Or.inr ⟨_, rfl, hmade.refines h hput⟩
  | false =>
    rcases foreign_spec realloc h.owns hforeign hshort haddr hr with
      ⟨herr, hno⟩ | ⟨v7', v, hok, hmade⟩
    · rw [herr]
      exact Or.inl ⟨_, rfl, .unkept (hmakes s dst) hno⟩
    · rw [hok]
      exact Or.inr ⟨_, rfl, hmade.refines h hput⟩

theorem slice_follows (ht : specStep cmem t (.slice dst i start len) = .ok t') :
    Follows cmem s ⟨.slice dst i start len, realloc⟩ t' := by
  obtain ⟨b, hb, ht⟩ := spec_bind_eq_ok.mp ht
  obtain ⟨next, hb⟩ := bytes_eq hb
  split at ht
  · rename_i hle
    rw [Follows, step]
    simp only []
    rcases h.reads hroom hb with ⟨herr, hn⟩ | ⟨p, hp⟩
    · rw [herr]
      exact Or.inl ⟨_, rfl, .window h.owns.resting hn⟩
    · have hlen : ((b.drop start).take len).length = len := by
        rw [List.length_take, List.length_drop]
        omega
      have hpoints := hp.points_add hle
      rw [← h.owns.resting.len] at hpoints
      have hspec := copy_spec realloc h.owns hroom hpoints (put_length ht)
      rw [hlen] at hspec
      rw [hp.data, v7_ok_bind]
      rcases hspec with ⟨herr, -, hmoves⟩ | ⟨herr, hno⟩ | ⟨v7', v, more, hok, hmade⟩
      · simp only [herr]
        exact Or.inl ⟨_, rfl, .moved rfl hmoves⟩
      · simp only [herr]
        exact Or.inl ⟨_, rfl, .refused .slice hno⟩
      · simp only [hok]
        exact Or.inr ⟨_, rfl, hmade.refines h ht⟩
  · cases ht

theorem concat_follows (ht : specStep cmem t (.concat dst i j) = .ok t') :
    Follows cmem s ⟨.concat dst i j, realloc⟩ t' := by
  obtain ⟨x, hx, ht⟩ := spec_bind_eq_ok.mp ht
  obtain ⟨y, hy, ht⟩ := spec_bind_eq_ok.mp ht
  have hi := h.slots i
  have hj := h.slots j
  obtain ⟨nx, hx⟩ := bytes_eq hx
  obtain ⟨ny, hy⟩ := bytes_eq hy
  rw [hx] at hi
  rw [hy] at hj
  rw [Follows, step]
  simp only []
  rcases concat_spec realloc h.owns hroom hi hj (put_length ht) with
    ⟨herr, hn⟩ | ⟨herr, ⟨p, hp⟩, ⟨q, hq⟩, hno⟩ | ⟨v7', v, more, hok, hmade⟩
  · rw [herr]
    exact Or.inl ⟨_, rfl, .window h.owns.resting hn⟩
  · rw [herr]
    exact Or.inl ⟨_, rfl, .refused (.concat hp hq) hno⟩
  · rw [hok]
    exact Or.inr ⟨_, rfl, hmade.refines h ht⟩

theorem read_follows (ht : specStep cmem t (.read i) = .ok t') :
    Follows cmem s ⟨.read i, realloc⟩ t' := by
  obtain ⟨b, hb, ht⟩ := spec_bind_eq_ok.mp ht
  obtain ⟨next, hb⟩ := bytes_eq hb
  obtain rfl := Except.ok.inj ht
  rw [Follows, step]
  simp only []
  rcases h.reads hroom hb with ⟨herr, hn⟩ | ⟨p, hp⟩
  · rw [herr]
    exact Or.inl ⟨_, rfl, .window h.owns.resting hn⟩
  · rw [hp.data, v7_ok_bind]
    simp only [hp.points.read, v7_ok_bind]
    exact Or.inr ⟨_, rfl, h.answer _⟩

theorem compare_follows (ht : specStep cmem t (.compare i j) = .ok t') :
    Follows cmem s ⟨.compare i j, realloc⟩ t' := by
  obtain ⟨x, hx, ht⟩ := spec_bind_eq_ok.mp ht
  obtain ⟨y, hy, ht⟩ := spec_bind_eq_ok.mp ht
  obtain ⟨nx, hx⟩ := bytes_eq hx
  obtain ⟨ny, hy⟩ := bytes_eq hy
  obtain rfl := Except.ok.inj ht
  rw [Follows, step]
  simp only []
  rcases h.reads hroom hx with ⟨herr, hn⟩ | ⟨p, hp⟩
  · rw [sCmp, herr]
    exact Or.inl ⟨_, rfl, .window h.owns.resting hn⟩
  rcases h.reads hroom hy with ⟨herr, hn⟩ | ⟨q, hq⟩
  · rw [sCmp, hp.data, v7_ok_bind]
    simp only [herr]
    exact Or.inl ⟨_, rfl, .window h.owns.resting hn⟩
  · rw [hp.sCmp_eq hq, v7_ok_bind, compare_eq]
    exact Or.inr ⟨_, rfl, h.answer _⟩

theorem cstring_follows (ht : specStep cmem t (.cstring i) = .ok t') :
    Follows cmem s ⟨.cstring i, realloc⟩ t' := by
  rw [specStep] at ht
  split at ht
  · rename_i b c hb
    obtain rfl := Except.ok.inj ht
    rw [Follows, step]
    simp only []
    rcases h.reads hroom hb with ⟨herr, hn⟩ | ⟨p, hp⟩
    · rw [v7ToCstring, herr]
      exact Or.inl ⟨_, rfl, .window h.owns.resting hn⟩
    · rw [hp.v7ToCstring_eq, v7_ok_bind]
      rcases Classical.em (c ≠ 0 ∨ 0 ∈ b) with hnone | hsome
      · rw [if_pos hnone, if_pos hnone]
        exact Or.inr ⟨_, rfl, h.answer _⟩
      · obtain ⟨hc, hnul⟩ := not_or.mp hsome
        obtain rfl := not_not.mp hc
        obtain ⟨r, hr, hnext⟩ := hp.bytes
        obtain ⟨r, rfl⟩ := List.head?_eq_some_iff.mp hnext
        rw [if_neg hsome, if_neg hsome]
        simp only [hr, v7_ok_bind, cut_append_sentinel, cut_eq_self_iff.mpr hnul]
        exact Or.inr ⟨_, rfl, h.answer _⟩
  · cases ht

theorem collect_follows (ht : specStep cmem t (.collect marks full) = .ok t') :
    Follows cmem s ⟨.collect marks full, realloc⟩ t' := by
  rw [specStep] at ht
  split at ht
  · rename_i hmarks
    obtain rfl := Except.ok.inj ht
    rw [Follows, step]
    simp only []
    rcases gc_spec realloc full h.owns hroom hmarks h.slots with
      ⟨herr, hn⟩ | ⟨v7', vals', hok, howns, hslots, -, -, -⟩
    · rw [herr]
      exact Or.inl ⟨_, rfl, .window h.owns.resting (Nat.le_succ_of_le hn)⟩
    · rw [hok, v7_ok_bind]
      exact Or.inr ⟨_, rfl, _, howns, hslots, h.answers⟩
  · cases ht

end

/-! ## Runs -/

theorem step_follows (hR : Refines cmem s t) (hfits : Fits s a)
    (ht : specStep cmem t a.op = .ok t') : Follows cmem s a t' := by
  obtain ⟨strs, h⟩ := hR
  have hroom := h.room hfits
  obtain ⟨op, realloc⟩ := a
  cases op with
  | assign dst v => exact assign_follows h ht
  | move dst src => exact move_follows h ht
  | make dst i o copy => exact make_follows h hroom hfits.2 ht
  | slice dst src start len => exact slice_follows h hroom ht
  | concat dst x y => exact concat_follows h hroom ht
  | read x => exact read_follows h hroom ht
  | compare x y => exact compare_follows h hroom ht
  | cstring x => exact cstring_follows h hroom ht
  | collect marks full => exact collect_follows h hroom ht

/-- Nothing is in the variables. -/
def Spec.init : Spec := { slots := fun _ => .dead, answers := [] }

theorem create_refines (cmem : CMem) {realloc : Realloc} {blk : Block} (hblk : realloc 1 = some blk)
    (vals : Vals) :
    ∃ v7, v7Create realloc = .ok v7 ∧ Refines cmem ⟨v7, vals, []⟩ Spec.init := by
  obtain ⟨empty, hempty⟩ : ∃ e : Mbuf, e = { gen := 0, buf := fun _ => 0, len := 0, size := 0 } :=
    ⟨_, rfl⟩
  have hsplice : (empty.relocate blk 1).splice 0 (some [0]) 1 = ⟨(empty.relocate blk 1).gen,
      store (empty.relocate blk 1).buf 0 [0], 1, 1⟩ := by
    rw [hempty]
    rfl
  have hins : empty.insert realloc 0 (some [0]) 1 =
      .ok ((empty.relocate blk 1).splice 0 (some [0]) 1, 1) := by
    rw [hempty, Mbuf.insert, if_pos ⟨Nat.le_refl 0, Nat.le_refl 0⟩, if_neg (by decide)]
    simp only [hblk]
  refine ⟨⟨(empty.relocate blk 1).splice 0 (some [0]) 1, empty, false, 0, 0⟩, ?_, [],
    ⟨?_, rfl, ?_⟩, fun _ => .dead _, rfl⟩
  · rw [v7Create]
    simp only [← hempty, hins, v7_ok_bind]
    rfl
  · rw [hsplice]
    exact ⟨holds_store_self _ _ _, rfl, Nat.le_refl 1⟩
  · exact hempty ▸ Nat.le_refl 0

theorem exec_follows {as : List Action} (hR : Refines cmem s t)
    (hfits : Along (step cmem) Fits s as)
    (hspec : exec (specStep cmem) t (as.map Action.op) = .ok t') :
    (∃ s', exec (step cmem) s as = .ok s' ∧ Refines cmem s' t') ∨
      ∃ e, StopsAt (step cmem) (Stops cmem) s as e := by
  rw [← exec_map] at hspec
  exact exec_refinement (Refines cmem) (Stops cmem)
    (fun s t t' a hR hP ht => step_follows hR hP ht) hR hfits hspec

/-- In every run that the spec allows the answers are those of the spec, unless a buffer cannot
grow, a part of a string is copied while the buffer moves, or there are too many strings. -/
theorem strings_refine {v7 : State} {realloc : Realloc} {blk : Block} {vals : Vals}
    {as : List Action} (hblk : realloc 1 = some blk) (hcreate : v7Create realloc = .ok v7)
    (hfits : Along (step cmem) Fits ⟨v7, vals, []⟩ as)
    (hspec : exec (specStep cmem) Spec.init (as.map Action.op) = .ok t) :
    (∃ s, exec (step cmem) ⟨v7, vals, []⟩ as = .ok s ∧ Refines cmem s t) ∨
      ∃ e, StopsAt (step cmem) (Stops cmem) ⟨v7, vals, []⟩ as e := by
  obtain ⟨v7', hv7, hR⟩ := create_refines cmem hblk vals
  obtain rfl := Except.ok.inj (hcreate.symm.trans hv7)
  exact exec_follows hR hfits hspec

/-- A C string at the address 1000. -/
def sampleMem : CMem where
  read a := if a < 1000 then [] else (cBytes "hello world" ++ [0]).drop (a - 1000)
  read_add a n h := by
    split at h
    · rename_i hlt
      obtain rfl : n = 0 := Nat.le_zero.mp h
      rw [Nat.add_zero, if_pos hlt, List.drop_nil]
    · rename_i hge
      rw [if_neg (by omega), if_neg hge, List.drop_drop, Nat.sub_add_comm (by omega)]

/-- Every request moves the buffer. -/
def sampleRealloc : Realloc := fun _ => some ⟨true, fun _ => 0xAA⟩

def sampleRun : List Action :=
  [.make 8 1000 none true, .slice 16 8 3 7, .concat 24 8 16, .collect [24] true, .read 24,
    .cstring 24, .make 8 1000 (some 6) false, .make 16 1000 (some 6) true, .compare 8 16,
    .cstring 8, .cstring 16].map fun op => ⟨op, sampleRealloc⟩

def sampleV7 : State where
  ownedStrings :=
    { gen := 1, buf := store (fun i => if i < 0 then 0 else 0xAA) 0 [0], len := 1, size := 1 }
  foreignStrings := { gen := 0, buf := fun _ => 0, len := 0, size := 0 }
  needGc := false
  gcNextAsn := 0
  gcMinAsn := 0

/-- Two strings that are equal: the one that is not copied has no NUL behind it. -/
theorem strings_refine_sample : ∃ t : Spec, t.answers =
      [.bytes (cBytes "hello worldlo worl"), .cstring (some (cBytes "hello worldlo worl")),
        .order .eq, .cstring none, .cstring (some (cBytes "hello "))] ∧
    ((∃ s, exec (step sampleMem) ⟨sampleV7, fun _ => 0, []⟩ sampleRun = .ok s ∧
        Refines sampleMem s t) ∨
      ∃ e, StopsAt (step sampleMem) (Stops sampleMem) ⟨sampleV7, fun _ => 0, []⟩ sampleRun e) := by
  have hfits : Along (step sampleMem) Fits ⟨sampleV7, fun _ => 0, []⟩ sampleRun := by
    decide +kernel
  have hcreate : v7Create sampleRealloc = .ok sampleV7 := rfl
  exact ⟨_, rfl, strings_refine rfl hcreate hfits rfl⟩

end ShellJs.V7
