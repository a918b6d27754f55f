import Mathlib.Logic.Function.Basic
import Mathlib.Data.List.Nodup

/-!
# A heap of blocks

`Heap β` is the part of a C heap whose blocks hold values of type `β`. An address
is a number and `NULL` is `0`. Every allocation gets the next number as its
*birth*; births are never reused, addresses are. Births and the list of frees are
ghost data: no operation reads them except `deref`, the access through a pointer
that remembers which allocation it came from.

The invariants are fields, so every heap that can be built satisfies them:
`freed_iff` with `frees_nodup` says that a block was freed exactly once if it is
no longer allocated, and never if it is.
-/

abbrev Addr := Nat

abbrev NULL : Addr := 0

structure Block (β : Type) where
  birth : Nat
  val : β

@[ext] structure Heap (β : Type) where
  cells : Addr → Option (Block β)
  /-- The number of allocations made so far, which is the next birth. -/
  next : Nat
  /-- The births of the freed blocks, the latest first. -/
  frees : List Nat
  null_free : cells NULL = none
  birth_lt : ∀ a b, cells a = some b → b.birth < next
  birth_inj : ∀ a b a' b', cells a = some b → cells a' = some b' → b.birth = b'.birth → a = a'
  frees_nodup : frees.Nodup
  freed_iff : ∀ k, k ∈ frees ↔ k < next ∧ ∀ a b, cells a = some b → b.birth ≠ k

/-- A pointer with its provenance: an address and the allocation it points into. -/
structure Ptr where
  addr : Addr
  birth : Nat
  deriving DecidableEq

namespace Heap

variable {β : Type}

def empty : Heap β where
  cells := fun _ => none
  next := 0
  frees := []
  null_free := rfl
  birth_lt := by simp
  birth_inj := by simp
  frees_nodup := List.nodup_nil
  freed_iff := by simp

/-- The value of the block at `a`, if one is allocated there. -/
def read (h : Heap β) (a : Addr) : Option β := (h.cells a).map Block.val

/-- The block at `a` with the pointer to it. -/
def entry (h : Heap β) (a : Addr) : Option (Ptr × β) :=
  (h.cells a).map fun b => (⟨a, b.birth⟩, b.val)

/-- An access through `p`: `none` unless the block `p` came from is still allocated. -/
def deref (h : Heap β) (p : Ptr) : Option β :=
  match h.cells p.addr with
  | some b => if b.birth = p.birth then some b.val else none
  | none => none

/-- Put a new block at a free address. -/
def put (h : Heap β) (a : Addr) (v : β) (ha : a ≠ NULL ∧ h.cells a = none) : Heap β where
  cells := Function.update h.cells a (some ⟨h.next, v⟩)
  next := h.next + 1
  frees := h.frees
  null_free := by
    rw [Function.update_of_ne (Ne.symm ha.1)]
    exact h.null_free
  birth_lt := by
    intro x b hx
    by_cases hxa : x = a
    · subst hxa
      simp only [Function.update_self, Option.some.injEq] at hx
      subst hx
      exact Nat.lt_succ_self _
    · rw [Function.update_of_ne hxa] at hx
      exact Nat.lt_succ_of_lt (h.birth_lt x b hx)
  birth_inj := by
    intro x b y c hx hy hbc
    by_cases hxa : x = a <;> by_cases hya : y = a
    · rw [hxa, hya]
    · subst hxa
      simp only [Function.update_self, Option.some.injEq] at hx
      rw [Function.update_of_ne hya] at hy
      subst hx
      exact absurd (h.birth_lt y c hy) (by simp [← hbc])
    · subst hya
      simp only [Function.update_self, Option.some.injEq] at hy
      rw [Function.update_of_ne hxa] at hx
      subst hy
      exact absurd (h.birth_lt x b hx) (by simp [hbc])
    · rw [Function.update_of_ne hxa] at hx
      rw [Function.update_of_ne hya] at hy
      exact h.birth_inj x b y c hx hy hbc
  frees_nodup := h.frees_nodup
  freed_iff := by
    intro k
    rw [h.freed_iff]
    constructor
    · rintro ⟨hk, hlive⟩
      refine ⟨Nat.lt_succ_of_lt hk, fun x b hx => ?_⟩
      by_cases hxa : x = a
      · subst hxa
        simp only [Function.update_self, Option.some.injEq] at hx
        subst hx
        exact (Nat.ne_of_lt hk).symm
      · rw [Function.update_of_ne hxa] at hx
        exact hlive x b hx
    · rintro ⟨hk, hlive⟩
      have hnew := hlive a ⟨h.next, v⟩ (Function.update_self ..)
      simp only [ne_eq] at hnew
      refine ⟨by omega, fun x b hx => hlive x b ?_⟩
      have hxa : x ≠ a := by
        rintro rfl
        rw [ha.2] at hx
        cases hx
      rw [Function.update_of_ne hxa]
      exact hx

/-- `malloc`. The environment proposes the address `a`; a `NULL` or an address that
is in use stands for the answer `NULL`. -/
def malloc (h : Heap β) (a : Addr) (v : β) : Heap β × Addr :=
  if ha : a ≠ NULL ∧ h.cells a = none then (h.put a v ha, a) else (h, NULL)

/-- Take the block at `a` out of the heap. -/
def drop (h : Heap β) (a : Addr) (b : Block β) (ha : h.cells a = some b) : Heap β where
  cells := Function.update h.cells a none
  next := h.next
  frees := b.birth :: h.frees
  null_free := by
    by_cases h0 : NULL = a
    · rw [h0, Function.update_self]
    · rw [Function.update_of_ne h0, h.null_free]
  birth_lt := by
    intro x c hx
    by_cases hxa : x = a
    · rw [hxa, Function.update_self] at hx; cases hx
    · rw [Function.update_of_ne hxa] at hx
      exact h.birth_lt x c hx
  birth_inj := by
    intro x c y d hx hy hcd
    by_cases hxa : x = a
    · rw [hxa, Function.update_self] at hx; cases hx
    · by_cases hya : y = a
      · rw [hya, Function.update_self] at hy; cases hy
      · rw [Function.update_of_ne hxa] at hx
        rw [Function.update_of_ne hya] at hy
        exact h.birth_inj x c y d hx hy hcd
  frees_nodup := by
    refine List.nodup_cons.mpr ⟨fun hmem => ?_, h.frees_nodup⟩
    exact ((h.freed_iff _).mp hmem).2 a b ha rfl
  freed_iff := by
    intro k
    rw [List.mem_cons, h.freed_iff]
    constructor
    · rintro (rfl | ⟨hk, hlive⟩)
      · refine ⟨h.birth_lt a b ha, fun x c hx hc => ?_⟩
        by_cases hxa : x = a
        · rw [hxa, Function.update_self] at hx; cases hx
        · rw [Function.update_of_ne hxa] at hx
          exact hxa (h.birth_inj x c a b hx ha hc)
      · refine ⟨hk, fun x c hx => ?_⟩
        by_cases hxa : x = a
        · rw [hxa, Function.update_self] at hx; cases hx
        · rw [Function.update_of_ne hxa] at hx
          exact hlive x c hx
    · rintro ⟨hk, hlive⟩
      by_cases hkb : k = b.birth
      · exact .inl hkb
      · refine .inr ⟨hk, fun x c hx => ?_⟩
        by_cases hxa : x = a
        · subst hxa
          rw [ha] at hx
          cases hx
          exact fun hc => hkb hc.symm
        · exact hlive x c (by rw [Function.update_of_ne hxa]; exact hx)

/-- `free`: `none` if no block is allocated at `a`. -/
def free (h : Heap β) (a : Addr) : Option (Heap β) :=
  match ha : h.cells a with
  | none => none
  | some b => some (h.drop a b ha)

/-- Store `v` in the block at `a`; nothing happens when none is allocated. -/
def write (h : Heap β) (a : Addr) (v : β) : Heap β where
  cells := fun x => if x = a then (h.cells x).map (fun b => ⟨b.birth, v⟩) else h.cells x
  next := h.next
  frees := h.frees
  null_free := by simp [h.null_free]
  birth_lt := by
    intro x b hx
    split at hx
    · obtain ⟨c, hc, rfl⟩ := Option.map_eq_some_iff.mp hx
      exact h.birth_lt x c hc
    · exact h.birth_lt x b hx
  birth_inj := by
    have key : ∀ x b, (if x = a then (h.cells x).map (fun b => (⟨b.birth, v⟩ : Block β))
        else h.cells x) = some b → ∃ c, h.cells x = some c ∧ c.birth = b.birth := by
      intro x b hx
      split at hx
      · obtain ⟨c, hc, rfl⟩ := Option.map_eq_some_iff.mp hx
        exact ⟨c, hc, rfl⟩
      · exact ⟨b, hx, rfl⟩
    intro x b y c hx hy hbc
    obtain ⟨b', hb', hbb⟩ := key x b hx
    obtain ⟨c', hc', hcc⟩ := key y c hy
    exact h.birth_inj x b' y c' hb' hc' (by rw [hbb, hcc, hbc])
  frees_nodup := h.frees_nodup
  freed_iff := by
    intro k
    rw [h.freed_iff]
    refine and_congr_right fun _ => ⟨fun hl x b hx => ?_, fun hl x b hx => ?_⟩
    · split at hx
      · obtain ⟨c, hc, rfl⟩ := Option.map_eq_some_iff.mp hx
        exact hl x c hc
      · exact hl x b hx
    · by_cases hxa : x = a
      · exact hl x ⟨b.birth, v⟩ (by rw [if_pos hxa, hx]; rfl)
      · exact hl x b (by rw [if_neg hxa]; exact hx)

/-! ## Allocation -/

section
variable {h h' : Heap β} {a x : Addr} {v w : β} {p : Ptr}

theorem malloc_of_free (ha : a ≠ NULL ∧ h.cells a = none) :
    h.malloc a v = (h.put a v ha, a) := dif_pos ha

theorem malloc_of_not_free (ha : ¬ (a ≠ NULL ∧ h.cells a = none)) :
    h.malloc a v = (h, NULL) := dif_neg ha

@[simp] theorem cells_put_self (ha) : (h.put a v ha).cells a = some ⟨h.next, v⟩ :=
  Function.update_self ..

theorem cells_put_of_ne (ha) (hx : x ≠ a) : (h.put a v ha).cells x = h.cells x :=
  Function.update_of_ne hx ..

@[simp] theorem read_put_self (ha) : (h.put a v ha).read a = some v := by
  simp [read]

theorem read_put_of_ne (ha) (hx : x ≠ a) : (h.put a v ha).read x = h.read x := by
  rw [read, cells_put_of_ne ha hx, read]

theorem read_eq_none : h.read a = none ↔ h.cells a = none := by
  simp [read]

theorem ne_of_read (ha : a ≠ NULL ∧ h.cells a = none) (hx : h.read x = some w) : x ≠ a := by
  rintro rfl
  rw [read, ha.2] at hx
  cases hx

theorem ne_null_of_read (hx : h.read x = some w) : x ≠ NULL := by
  rintro rfl
  rw [read, h.null_free] at hx
  cases hx

/-! ## Deallocation -/

theorem free_eq_some : h.free a = some h' ↔ ∃ b, ∃ ha : h.cells a = some b, h' = h.drop a b ha := by
  unfold free
  split
  · next ha => simp [ha]
  · next b ha =>
    constructor
    · intro he
      exact ⟨b, ha, (Option.some.inj he).symm⟩
    · rintro ⟨b', hb', rfl⟩
      have hbb : b = b' := Option.some.inj (ha.symm.trans hb')
      subst hbb
      rfl

theorem free_of_read (hr : h.read a = some v) :
    ∃ b, ∃ ha : h.cells a = some b, b.val = v ∧ h.free a = some (h.drop a b ha) := by
  obtain ⟨b, hb, hv⟩ := Option.map_eq_some_iff.mp hr
  exact ⟨b, hb, hv, free_eq_some.mpr ⟨b, hb, rfl⟩⟩

@[simp] theorem cells_drop_self {b} (ha : h.cells a = some b) : (h.drop a b ha).cells a = none :=
  Function.update_self ..

theorem cells_drop_of_ne {b} (ha : h.cells a = some b) (hx : x ≠ a) :
    (h.drop a b ha).cells x = h.cells x :=
  Function.update_of_ne hx ..

@[simp] theorem read_drop_self {b} (ha : h.cells a = some b) : (h.drop a b ha).read a = none := by
  simp [read]

theorem read_drop_of_ne {b} (ha : h.cells a = some b) (hx : x ≠ a) :
    (h.drop a b ha).read x = h.read x := by
  rw [read, cells_drop_of_ne ha hx, read]

/-! ## Stores -/

theorem cells_write_self : (h.write a v).cells a = (h.cells a).map fun b => ⟨b.birth, v⟩ :=
  if_pos rfl

theorem cells_write_of_ne (hx : x ≠ a) : (h.write a v).cells x = h.cells x := if_neg hx

theorem read_write_self (hr : h.read a = some w) : (h.write a v).read a = some v := by
  obtain ⟨b, hb, -⟩ := Option.map_eq_some_iff.mp hr
  simp [read, cells_write_self, hb]

theorem read_write_of_ne (hx : x ≠ a) : (h.write a v).read x = h.read x := by
  rw [read, cells_write_of_ne hx, read]

theorem write_cells_eq_none : (h.write a v).cells x = none ↔ h.cells x = none := by
  by_cases hx : x = a
  · subst hx
    simp [cells_write_self]
  · rw [cells_write_of_ne hx]

theorem write_put (ha) : (h.put a w ha).write a v = h.put a v ha := by
  ext1
  · funext x
    by_cases hx : x = a
    · subst hx
      rw [cells_write_self, cells_put_self, cells_put_self]
      rfl
    · rw [cells_write_of_ne hx, cells_put_of_ne ha hx, cells_put_of_ne ha hx]
  · rfl
  · rfl

/-- Allocating a block and freeing it leaves the blocks as they were. -/
theorem cells_drop_put {b} (ha) (hb : (h.put a v ha).cells a = some b) :
    ((h.put a v ha).drop a b hb).cells = h.cells := by
  funext x
  by_cases hx : x = a
  · subst hx
    rw [cells_drop_self, ha.2]
  · rw [cells_drop_of_ne hb hx, cells_put_of_ne ha hx]

/-- `n` blocks have been allocated, and exactly these have been freed. -/
structure Recycled (h h' : Heap β) (n : Nat) : Prop where
  cells : h'.cells = h.cells
  next : h'.next = h.next + n
  frees : h'.frees = (List.range' h.next n).reverse ++ h.frees

theorem Recycled.refl (h : Heap β) : Recycled h h 0 := ⟨rfl, rfl, rfl⟩

theorem Recycled.trans {h'' : Heap β} {m n : Nat} (hr : Recycled h h' m)
    (hr' : Recycled h' h'' n) : Recycled h h'' (m + n) := by
  refine ⟨hr'.cells.trans hr.cells, ?_, ?_⟩
  · rw [hr'.next, hr.next, Nat.add_assoc]
  · rw [hr'.frees, hr.frees, hr.next, ← List.append_assoc, ← List.reverse_append,
      List.range'_append_1]

theorem recycled_drop_put {b} (ha) (hb : (h.put a v ha).cells a = some b) :
    Recycled h ((h.put a v ha).drop a b hb) 1 := by
  refine ⟨cells_drop_put ha hb, rfl, ?_⟩
  have hnew : b.birth = h.next := by
    rw [cells_put_self ha] at hb
    rw [← Option.some.inj hb]
  show b.birth :: h.frees = _
  rw [hnew]
  rfl

/-! ## Pointers with provenance -/

theorem entry_addr (he : h.entry a = some (p, v)) : p.addr = a := by
  obtain ⟨b, -, hb⟩ := Option.map_eq_some_iff.mp he
  cases hb
  rfl

theorem entry_of_read (hr : h.read a = some v) : ∃ p, h.entry a = some (p, v) ∧ p.addr = a := by
  obtain ⟨b, hb, rfl⟩ := Option.map_eq_some_iff.mp hr
  exact ⟨⟨a, b.birth⟩, by rw [entry, hb]; rfl, rfl⟩

theorem read_of_entry (he : h.entry a = some (p, v)) : h.read a = some v := by
  obtain ⟨b, hb, he'⟩ := Option.map_eq_some_iff.mp he
  cases he'
  rw [read, hb]
  rfl

/-- An access through the pointer to an allocated block reads the block. -/
theorem deref_of_entry (he : h.entry a = some (p, v)) : h.deref p = some v := by
  obtain ⟨b, hb, he'⟩ := Option.map_eq_some_iff.mp he
  cases he'
  simp [deref, hb]

theorem entry_of_deref (hd : h.deref p = some v) : h.entry p.addr = some (p, v) := by
  unfold deref at hd
  unfold entry
  cases hc : h.cells p.addr with
  | none =>
    rw [hc] at hd
    cases hd
  | some b =>
    simp only [hc] at hd
    split at hd
    · next hb =>
      cases hd
      rw [Option.map_some, hb]
    · cases hd

theorem deref_eq_some : h.deref p = some v ↔ h.cells p.addr = some ⟨p.birth, v⟩ := by
  unfold deref
  cases hc : h.cells p.addr with
  | none => simp
  | some b =>
    obtain ⟨birth, w⟩ := b
    by_cases hb : birth = p.birth <;> simp [hb]

theorem cells_of_deref (hd : h.deref p = some v) : h.cells p.addr = some ⟨p.birth, v⟩ :=
  deref_eq_some.mp hd

theorem deref_congr {g : Heap β} (hc : g.cells p.addr = h.cells p.addr) :
    g.deref p = h.deref p := by
  rw [deref, hc, deref]

theorem birth_lt_of_deref (hd : h.deref p = some v) : p.birth < h.next :=
  h.birth_lt p.addr _ (cells_of_deref hd)

/-- The only new pointer after an allocation is the one to the new block. -/
theorem deref_put (ha) :
    (h.put a v ha).deref p = if p = ⟨a, h.next⟩ then some v else h.deref p := by
  by_cases hpa : p.addr = a
  · obtain ⟨addr, birth⟩ := p
    cases hpa
    have hold : h.deref ⟨addr, birth⟩ = none := by simp [deref, ha.2]
    by_cases hb : birth = h.next
    · simp [deref, hb]
    · rw [if_neg fun heq => hb (congrArg Ptr.birth heq), hold]
      simp [deref, Ne.symm hb]
  · rw [deref_congr (cells_put_of_ne ha hpa), if_neg]
    rintro rfl
    exact hpa rfl

/-- A deallocation takes the pointers to the block away, and no other. -/
theorem deref_drop {q : Ptr} {b} (hb : h.cells q.addr = some b) (hq : b.birth = q.birth) :
    (h.drop q.addr b hb).deref p = if p = q then none else h.deref p := by
  by_cases hpq : p.addr = q.addr
  · have hnew : (h.drop q.addr b hb).deref p = none := by simp [deref, hpq]
    rw [hnew]
    split
    · rfl
    · next hne =>
      obtain ⟨addr, birth⟩ := p
      obtain ⟨addr', birth'⟩ := q
      cases hpq
      have hbirth : b.birth ≠ birth := by
        rw [hq]
        rintro rfl
        exact hne rfl
      simp [deref, hb, hbirth]
  · rw [deref_congr (cells_drop_of_ne hb hpq), if_neg]
    rintro rfl
    exact hpq rfl

theorem deref_write {q : Ptr} (hq : h.deref q = some w) :
    (h.write q.addr v).deref p = if p = q then some v else h.deref p := by
  by_cases hpq : p.addr = q.addr
  · obtain ⟨addr, birth⟩ := p
    obtain ⟨addr', birth'⟩ := q
    cases hpq
    have hc := cells_of_deref hq
    by_cases hb : birth = birth'
    · simp [deref, cells_write_self, hc, hb]
    · simp [deref, cells_write_self, hc, hb, Ne.symm hb]
  · rw [deref_congr (cells_write_of_ne hpq), if_neg]
    rintro rfl
    exact hpq rfl

theorem birth_lt_of_entry (he : h.entry a = some (p, v)) : p.birth < h.next := by
  obtain ⟨b, hb, he'⟩ := Option.map_eq_some_iff.mp he
  cases he'
  exact h.birth_lt a b hb

theorem addr_of_birth {b : Addr} {q : Ptr} (he : h.entry a = some (p, v))
    (he' : h.entry b = some (q, w)) (hpq : p.birth = q.birth) : p.addr = q.addr := by
  obtain ⟨c, hc, hp⟩ := Option.map_eq_some_iff.mp he
  obtain ⟨d, hd, hq⟩ := Option.map_eq_some_iff.mp he'
  cases hp
  cases hq
  exact h.birth_inj a c b d hc hd hpq

theorem entry_put_self (ha) : (h.put a v ha).entry a = some (⟨a, h.next⟩, v) := by
  simp [entry]

theorem entry_put_of_ne (ha) (hx : x ≠ a) : (h.put a v ha).entry x = h.entry x := by
  rw [entry, cells_put_of_ne ha hx, entry]

theorem entry_drop_of_ne {b} (ha : h.cells a = some b) (hx : x ≠ a) :
    (h.drop a b ha).entry x = h.entry x := by
  rw [entry, cells_drop_of_ne ha hx, entry]

/-- A store changes the value and moves no block. -/
theorem entry_write_self : (h.write a v).entry a = (h.entry a).map fun e => (e.1, v) := by
  unfold entry
  rw [cells_write_self]
  cases h.cells a <;> rfl

theorem entry_write_of_ne (hx : x ≠ a) : (h.write a v).entry x = h.entry x := by
  rw [entry, cells_write_of_ne hx, entry]

end

end Heap
