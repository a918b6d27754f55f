import Mathlib.Algebra.Group.Nat.Defs
import Mathlib.Data.List.Basic

/-!
# Flat memories

A memory is a function on addresses. Ranges of it are loaded and stored as lists, with the lowest
address first, and words are kept in little-endian order.

* `load`, `store`, and `Holds`: what a range of a memory holds.
* `Holds.congr`, `Holds.store`: what a store outside of a range leaves there.
* `leBytes`, `leVal`: the bytes of a number, and the number of some bytes.
-/

namespace Memory

variable {β : Type} {m m' : Nat → β} {a b n k i : Nat} {l r : List β}

/-! ## Ranges -/

def load (m : Nat → β) : Nat → Nat → List β
  | _, 0 => []
  | a, n + 1 => m a :: load m (a + 1) n

def store (m : Nat → β) : Nat → List β → Nat → β
  | _, [] => m
  | a, x :: l => store (Function.update m a x) (a + 1) l

/-- The memory holds the list from the address on. -/
def Holds (m : Nat → β) : Nat → List β → Prop
  | _, [] => True
  | a, x :: l => m a = x ∧ Holds m (a + 1) l

@[simp] theorem length_load : (load m a n).length = n := by
  induction n generalizing a with
  | zero => rfl
  | succ n ih => rw [load, List.length_cons, ih]

theorem load_add : load m a (n + k) = load m a n ++ load m (a + n) k := by
  induction n generalizing a with
  | zero => rw [Nat.zero_add, Nat.add_zero, load, List.nil_append]
  | succ n ih =>
    rw [Nat.succ_add, load, load, ih, List.cons_append, Nat.add_assoc, Nat.add_comm 1 n]

theorem load_congr (h : ∀ i, a ≤ i → i < a + n → m i = m' i) : load m a n = load m' a n := by
  induction n generalizing a with
  | zero => rfl
  | succ n ih =>
    rw [load, load, h a (Nat.le_refl a) (by omega), ih fun i hi hn => h i (by omega) (by omega)]

theorem getElem?_load (h : i < n) : (load m a n)[i]? = some (m (a + i)) := by
  induction n generalizing a i with
  | zero => exact absurd h (Nat.not_lt_zero i)
  | succ n ih =>
    cases i with
    | zero => rfl
    | succ i =>
      rw [load, List.getElem?_cons_succ, ih (Nat.lt_of_succ_lt_succ h), Nat.add_assoc,
        Nat.add_comm 1 i]

theorem drop_load (h : k ≤ n) : (load m a n).drop k = load m (a + k) (n - k) := by
  obtain ⟨d, rfl⟩ := Nat.exists_eq_add_of_le h
  rw [load_add, List.drop_left' length_load, Nat.add_sub_cancel_left]

/-! ## What a range holds -/

theorem holds_iff_load : Holds m a l ↔ load m a l.length = l := by
  induction l generalizing a with
  | nil => exact ⟨fun _ => rfl, fun _ => trivial⟩
  | cons x l ih =>
    show m a = x ∧ Holds m (a + 1) l ↔ m a :: load m (a + 1) l.length = x :: l
    rw [ih, List.cons.injEq]

theorem Holds.load_eq (h : Holds m a l) (hn : l.length = n) : load m a n = l := by
  rw [← hn]
  exact holds_iff_load.mp h

theorem holds_load (m : Nat → β) (a n : Nat) : Holds m a (load m a n) := by
  rw [holds_iff_load, length_load]

theorem holds_append : Holds m a (l ++ r) ↔ Holds m a l ∧ Holds m (a + l.length) r := by
  induction l generalizing a with
  | nil => exact ⟨fun h => ⟨trivial, h⟩, fun h => h.2⟩
  | cons x l ih =>
    show m a = x ∧ Holds m (a + 1) (l ++ r) ↔
      (m a = x ∧ Holds m (a + 1) l) ∧ Holds m (a + (l.length + 1)) r
    rw [ih, and_assoc, Nat.add_assoc, Nat.add_comm 1]

theorem Holds.congr (h : Holds m a l) (hm : ∀ i, a ≤ i → i < a + l.length → m' i = m i) :
    Holds m' a l := by
  rw [holds_iff_load, load_congr hm]
  exact holds_iff_load.mp h

theorem Holds.get (h : Holds m a l) (hi : l[i]? = some x) : m (a + i) = x := by
  obtain ⟨hlt, -⟩ := List.getElem?_eq_some_iff.mp hi
  have hl := getElem?_load (m := m) (a := a) hlt
  rw [holds_iff_load.mp h, hi] at hl
  exact (Option.some.inj hl).symm

theorem holds_of_get (h : ∀ i x, l[i]? = some x → m (a + i) = x) : Holds m a l := by
  induction l generalizing a with
  | nil => trivial
  | cons x l ih =>
    refine ⟨h 0 x rfl, ih fun i y hy => ?_⟩
    rw [Nat.succ_add_eq_add_succ]
    exact h (i + 1) y hy

theorem holds_getD (l : List β) (d : β) : Holds (fun i => l.getD i d) 0 l :=
  holds_of_get fun i x hx => by rw [Nat.zero_add, List.getD_eq_getElem?_getD, hx, Option.getD_some]

theorem holds_shift : Holds (fun i => m (a + i)) b l ↔ Holds m (a + b) l := by
  induction l generalizing b with
  | nil => exact Iff.rfl
  | cons x l ih =>
    show m (a + b) = x ∧ Holds (fun i => m (a + i)) (b + 1) l ↔ _
    rw [ih]
    rfl

/-! ## Stores -/

theorem store_of_lt (h : i < a) : store m a l i = m i := by
  induction l generalizing m a with
  | nil => rfl
  | cons x l ih =>
    rw [store, ih (Nat.lt_succ_of_lt h), Function.update_of_ne (Nat.ne_of_lt h)]

theorem store_of_ge (h : a + l.length ≤ i) : store m a l i = m i := by
  induction l generalizing m a with
  | nil => rfl
  | cons x l ih =>
    rw [List.length_cons] at h
    rw [store, ih (by omega), Function.update_of_ne (by omega)]

/-- A store keeps what it does not write. -/
theorem store_of_not_mem (h : ¬(a ≤ i ∧ i < a + l.length)) : store m a l i = m i := by
  rcases Nat.lt_or_ge i a with hlt | hge
  · exact store_of_lt hlt
  · exact store_of_ge (Nat.le_of_not_lt fun hlt => h ⟨hge, hlt⟩)

theorem holds_store_self (m : Nat → β) (a : Nat) (l : List β) : Holds (store m a l) a l := by
  induction l generalizing m a with
  | nil => trivial
  | cons x l ih =>
    refine ⟨?_, ih _ _⟩
    rw [store, store_of_lt (Nat.lt_succ_self a), Function.update_self]

theorem Holds.store (h : Holds m a l) (hd : a + l.length ≤ b ∨ b + r.length ≤ a) :
    Holds (store m b r) a l := by
  refine h.congr fun i hi hlt => store_of_not_mem fun ⟨hb, hlt'⟩ => ?_
  omega

/-- A store in the middle of a range. -/
theorem Holds.replace {x y : List β} (h : Holds m a (l ++ x ++ r)) (hy : y.length = x.length) :
    Holds (Memory.store m (a + l.length) y) a (l ++ y ++ r) := by
  obtain ⟨hlx, hr⟩ := holds_append.mp h
  obtain ⟨hl, -⟩ := holds_append.mp hlx
  rw [List.length_append, ← hy, ← List.length_append] at hr
  refine holds_append.mpr ⟨holds_append.mpr ⟨hl.store (Or.inl (Nat.le_refl _)),
    holds_store_self _ _ _⟩, hr.store (Or.inr (Nat.le_of_eq ?_))⟩
  rw [List.length_append, Nat.add_assoc]

theorem store_append : store m a (l ++ r) = store (store m a l) (a + l.length) r := by
  induction l generalizing m a with
  | nil => rfl
  | cons x l ih =>
    rw [List.cons_append, store, ih, List.length_cons, Nat.add_assoc, Nat.add_comm 1]
    rfl

/-- To store what is there changes nothing. -/
theorem store_of_holds (h : Holds m a l) : store m a l = m := by
  induction l generalizing a with
  | nil => rfl
  | cons x l ih =>
    obtain ⟨rfl, hl⟩ := h
    rw [store, Function.update_eq_self, ih hl]

/-! ## Little-endian words -/

def leBytes : Nat → Nat → List UInt8
  | 0, _ => []
  | k + 1, n => UInt8.ofNat n :: leBytes k (n / 256)

def leVal : List UInt8 → Nat
  | [] => 0
  | b :: l => b.toNat + 256 * leVal l

@[simp] theorem length_leBytes : (leBytes k n).length = k := by
  induction k generalizing n with
  | zero => rfl
  | succ k ih => rw [leBytes, List.length_cons, ih]

theorem leVal_leBytes : leVal (leBytes k n) = n % 256 ^ k := by
  induction k generalizing n with
  | zero => rw [leBytes, leVal, Nat.pow_zero, Nat.mod_one]
  | succ k ih =>
    have hbyte : (UInt8.ofNat n).toNat = n % 256 := UInt8.toNat_ofNat'
    rw [leBytes, leVal, ih, hbyte, Nat.pow_succ', Nat.mod_mul]

theorem leVal_leBytes_of_lt (h : n < 256 ^ k) : leVal (leBytes k n) = n := by
  rw [leVal_leBytes, Nat.mod_eq_of_lt h]

theorem leBytes_leVal (l : List UInt8) : leBytes l.length (leVal l) = l := by
  induction l with
  | nil => rfl
  | cons b l ih =>
    have hb : b.toNat < 256 := b.toNat_lt
    have hdiv : (b.toNat + 256 * leVal l) / 256 = leVal l := by omega
    have hbyte : UInt8.ofNat (b.toNat + 256 * leVal l) = b :=
      UInt8.toNat_inj.mp (by rw [UInt8.toNat_ofNat']; omega)
    rw [leVal, List.length_cons, leBytes, hdiv, ih, hbyte]

theorem leVal_lt (l : List UInt8) : leVal l < 256 ^ l.length := by
  induction l with
  | nil => exact Nat.one_pos
  | cons b l ih =>
    have hb : b.toNat < 256 := b.toNat_lt
    rw [leVal, List.length_cons, Nat.pow_succ']
    omega

/-- The low bytes of a number, and the high ones. -/
theorem leBytes_add (j k n : Nat) :
    leBytes (j + k) n = leBytes j n ++ leBytes k (n / 256 ^ j) := by
  induction j generalizing n with
  | zero => rw [Nat.zero_add, leBytes, List.nil_append, Nat.pow_zero, Nat.div_one]
  | succ j ih =>
    rw [Nat.succ_add, leBytes, leBytes, ih, List.cons_append, Nat.div_div_eq_div_mul,
      Nat.pow_succ']

theorem leBytes_of_leVal {l : List UInt8} (h : l.length = k) : leBytes k (leVal l) = l := by
  rw [← h, leBytes_leVal]

theorem leBytes_inj {v w : Nat} (hv : v < 256 ^ k) (hw : w < 256 ^ k)
    (h : leBytes k v = leBytes k w) : v = w := by
  rw [← leVal_leBytes_of_lt hv, h, leVal_leBytes_of_lt hw]

/-- The low bytes of a number. -/
theorem take_leBytes (h : k ≤ n) (v : Nat) : (leBytes n v).take k = leBytes k v := by
  induction k generalizing n v with
  | zero => rfl
  | succ k ih =>
    obtain ⟨n, rfl⟩ := Nat.exists_eq_succ_of_ne_zero (Nat.ne_of_gt (Nat.lt_of_lt_of_le
      (Nat.succ_pos k) h))
    rw [leBytes, leBytes, List.take_succ_cons, ih (Nat.le_of_succ_le_succ h)]

end Memory
