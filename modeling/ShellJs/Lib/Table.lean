import Mathlib.Data.List.Perm.Subperm
import ShellJs.Lib.Heap

/-!
# A hash table threaded through heap blocks

An intrusive hash table keeps its elements in blocks that the caller allocates and
frees; the table only links them. Callers see it in *application order*: a search
by key, an append at the tail, an unlinking, and a walk from head to tail.
`Table β` is that view: `chain` lists the addresses of the linked blocks in
application order, `heap` holds the blocks. The key is read from the block, as the
table does, so a caller that changes a linked block's key changes where a search
finds it.

* `Table.WF`: every linked block is allocated, none is linked twice, and no two
  have the same key.
* `Table.Owned`: every allocated block is linked (nothing is leaked).
* `Shrunk`: one table is another one after stores and removals.
* `get`: the finite map that the table is, from keys to pointers and blocks;
  `get_insert`, `get_remove`, `get_store`, `get_rekey`: the operations on it.
* `exists_find_none`: a table misses one of more distinct keys than it has blocks.
-/

structure Table (β : Type) where
  chain : List Addr
  heap : Heap β

namespace Table

variable {κ β : Type}

def empty : Table β := ⟨[], Heap.empty⟩

/-- The key of the block at `a`. -/
def keyAt (key : β → κ) (t : Table β) (a : Addr) : Option κ := (t.heap.read a).map key

/-- The search by key. -/
def find [DecidableEq κ] (key : β → κ) (t : Table β) (k : κ) : Option Addr :=
  t.chain.find? fun a => decide (t.keyAt key a = some k)

/-- The table as a finite map. -/
def get [DecidableEq κ] (key : β → κ) (t : Table β) (k : κ) : Option (Ptr × β) :=
  (t.find key k).bind t.heap.entry

/-- Append the block at `a` at the tail. -/
def link (t : Table β) (a : Addr) : Table β := { t with chain := t.chain ++ [a] }

/-- Unlink the block at `a`. -/
def unlink (t : Table β) (a : Addr) : Table β := { t with chain := t.chain.erase a }

/-- Allocate a block that is not linked yet. -/
def alloc (t : Table β) (a : Addr) (v : β) (ha : a ≠ NULL ∧ t.heap.cells a = none) : Table β :=
  { t with heap := t.heap.put a v ha }

/-- Allocate a block and append it. -/
def insert (t : Table β) (a : Addr) (v : β) (ha : a ≠ NULL ∧ t.heap.cells a = none) : Table β :=
  (t.alloc a v ha).link a

/-- Free the block at `a`, which must not be linked any more. -/
def free (t : Table β) (a : Addr) : Option (Table β) :=
  (t.heap.free a).map fun h => { t with heap := h }

/-- Store `v` in the block at `a`. -/
def store (t : Table β) (a : Addr) (v : β) : Table β := { t with heap := t.heap.write a v }

structure WF (key : β → κ) (t : Table β) : Prop where
  linked : ∀ a ∈ t.chain, ∃ v, t.heap.read a = some v
  nodup : t.chain.Nodup
  keys : ∀ a ∈ t.chain, ∀ b ∈ t.chain, t.keyAt key a = t.keyAt key b → a = b

/-- Every allocated block is linked. -/
def Owned (t : Table β) : Prop := ∀ a v, t.heap.read a = some v → a ∈ t.chain

variable {key : β → κ} {t t' : Table β} {a x : Addr} {v w : β} {k : κ}

/-! ## What each operation does to the blocks -/

theorem keyAt_of_read (hr : t.heap.read a = some v) : t.keyAt key a = some (key v) := by
  rw [keyAt, hr]
  rfl

@[simp] theorem read_unlink (a x : Addr) : (t.unlink a).heap.read x = t.heap.read x := rfl

@[simp] theorem read_alloc_self (ha) : (t.alloc a v ha).heap.read a = some v :=
  Heap.read_put_self ha

theorem read_alloc_of_ne (ha) (hx : x ≠ a) : (t.alloc a v ha).heap.read x = t.heap.read x :=
  Heap.read_put_of_ne ha hx

theorem read_insert_of_ne (ha) (hx : x ≠ a) : (t.insert a v ha).heap.read x = t.heap.read x :=
  Heap.read_put_of_ne ha hx

theorem read_store_self (hr : t.heap.read a = some w) : (t.store a v).heap.read a = some v :=
  Heap.read_write_self hr

theorem read_store_of_ne (hx : x ≠ a) : (t.store a v).heap.read x = t.heap.read x :=
  Heap.read_write_of_ne hx

theorem free_eq_some : t.free a = some t' ↔
    ∃ b, ∃ hb : t.heap.cells a = some b, t' = { t with heap := t.heap.drop a b hb } := by
  unfold free
  constructor
  · intro h
    obtain ⟨h', hh, rfl⟩ := Option.map_eq_some_iff.mp h
    obtain ⟨b, hb, rfl⟩ := Heap.free_eq_some.mp hh
    exact ⟨b, hb, rfl⟩
  · rintro ⟨b, hb, rfl⟩
    exact Option.map_eq_some_iff.mpr ⟨_, Heap.free_eq_some.mpr ⟨b, hb, rfl⟩, rfl⟩

/-- Freeing an allocated block never fails. -/
theorem free_of_read (hr : t.heap.read a = some v) : ∃ t', t.free a = some t' := by
  obtain ⟨b, hb, -⟩ := Option.map_eq_some_iff.mp hr
  exact ⟨_, free_eq_some.mpr ⟨b, hb, rfl⟩⟩

theorem chain_free (h : t.free a = some t') : t'.chain = t.chain := by
  obtain ⟨b, hb, rfl⟩ := free_eq_some.mp h
  rfl

theorem next_free (h : t.free a = some t') : t'.heap.next = t.heap.next := by
  obtain ⟨b, hb, rfl⟩ := free_eq_some.mp h
  rfl

theorem read_free_self (h : t.free a = some t') : t'.heap.read a = none := by
  obtain ⟨b, hb, rfl⟩ := free_eq_some.mp h
  exact Heap.read_drop_self hb

theorem read_free_of_ne (h : t.free a = some t') (hx : x ≠ a) :
    t'.heap.read x = t.heap.read x := by
  obtain ⟨b, hb, rfl⟩ := free_eq_some.mp h
  exact Heap.read_drop_of_ne hb hx

/-! ## Well-formedness -/

theorem wf_empty : (empty : Table β).WF key :=
  ⟨fun _ h => absurd h List.not_mem_nil, List.nodup_nil, fun _ h => absurd h List.not_mem_nil⟩

/-- Well-formedness reads the chain and the keys on it. -/
theorem WF.congr (hw : t.WF key) (hc : t'.chain = t.chain)
    (hk : ∀ x ∈ t.chain, t'.keyAt key x = t.keyAt key x) : t'.WF key := by
  refine ⟨fun x hx => ?_, by rw [hc]; exact hw.nodup, fun x hx y hy hxy => ?_⟩
  · rw [hc] at hx
    obtain ⟨v, hv⟩ := hw.linked x hx
    have hkx := hk x hx
    rw [keyAt_of_read hv] at hkx
    obtain ⟨w, hw', -⟩ := Option.map_eq_some_iff.mp hkx
    exact ⟨w, hw'⟩
  · rw [hc] at hx hy
    rw [hk x hx, hk y hy] at hxy
    exact hw.keys x hx y hy hxy

theorem not_mem_chain (hw : t.WF key) (ha : t.heap.cells a = none) : a ∉ t.chain := by
  intro hm
  obtain ⟨v, hv⟩ := hw.linked a hm
  rw [Heap.read_eq_none.mpr ha] at hv
  cases hv

theorem keyAt_alloc (hw : t.WF key) (ha) (hx : x ∈ t.chain) :
    (t.alloc a v ha).keyAt key x = t.keyAt key x := by
  have hxa : x ≠ a := fun hxa => not_mem_chain hw ha.2 (hxa ▸ hx)
  rw [keyAt, read_alloc_of_ne ha hxa, keyAt]

/-- A new block that is not linked yet changes nothing in the table. -/
theorem WF.alloc (hw : t.WF key) (ha) : (t.alloc a v ha).WF key :=
  hw.congr rfl fun _ => keyAt_alloc hw ha

/-- Linking an allocated block whose key is new. -/
theorem WF.link (hw : t.WF key) (hx : a ∉ t.chain) (hr : t.heap.read a = some v)
    (hnew : ∀ x ∈ t.chain, t.keyAt key x ≠ some (key v)) : (t.link a).WF key := by
  have hka : t.keyAt key a = some (key v) := keyAt_of_read hr
  refine ⟨fun x hm => ?_, ?_, fun x hm y hm' hxy => ?_⟩
  · rcases List.mem_append.mp hm with h | h
    · exact hw.linked x h
    · rw [List.mem_singleton.mp h]
      exact ⟨v, hr⟩
  · refine List.nodup_append.mpr ⟨hw.nodup, List.nodup_singleton a, fun x h y h' hxy => ?_⟩
    rw [List.mem_singleton.mp h'] at hxy
    exact hx (hxy ▸ h)
  · have hxy' : t.keyAt key x = t.keyAt key y := hxy
    rcases List.mem_append.mp hm with h | h <;> rcases List.mem_append.mp hm' with h' | h'
    · exact hw.keys x h y h' hxy'
    · rw [List.mem_singleton.mp h', hka] at hxy'
      exact absurd hxy' (hnew x h)
    · rw [List.mem_singleton.mp h, hka] at hxy'
      exact absurd hxy'.symm (hnew y h')
    · rw [List.mem_singleton.mp h, List.mem_singleton.mp h']

theorem mem_unlink (hw : t.WF key) : x ∈ (t.unlink a).chain ↔ x ≠ a ∧ x ∈ t.chain :=
  hw.nodup.mem_erase_iff

theorem not_mem_unlink (hw : t.WF key) : a ∉ (t.unlink a).chain :=
  hw.nodup.not_mem_erase

theorem WF.unlink (hw : t.WF key) (a : Addr) : (t.unlink a).WF key := by
  have hsub : ∀ x, x ∈ (t.unlink a).chain → x ∈ t.chain := fun x => List.mem_of_mem_erase
  exact ⟨fun x hx => hw.linked x (hsub x hx), hw.nodup.erase a,
    fun x hx y hy => hw.keys x (hsub x hx) y (hsub y hy)⟩

theorem keyAt_free (h : t.free a = some t') (hx : x ≠ a) : t'.keyAt key x = t.keyAt key x := by
  rw [keyAt, read_free_of_ne h hx, keyAt]

/-- A block that is not linked can be freed without touching the table. -/
theorem WF.free (hw : t.WF key) (hx : a ∉ t.chain) (h : t.free a = some t') : t'.WF key :=
  hw.congr (chain_free h) fun _ hm => keyAt_free h fun hxa => hx (hxa ▸ hm)

theorem keyAt_store_of_ne (hx : x ≠ a) : (t.store a v).keyAt key x = t.keyAt key x := by
  rw [keyAt, read_store_of_ne hx, keyAt]

/-- A store that keeps the key. -/
theorem keyAt_store (hr : t.heap.read a = some w) (hk : key v = key w) :
    (t.store a v).keyAt key x = t.keyAt key x := by
  by_cases hx : x = a
  · subst hx
    rw [keyAt_of_read (read_store_self hr), keyAt_of_read hr, hk]
  · exact keyAt_store_of_ne hx

theorem WF.store (hw : t.WF key) (hr : t.heap.read a = some w) (hk : key v = key w) :
    (t.store a v).WF key :=
  hw.congr rfl fun _ _ => keyAt_store hr hk

/-! ## Searches -/

section
variable [DecidableEq κ]

theorem find_eq_none : t.find key k = none ↔ ∀ x ∈ t.chain, t.keyAt key x ≠ some k := by
  simp [find]

theorem mem_of_find (h : t.find key k = some a) : a ∈ t.chain ∧ t.keyAt key a = some k :=
  ⟨List.mem_of_find?_eq_some h, by simpa using List.find?_some h⟩

theorem find_of_mem (hw : t.WF key) (ha : a ∈ t.chain) (hk : t.keyAt key a = some k) :
    t.find key k = some a := by
  cases hf : t.find key k with
  | none => exact absurd hk (find_eq_none.mp hf a ha)
  | some x =>
    obtain ⟨hx, hxk⟩ := mem_of_find hf
    rw [hw.keys x hx a ha (hxk.trans hk.symm)]

theorem read_of_find (h : t.find key k = some a) : ∃ v, t.heap.read a = some v ∧ key v = k := by
  obtain ⟨-, hk⟩ := mem_of_find h
  obtain ⟨v, hv, hkv⟩ := Option.map_eq_some_iff.mp hk
  exact ⟨v, hv, hkv⟩

theorem find_of_read (hw : t.WF key) (ha : a ∈ t.chain) (hr : t.heap.read a = some v) :
    t.find key (key v) = some a :=
  find_of_mem hw ha (keyAt_of_read hr)

/-- Tables with one chain and the same keys on it answer searches alike. -/
theorem find_congr (hc : t'.chain = t.chain)
    (hk : ∀ x ∈ t.chain, t'.keyAt key x = t.keyAt key x) : t'.find key k = t.find key k := by
  unfold find
  rw [hc]
  revert hk
  generalize t.chain = l
  intro hk
  induction l with
  | nil => rfl
  | cons y l ih =>
    rw [List.find?_cons, List.find?_cons, hk y List.mem_cons_self,
      ih fun x hx => hk x (List.mem_cons_of_mem _ hx)]

theorem find_alloc (hw : t.WF key) (ha) : (t.alloc a v ha).find key k = t.find key k :=
  find_congr rfl fun _ => keyAt_alloc hw ha

theorem find_link (hr : t.heap.read a = some v) (hnew : t.find key (key v) = none) :
    (t.link a).find key k = if k = key v then some a else t.find key k := by
  have hka : t.keyAt key a = some (key v) := keyAt_of_read hr
  have hsplit : (t.link a).find key k =
      (t.find key k).or (if t.keyAt key a = some k then some a else none) := by
    unfold find
    show List.find? _ (t.chain ++ [a]) = _
    rw [List.find?_append, List.find?_singleton]
    simp only [decide_eq_true_eq]
    rfl
  rw [hsplit, hka]
  by_cases hk : k = key v
  · subst hk
    simp [hnew]
  · simp [hk, Ne.symm hk]

theorem store_alloc (w : β) (ha) : ((t.alloc a w ha).store a v).link a = t.insert a v ha := by
  rw [insert, alloc, store, alloc, Heap.write_put]

theorem WF.insert (hw : t.WF key) (ha) (hnew : t.find key (key v) = none) :
    (t.insert a v ha).WF key := by
  have hna : a ∉ t.chain := not_mem_chain hw ha.2
  refine (hw.alloc ha).link hna (read_alloc_self ha) fun x hx => ?_
  rw [keyAt_alloc hw ha hx]
  exact find_eq_none.mp hnew x hx

theorem find_insert (hw : t.WF key) (ha) (hnew : t.find key (key v) = none) :
    (t.insert a v ha).find key k = if k = key v then some a else t.find key k := by
  have hnew' : (t.alloc a v ha).find key (key v) = none := (find_alloc hw ha).trans hnew
  rw [insert, find_link (read_alloc_self ha) hnew', find_alloc hw ha]

theorem find_unlink (hw : t.WF key) (ha : a ∈ t.chain) (hr : t.heap.read a = some v) :
    (t.unlink a).find key k = if k = key v then none else t.find key k := by
  have hka : t.keyAt key a = some (key v) := keyAt_of_read hr
  split
  · next hk =>
    refine find_eq_none.mpr fun x hx hxk => ?_
    obtain ⟨hxa, hxc⟩ := (mem_unlink hw).mp hx
    have hxk' : t.keyAt key x = some k := hxk
    rw [hk, ← hka] at hxk'
    exact hxa (hw.keys x hxc a ha hxk')
  · next hk =>
    cases hf : t.find key k with
    | none =>
      refine find_eq_none.mpr fun x hx => ?_
      exact find_eq_none.mp hf x ((mem_unlink hw).mp hx).2
    | some x =>
      obtain ⟨hxc, hxk⟩ := mem_of_find hf
      refine find_of_mem (hw.unlink a) ((mem_unlink hw).mpr ⟨?_, hxc⟩) hxk
      rintro rfl
      rw [hka] at hxk
      exact hk (Option.some.inj hxk).symm

theorem find_free (hx : a ∉ t.chain) (h : t.free a = some t') : t'.find key k = t.find key k :=
  find_congr (chain_free h) fun _ hm => keyAt_free h fun hxa => hx (hxa ▸ hm)

theorem find_store (hr : t.heap.read a = some w) (hk : key v = key w) :
    (t.store a v).find key k = t.find key k :=
  find_congr rfl fun _ _ => keyAt_store hr hk

/-- Unlinking a block and freeing it. -/
theorem find_remove (hw : t.WF key) (ha : a ∈ t.chain) (hr : t.heap.read a = some v)
    (h : (t.unlink a).free a = some t') :
    t'.WF key ∧ ∀ k, t'.find key k = if k = key v then none else t.find key k := by
  have hna : a ∉ (t.unlink a).chain := not_mem_unlink hw
  exact ⟨(hw.unlink a).free hna h, fun k => by rw [find_free hna h, find_unlink hw ha hr]⟩

/-- Changing the key of a linked block: unlink it, store, link it again. -/
theorem find_rekey (hw : t.WF key) (ha : a ∈ t.chain) (hr : t.heap.read a = some w)
    (hnew : ∀ x ∈ t.chain, x ≠ a → t.keyAt key x ≠ some (key v)) :
    (((t.unlink a).store a v).link a).WF key ∧
      ∀ k, (((t.unlink a).store a v).link a).find key k =
        if k = key v then some a else if k = key w then none else t.find key k := by
  have hna : a ∉ (t.unlink a).chain := not_mem_unlink hw
  have hkeys : ∀ x ∈ (t.unlink a).chain,
      ((t.unlink a).store a v).keyAt key x = (t.unlink a).keyAt key x :=
    fun x hx => keyAt_store_of_ne fun hxa => hna (hxa ▸ hx)
  have hws : ((t.unlink a).store a v).WF key := (hw.unlink a).congr rfl hkeys
  have hrs : ((t.unlink a).store a v).heap.read a = some v := read_store_self hr
  have hfresh : ∀ x ∈ ((t.unlink a).store a v).chain,
      ((t.unlink a).store a v).keyAt key x ≠ some (key v) := by
    intro x hx
    rw [hkeys x hx]
    exact hnew x ((mem_unlink hw).mp hx).2 ((mem_unlink hw).mp hx).1
  have hfind : ∀ k, ((t.unlink a).store a v).find key k = (t.unlink a).find key k :=
    fun _ => find_congr rfl hkeys
  refine ⟨hws.link hna hrs hfresh, fun k => ?_⟩
  rw [find_link hrs (find_eq_none.mpr hfresh), hfind, find_unlink hw ha hr]

/-! ## The finite map -/

variable {p : Ptr}

theorem get_eq_some : t.get key k = some (p, v) ↔
    t.find key k = some p.addr ∧ t.heap.entry p.addr = some (p, v) := by
  unfold get
  constructor
  · intro h
    obtain ⟨a, ha, he⟩ := Option.bind_eq_some_iff.mp h
    rw [Heap.entry_addr he]
    exact ⟨ha, he⟩
  · rintro ⟨hf, he⟩
    rw [hf]
    exact he

theorem get_eq_none : t.get key k = none ↔ t.find key k = none := by
  constructor
  · intro h
    cases hf : t.find key k with
    | none => rfl
    | some a =>
      obtain ⟨v, hv, -⟩ := read_of_find hf
      obtain ⟨p, hp, -⟩ := Heap.entry_of_read hv
      rw [get, hf, Option.bind_some, hp] at h
      cases h
  · intro h
    rw [get, h]
    rfl

theorem get_of_find (h : t.find key k = some a) :
    ∃ p v, t.get key k = some (p, v) ∧ p.addr = a ∧ key v = k := by
  obtain ⟨v, hv, hk⟩ := read_of_find h
  obtain ⟨p, hp, hpa⟩ := Heap.entry_of_read hv
  exact ⟨p, v, by rw [get, h, Option.bind_some, hp], hpa, hk⟩

theorem key_of_get (h : t.get key k = some (p, v)) : key v = k := by
  obtain ⟨hf, he⟩ := get_eq_some.mp h
  obtain ⟨w, hw, hk⟩ := read_of_find hf
  rw [Heap.read_of_entry he] at hw
  cases hw
  exact hk

theorem get_insert (hw : t.WF key) (ha) (hnew : t.find key (key v) = none) :
    (t.insert a v ha).get key k =
      if k = key v then some (⟨a, t.heap.next⟩, v) else t.get key k := by
  rw [get, find_insert hw ha hnew]
  split
  · exact Heap.entry_put_self ha
  · cases hf : t.find key k with
    | none => rw [get, hf]; rfl
    | some x =>
      have hxa : x ≠ a := fun hxa => not_mem_chain hw ha.2 (hxa ▸ (mem_of_find hf).1)
      rw [get, hf]
      exact Heap.entry_put_of_ne ha hxa

theorem get_remove (hw : t.WF key) (ha : a ∈ t.chain) (hr : t.heap.read a = some v)
    (h : (t.unlink a).free a = some t') :
    t'.get key k = if k = key v then none else t.get key k := by
  rw [get, (find_remove hw ha hr h).2 k]
  split
  · rfl
  · next hk =>
    obtain ⟨b, hb, rfl⟩ := free_eq_some.mp h
    cases hf : t.find key k with
    | none => rw [get, hf]; rfl
    | some x =>
      have hxa : x ≠ a := by
        rintro rfl
        obtain ⟨w, hw', hk'⟩ := read_of_find hf
        rw [hr] at hw'
        cases hw'
        exact hk hk'.symm
      rw [get, hf]
      exact Heap.entry_drop_of_ne hb hxa

theorem get_store (k : κ) (hw : t.WF key) (ha : a ∈ t.chain) (hr : t.heap.read a = some w)
    (hk : key v = key w) :
    (t.store a v).get key k =
      if k = key w then (t.get key k).map fun e => (e.1, v) else t.get key k := by
  rw [get, find_store hr hk]
  split
  · next hkw =>
    have hf : t.find key k = some a := by
      rw [hkw]
      exact find_of_read hw ha hr
    rw [get, hf]
    exact Heap.entry_write_self
  · next hkw =>
    cases hf : t.find key k with
    | none => rw [get, hf]; rfl
    | some x =>
      have hxa : x ≠ a := by
        rintro rfl
        obtain ⟨w', hw', hk'⟩ := read_of_find hf
        rw [hr] at hw'
        cases hw'
        exact hkw hk'.symm
      rw [get, hf]
      exact Heap.entry_write_of_ne hxa

theorem get_unlink (hw : t.WF key) (ha : a ∈ t.chain) (hr : t.heap.read a = some v) :
    (t.unlink a).get key k = if k = key v then none else t.get key k := by
  rw [get, find_unlink hw ha hr]
  split
  · rfl
  · rfl

/-- Changing the key of the element that `k₀` finds, to one that no other has. -/
theorem get_rekey {k₀ : κ} (k : κ) (hw : t.WF key) (hg : t.get key k₀ = some (p, w))
    (hnew : t.get key (key v) = none) :
    (((t.unlink p.addr).store p.addr v).link p.addr).WF key ∧
      (((t.unlink p.addr).store p.addr v).link p.addr).get key k =
        if k = key v then some (p, v) else if k = k₀ then none else t.get key k := by
  obtain ⟨hf, he⟩ := get_eq_some.mp hg
  have hr := Heap.read_of_entry he
  have hk : key w = k₀ := key_of_get hg
  obtain ⟨hwf, hfind⟩ := find_rekey hw (mem_of_find hf).1 hr
    fun x hx _ => find_eq_none.mp (get_eq_none.mp hnew) x hx
  refine ⟨hwf, ?_⟩
  have hentry : ∀ x, (((t.unlink p.addr).store p.addr v).link p.addr).heap.entry x =
      (t.heap.write p.addr v).entry x := fun _ => rfl
  rw [get, hfind, hk]
  split
  · rw [Option.bind_some, hentry, Heap.entry_write_self, he]
    rfl
  · split
    · rfl
    · next hk₀ =>
      rw [get]
      cases hfk : t.find key k with
      | none => rfl
      | some x =>
        have hxa : x ≠ p.addr := by
          rintro rfl
          obtain ⟨w', hw', hk'⟩ := read_of_find hfk
          rw [hr] at hw'
          cases hw'
          exact hk₀ (hk'.symm.trans hk)
        rw [Option.bind_some, Option.bind_some, hentry, Heap.entry_write_of_ne hxa]

/-- Pigeonhole: of more distinct keys than there are linked blocks, one is missing. -/
theorem exists_find_none {n : Nat} (f : Nat → κ)
    (hf : ∀ i < n, ∀ j < n, f i = f j → i = j) (hlen : t.chain.length < n) :
    ∃ j < n, t.find key (f j) = none := by
  by_contra hall
  push Not at hall
  have hex : ∀ j : Nat, ∃ a, j < n → t.find key (f j) = some a := by
    intro j
    by_cases hj : j < n
    · obtain ⟨a, ha⟩ := Option.ne_none_iff_exists'.mp (hall j hj)
      exact ⟨a, fun _ => ha⟩
    · exact ⟨NULL, fun h => absurd h hj⟩
  -- distinct keys are found in distinct blocks
  obtain ⟨g, hg⟩ := Classical.axiomOfChoice hex
  have hinj : ∀ i ∈ List.range n, ∀ j ∈ List.range n, g i = g j → i = j := by
    intro i hi j hj hij
    have hi' := List.mem_range.mp hi
    have hj' := List.mem_range.mp hj
    obtain ⟨-, hki⟩ := mem_of_find (hg i hi')
    obtain ⟨-, hkj⟩ := mem_of_find (hg j hj')
    rw [hij, hkj] at hki
    exact (hf j hj' i hi' (Option.some.inj hki)).symm
  have hnd : ((List.range n).map g).Nodup := List.Nodup.map_on hinj List.nodup_range
  have hsub : (List.range n).map g ⊆ t.chain := by
    intro a ha
    obtain ⟨j, hj, rfl⟩ := List.mem_map.mp ha
    exact (mem_of_find (hg j (List.mem_range.mp hj))).1
  have hle := (List.subperm_of_subset hnd hsub).length_le
  simp only [List.length_map, List.length_range] at hle
  omega

end

/-! ## No leaks -/

theorem owned_empty : (empty : Table β).Owned := by
  intro a v h
  simp [empty, Heap.read, Heap.empty] at h

theorem Owned.insert (ho : t.Owned) (ha) : (t.insert a v ha).Owned := by
  intro x w hx
  by_cases hxa : x = a
  · subst hxa
    exact List.mem_append_right _ (List.mem_singleton_self _)
  · rw [read_insert_of_ne ha hxa] at hx
    exact List.mem_append_left _ (ho x w hx)

theorem Owned.remove (ho : t.Owned) (h : (t.unlink a).free a = some t') : t'.Owned := by
  intro x w hx
  rw [chain_free h]
  by_cases hxa : x = a
  · subst hxa
    rw [read_free_self h] at hx
    cases hx
  · rw [read_free_of_ne h hxa] at hx
    exact (List.mem_erase_of_ne hxa).mpr (ho x w hx)

theorem Owned.store (ho : t.Owned) : (t.store a v).Owned := by
  intro x w hx
  cases hc : t.heap.read x with
  | none =>
    have hn : (t.heap.write a v).cells x = none :=
      Heap.write_cells_eq_none.mpr (Heap.read_eq_none.mp hc)
    have hx' : (t.heap.write a v).read x = some w := hx
    rw [Heap.read_eq_none.mpr hn] at hx'
    cases hx'
  | some w' => exact ho x w' hc

theorem Owned.rekey (ho : t.Owned) : (((t.unlink a).store a v).link a).Owned := by
  intro x w hx
  by_cases hxa : x = a
  · subst hxa
    exact List.mem_append_right _ (List.mem_singleton_self _)
  · have hx' : t.heap.read x = some w := (Heap.read_write_of_ne hxa).symm.trans hx
    exact List.mem_append_left _ ((List.mem_erase_of_ne hxa).mpr (ho x w hx'))

/-! ## Stores and removals -/

/-- `t'` is `t` after stores into linked blocks and after removals: the blocks that are still
linked are those that are still allocated, in their order, and the others are as they were. -/
structure Shrunk (t t' : Table β) : Prop where
  chain : t'.chain = t.chain.filter fun a => (t'.heap.cells a).isSome
  outside : ∀ a ∉ t.chain, t'.heap.cells a = t.heap.cells a

theorem isSome_of_linked (hw : t.WF key) (ha : a ∈ t.chain) : (t.heap.cells a).isSome := by
  obtain ⟨v, hv⟩ := hw.linked a ha
  obtain ⟨b, hb, -⟩ := Option.map_eq_some_iff.mp hv
  rw [hb]
  rfl

theorem shrunk_refl (hw : t.WF key) : Shrunk t t :=
  ⟨(List.filter_eq_self.mpr fun _ ha => isSome_of_linked hw ha).symm, fun _ _ => rfl⟩

theorem Shrunk.mem {n : Addr} (h : Shrunk t t') :
    n ∈ t'.chain ↔ n ∈ t.chain ∧ (t'.heap.cells n).isSome := by
  rw [h.chain, List.mem_filter]

/-- A block that is linked in `t` and gone from `t'` stays gone: only linked blocks change. -/
theorem Shrunk.trans {u : Table β} (h : Shrunk t t') (h' : Shrunk t' u) : Shrunk t u := by
  refine ⟨?_, fun a ha => ?_⟩
  · rw [h'.chain, h.chain, List.filter_filter]
    refine List.filter_congr fun a ha => ?_
    by_cases ha' : a ∈ t'.chain
    · rw [(h.mem.mp ha').2, Bool.and_true]
    · have hgone : ¬ (t'.heap.cells a).isSome := fun hs => ha' (h.mem.mpr ⟨ha, hs⟩)
      rw [h'.outside a ha', Bool.and_self]
  · have ha' : a ∉ t'.chain := fun hm => ha (h.mem.mp hm).1
    rw [h'.outside a ha', h.outside a ha]

theorem shrunk_store (hw : t.WF key) (ha : a ∈ t.chain) : Shrunk t (t.store a v) := by
  have hcells : ∀ x, ((t.store a v).heap.cells x).isSome = (t.heap.cells x).isSome := by
    intro x
    by_cases hx : x = a
    · rw [hx, store, Heap.cells_write_self, Option.isSome_map]
    · rw [store, Heap.cells_write_of_ne hx]
  refine ⟨?_, fun x hx => Heap.cells_write_of_ne fun hxa => hx (hxa ▸ ha)⟩
  simp only [hcells]
  exact (shrunk_refl hw).chain

theorem shrunk_remove (hw : t.WF key) (ha : a ∈ t.chain) (h : (t.unlink a).free a = some t') :
    Shrunk t t' := by
  have hother : ∀ x, x ≠ a → t'.heap.cells x = t.heap.cells x := by
    obtain ⟨b, hb, rfl⟩ := free_eq_some.mp h
    exact fun x hx => Heap.cells_drop_of_ne hb hx
  refine ⟨?_, fun x hx => hother x fun hxa => hx (hxa ▸ ha)⟩
  rw [chain_free h]
  show t.chain.erase a = _
  rw [hw.nodup.erase_eq_filter]
  refine List.filter_congr fun x hx => ?_
  by_cases hxa : x = a
  · subst hxa
    rw [Heap.read_eq_none.mp (read_free_self h)]
    simp
  · rw [hother x hxa, isSome_of_linked hw hx]
    simpa using hxa

theorem cells_of_get [DecidableEq κ] {t₁ t₂ : Table β} {b : Block β} (h₁ : Shrunk t t₁)
    (hw₁ : t₁.WF key) (hget : ∀ k, t₁.get key k = t₂.get key k) (ha : a ∈ t.chain)
    (hb : t₁.heap.cells a = some b) : t₂.heap.cells a = some b := by
  have hlink : a ∈ t₁.chain := h₁.mem.mpr ⟨ha, by rw [hb]; rfl⟩
  have hread : t₁.heap.read a = some b.val := by
    rw [Heap.read, hb]
    rfl
  have hentry : t₁.heap.entry a = some (⟨a, b.birth⟩, b.val) := by
    rw [Heap.entry, hb]
    rfl
  have hg : t₁.get key (key b.val) = some (⟨a, b.birth⟩, b.val) :=
    get_eq_some.mpr ⟨find_of_read hw₁ hlink hread, hentry⟩
  rw [hget] at hg
  exact Heap.cells_of_deref (Heap.deref_of_entry (get_eq_some.mp hg).2)

/-- Stores and removals that lead to the same finite map lead to the same table. -/
theorem Shrunk.unique [DecidableEq κ] {t₁ t₂ : Table β} (h₁ : Shrunk t t₁) (h₂ : Shrunk t t₂)
    (hw₁ : t₁.WF key) (hw₂ : t₂.WF key) (hget : ∀ k, t₁.get key k = t₂.get key k) :
    t₁.chain = t₂.chain ∧ t₁.heap.cells = t₂.heap.cells := by
  have hcells : t₁.heap.cells = t₂.heap.cells := by
    funext a
    by_cases ha : a ∈ t.chain
    · cases hc₁ : t₁.heap.cells a with
      | some b => exact (cells_of_get h₁ hw₁ hget ha hc₁).symm
      | none =>
        cases hc₂ : t₂.heap.cells a with
        | none => rfl
        | some b =>
          rw [cells_of_get h₂ hw₂ (fun k => (hget k).symm) ha hc₂] at hc₁
          cases hc₁
    · rw [h₁.outside a ha, h₂.outside a ha]
  exact ⟨by rw [h₁.chain, h₂.chain, hcells], hcells⟩

end Table
