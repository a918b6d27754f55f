import ShellJs.Hash.Add
import ShellJs.Lib.Runs

/-!
# Programs that use a hash

A program adds, finds, deletes, visits and counts elements. `Dict` is what it thinks of the hash:
a list of elements in the order of their additions, each with its key. `Allowed` is what the
macros ask of it: an element is added once, under a key that no other element has, only elements
of the hash are deleted, and their keys stay while they are in it.

* `Stops`: the reasons for which a call does not return.
* `step_refines`: one call, on the hash and on the list.
* `run_refines`: a run of calls. It ends early only at a `HASH_ADD` that `Stops` names; otherwise
  the answers are those of the list, whatever the hash function, in both versions, and `HASH_FSCK`
  never complains.
* `expansion_preserves`: an expansion changes nothing that a program can see.
-/

namespace ShellJs.UTHash

open Runs Function

variable {κ : Type}

/-! ## Keys -/

section
variable {hashFcn : κ → UInt32} {s s' : UTHash} {l : List Addr} {keyAt : Addr → Option κ}
  {x : Addr} {k : κ}

theorem Keyed.store (h : Keyed s keyAt hashFcn l) (hx : x ∉ l) (o : Option κ) :
    Keyed s (update keyAt x o) hashFcn l := by
  have hne : ∀ y ∈ l, update keyAt x o y = keyAt y := fun y hy =>
    update_of_ne (fun hyx : y = x => hx (hyx ▸ hy)) ..
  refine ⟨fun y hy => ?_, fun y hy z hz hyz => ?_⟩
  · rw [hne y hy]
    exact h.hashed y hy
  · rw [hne y hy, hne z hz] at hyz
    exact h.unique y hy z hz hyz

theorem Keyed.erase (h : Keyed s keyAt hashFcn l) (hv : s'.hashv = s.hashv) (x : Addr) :
    Keyed s' keyAt hashFcn (l.erase x) := by
  refine ⟨fun y hy => ?_, fun y hy z hz => ?_⟩
  · rw [hv]
    exact h.hashed y (List.mem_of_mem_erase hy)
  · exact h.unique y (List.mem_of_mem_erase hy) z (List.mem_of_mem_erase hz)

theorem Keyed.add (h : Keyed s keyAt hashFcn l) (hx : x ∉ l) (hk : keyAt x = some k)
    (hnew : ∀ y ∈ l, keyAt y ≠ keyAt x) (hv : s'.hashv = update s.hashv x (hashFcn k)) :
    Keyed s' keyAt hashFcn (l ++ [x]) := by
  refine ⟨fun y hy => ?_, fun y hy z hz hyz => ?_⟩
  · rw [hv]
    rcases List.mem_append.mp hy with hy | hy
    · rw [update_of_ne fun hyx : y = x => hx (hyx ▸ hy)]
      exact h.hashed y hy
    · rw [List.mem_singleton.mp hy, update_self]
      exact ⟨k, hk, rfl⟩
  · rcases List.mem_append.mp hy with hy | hy <;> rcases List.mem_append.mp hz with hz | hz
    · exact h.unique y hy z hz hyz
    · rw [List.mem_singleton.mp hz] at hyz
      exact absurd hyz (hnew y hy)
    · rw [List.mem_singleton.mp hy] at hyz
      exact absurd hyz.symm (hnew z hz)
    · rw [List.mem_singleton.mp hy, List.mem_singleton.mp hz]

end

/-! ## Calls -/

inductive Act (κ : Type)
  /-- The program writes an element that is not in the hash, or frees it. -/
  | store (a : Addr) (k : Option κ)
  | find (k : κ)
  | add (a : Addr) (malloc : Nat → Bool)
  | delete (a : Addr)
  | iter
  | count

inductive Answer
  | found (a : Addr)
  | visited (l : List Addr)
  | counted (n : Nat)

structure Client (κ : Type) where
  hash : UTHash
  keyAt : Addr → Option κ
  answers : List Answer

/-- What a program thinks of a hash. -/
structure Dict (κ : Type) where
  items : List Addr
  keyAt : Addr → Option κ
  answers : List Answer

/-- The hash `c` is the list `d`. -/
structure Refines (hashFcn : κ → UInt32) (c : Client κ) (d : Dict κ) : Prop where
  inv : c.hash.Inv d.items
  keyed : Keyed c.hash c.keyAt hashFcn d.items
  keyAt : d.keyAt = c.keyAt
  answers : d.answers = c.answers

/-- A hash before its first use: `head` is `NULL`, the memory of the handles holds anything. -/
def Unused (c : Client κ) : Prop := c.hash.head = NULL ∧ c.hash.tbl = none

theorem unused_refines {hashFcn : κ → UInt32} {c : Client κ} (h : Unused c) :
    Refines hashFcn c ⟨[], c.keyAt, c.answers⟩ :=
  ⟨empty_inv h.1 h.2, ⟨nofun, nofun⟩, rfl, rfl⟩

variable [DecidableEq κ]

/-- A call. The hash of a key is computed where the macros compute it. -/
def clientStep (ver : UTVersion) (hashFcn : κ → UInt32) (c : Client κ) :
    Act κ → Except Stop (Client κ)
  | .store a k => .ok { c with keyAt := update c.keyAt a k }
  | .find k => do
    let out ← c.hash.hashFind ver c.keyAt k (hashFcn k)
    return { c with answers := c.answers ++ [.found out] }
  | .add a malloc =>
    match c.keyAt a with
    | none => .error (.fault .badPointer)
    | some k => do
      let hash ← c.hash.hashAdd ver malloc a (hashFcn k)
      return { c with hash := hash }
  | .delete a => do
    let hash ← c.hash.hashDelete a
    return { c with hash := hash }
  | .iter => do
    let l ← c.hash.hashIter
    return { c with answers := c.answers ++ [.visited l] }
  | .count => do
    let n ← c.hash.hashCount
    return { c with answers := c.answers ++ [.counted n.toNat] }

/-! ## The list of elements -/

def dictStep (d : Dict κ) : Act κ → Except Stop (Dict κ)
  | .store a k => .ok { d with keyAt := update d.keyAt a k }
  | .find k =>
    .ok { d with
      answers := d.answers ++ [.found ((d.items.find? fun x => d.keyAt x = some k).getD NULL)] }
  | .add a _ => .ok { d with items := d.items ++ [a] }
  | .delete a => .ok { d with items := d.items.erase a }
  | .iter => .ok { d with answers := d.answers ++ [.visited d.items] }
  | .count => .ok { d with answers := d.answers ++ [.counted d.items.length] }

/-- What the macros ask of a program that keeps at most `max` elements. -/
def Allowed (max : Nat) (d : Dict κ) : Act κ → Prop
  | .store a _ => a ∉ d.items
  | .add a _ => a ≠ NULL ∧ a ∉ d.items ∧ d.keyAt a ≠ none ∧
      (∀ x ∈ d.items, d.keyAt x ≠ d.keyAt a) ∧ d.items.length + 1 ≤ max
  | .delete a => a ∈ d.items
  | _ => True

instance (max : Nat) (d : Dict κ) (a : Act κ) : Decidable (Allowed max d a) := by
  cases a <;> unfold Allowed <;> infer_instance

/-- Why a call does not return. -/
def Stops (ver : UTVersion) (hashFcn : κ → UInt32) (c : Client κ) : Act κ → Stop → Prop
  | .add a malloc, e => ∃ k, c.keyAt a = some k ∧ AddStops ver malloc c.hash (hashFcn k) e
  | _, _ => False

/-! ## One call -/

variable {hashFcn : κ → UInt32} {c : Client κ} {d : Dict κ} {x : Addr}

theorem add_refines (ver : UTVersion) {malloc : Nat → Bool} {max : Nat} (hmax : max < 2 ^ 32)
    (h : Refines hashFcn c d) (ha : Allowed max d (.add x malloc)) :
    (∃ e, clientStep ver hashFcn c (.add x malloc) = .error e ∧
        Stops ver hashFcn c (.add x malloc) e) ∨
      ∃ c' d', clientStep ver hashFcn c (.add x malloc) = .ok c' ∧
        dictStep d (.add x malloc) = .ok d' ∧ Refines hashFcn c' d' := by
  obtain ⟨hn, hx, hk, hnew, hlen⟩ := ha
  rw [h.keyAt] at hk hnew
  obtain ⟨k, hk⟩ := Option.ne_none_iff_exists'.mp hk
  have hstep : clientStep ver hashFcn c (.add x malloc) = (do
      let hash ← c.hash.hashAdd ver malloc x (hashFcn k)
      return { c with hash := hash }) := by
    simp only [clientStep, hk]
  rw [hstep]
  rcases add_spec ver malloc h.inv hx hn (Nat.lt_of_le_of_lt hlen hmax) (hashFcn k) with
    ⟨e, hs, hstop⟩ | ⟨-, t, s', t', -, hs, -, -, hinv, hv⟩
  · exact Or.inl ⟨e, by rw [hs]; rfl, k, hk, hstop⟩
  · refine Or.inr ⟨{ c with hash := s' }, _, by rw [hs]; rfl, rfl, hinv, ?_, h.keyAt, h.answers⟩
    exact h.keyed.add hx hk hnew hv

theorem step_refines (ver : UTVersion) {max : Nat} (hmax : max < 2 ^ 32) (h : Refines hashFcn c d)
    (a : Act κ) (ha : Allowed max d a) :
    (∃ e, clientStep ver hashFcn c a = .error e ∧ Stops ver hashFcn c a e) ∨
      ∃ c' d', clientStep ver hashFcn c a = .ok c' ∧ dictStep d a = .ok d' ∧
        Refines hashFcn c' d' := by
  cases a with
  | store x o =>
    refine Or.inr ⟨_, _, rfl, rfl, h.inv, h.keyed.store ha o, ?_, h.answers⟩
    show update d.keyAt x o = update c.keyAt x o
    rw [h.keyAt]
  | find k =>
    have hfind := find_spec ver h.inv h.keyed k
    refine Or.inr ⟨{ c with answers := c.answers ++ [.found _] }, _,
      by rw [clientStep, hfind]; rfl, rfl, h.inv, h.keyed, h.keyAt, ?_⟩
    rw [h.answers, h.keyAt]
  | add x malloc => exact add_refines ver hmax h ha
  | delete x =>
    obtain ⟨s', hs, hinv, hv⟩ := delete_spec h.inv ha
    exact Or.inr ⟨{ c with hash := s' }, _, by rw [clientStep, hs]; rfl, rfl, hinv,
      h.keyed.erase hv x, h.keyAt, h.answers⟩
  | iter =>
    refine Or.inr ⟨{ c with answers := c.answers ++ [.visited _] }, _,
      by rw [clientStep, iter_spec h.inv]; rfl, rfl, h.inv, h.keyed, h.keyAt, ?_⟩
    rw [h.answers]
  | count =>
    obtain ⟨n, hn, hlen⟩ := count_spec h.inv
    refine Or.inr ⟨{ c with answers := c.answers ++ [.counted n.toNat] }, _,
      by rw [clientStep, hn]; rfl, rfl, h.inv, h.keyed, h.keyAt, ?_⟩
    rw [h.answers, hlen]

/-! ## Runs -/

/-- The hash is the list. -/
theorem run_refines (ver : UTVersion) (hashFcn : κ → UInt32) (c : Client κ) (acts : List (Act κ))
    (h : Unused c)
    (ha : Along dictStep (Allowed (2 ^ 32 - 1)) ⟨[], c.keyAt, c.answers⟩ acts) :
    (∃ e, StopsAt (clientStep ver hashFcn) (Stops ver hashFcn) c acts e) ∨
      ∃ c' d, exec (clientStep ver hashFcn) c acts = .ok c' ∧
        exec dictStep ⟨[], c.keyAt, c.answers⟩ acts = .ok d ∧ c'.answers = d.answers ∧
        c'.hash.hashIter = .ok d.items ∧ c'.hash.hashFsck = .ok () := by
  have hrun := exec_simulation (Refines hashFcn) (Stops ver hashFcn)
    (fun c d a hR hP => step_refines ver (by omega) hR a hP) (unused_refines h) ha
  refine hrun.imp_right ?_
  rintro ⟨c', d, hc, hd, hR⟩
  exact ⟨c', d, hc, hd, hR.answers.symm, iter_spec hR.inv, fsck_spec hR.inv⟩

/-- A hash function that keeps the lowest five bits clear. -/
def hash32 (k : Nat) : UInt32 := UInt32.ofNat (32 * k)

/-- Additions of `n` elements, whose keys all select the first of 32 buckets. -/
def adds (n : Nat) : List (Act Nat) :=
  (List.range n).flatMap fun k =>
    [.store (16 * (k + 1)) (some k), .add (16 * (k + 1)) fun _ => true]

/-- The tenth element makes the hash expand its buckets, and the chain of ten is split in two. -/
theorem run_refines_ten :
    ∃ c', exec (clientStep .v1_9_9 hash32) ⟨zeroed, fun _ => none, []⟩
      (adds 10 ++ [.find 7, .delete 128, .find 7, .count]) = .ok c' ∧
        c'.answers = [.found 128, .found NULL, .counted 9] ∧
        c'.hash.hashIter = .ok [16, 32, 48, 64, 80, 96, 112, 144, 160] ∧
        c'.hash.hashFsck = .ok () := by
  have hok : (exec (clientStep .v1_9_9 hash32) ⟨zeroed, fun _ => none, []⟩
      (adds 10 ++ [.find 7, .delete 128, .find 7, .count])).isOk = true := by decide +kernel
  have hrun := run_refines .v1_9_9 hash32 ⟨zeroed, fun _ => none, []⟩
    (adds 10 ++ [.find 7, .delete 128, .find 7, .count]) ⟨rfl, rfl⟩ (by decide +kernel)
  rcases hrun with ⟨e, hstop⟩ | ⟨c', d, hc, hd, hans, hiter, hf⟩
  · rw [hstop.exec_eq] at hok
    cases hok
  · cases hd
    exact ⟨c', hc, hans, hiter, hf⟩

/-- The hash `s` with the table `t` is one that `HASH_EXPAND_BUCKETS` may be called for: that of
the program between two calls, or the one in the middle of an addition, which a full bucket hands
to the macro. -/
def Expandable (hashFcn : κ → UInt32) (c : Client κ) (d : Dict κ) (s : UTHash) (t : UTHashTable) :
    Prop :=
  (s = c.hash ∧ s.tbl = some t) ∨
    ∃ a k malloc bkt, Allowed (2 ^ 32 - 1) d (.add a malloc) ∧ c.keyAt a = some k ∧
      c.hash.hashPush malloc a (hashFcn k) = .ok (s, t, bkt)

omit [DecidableEq κ] in
theorem expandable_inv (hR : Refines hashFcn c d) {s : UTHash} {t : UTHashTable}
    (h : Expandable hashFcn c d s t) :
    s.tbl = some t ∧ ∃ l, Inv s l ∧ Keyed s c.keyAt hashFcn l := by
  rcases h with ⟨rfl, ht⟩ | ⟨x, k, malloc, bkt, ⟨hn, hx, -, hnew, hlen⟩, hk, hpush⟩
  · exact ⟨ht, d.items, hR.inv, hR.keyed⟩
  · rw [hR.keyAt] at hnew
    rcases hashPush_spec .v1_9_9 malloc hR.inv hx hn (by omega) (hashFcn k) with
      ⟨herr, -⟩ | ⟨t₀, s₀, -, -, hok, ht, hinv, hv⟩
    · rw [herr] at hpush
      cases hpush
    · rw [hok] at hpush
      cases hpush
      exact ⟨ht, d.items ++ [x], hinv, hR.keyed.add hx hk hnew hv⟩

/-- An expansion, at any point of a run where the macro may be called, leaves the elements where
searches and walks find them, and computes the figures that `uthash.h` documents:
`ideal_chain_maxlen` is `ceil(n/b)` for the new number of buckets, `nonideal_items` counts the
items behind an ideal position, and a bucket with such items gets the quotient as its
multiplier. -/
theorem expansion_preserves (ver : UTVersion) (hashFcn : κ → UInt32) (c : Client κ)
    (acts : List (Act κ)) (h : Unused c)
    (ha : Along dictStep (Allowed (2 ^ 32 - 1)) ⟨[], c.keyAt, c.answers⟩ acts) {c' : Client κ}
    (hc : exec (clientStep ver hashFcn) c acts = .ok c') {d : Dict κ}
    (hd : exec dictStep ⟨[], c.keyAt, c.answers⟩ acts = .ok d) {s : UTHash} {t : UTHashTable}
    (hs : Expandable hashFcn c' d s t) (hn : t.numBuckets.toNat < 2 ^ 31) (malloc : Nat → Bool)
    (hmal : malloc (2 * t.numBuckets.toNat * sizeofUTHashBucket) = true) :
    ∃ s' t', s.hashExpandBuckets malloc t = .ok s' ∧ s'.tbl = some t' ∧
      s'.hashIter = s.hashIter ∧
      (∀ ver k, s'.hashFind ver c'.keyAt k (hashFcn k) = s.hashFind ver c'.keyAt k (hashFcn k)) ∧
      s'.hashFsck = .ok () ∧
      t'.numItems = t.numItems ∧ t'.numBuckets.toNat = 2 * t.numBuckets.toNat ∧
      t'.idealChainMaxlen.toNat = ceilDiv t.numItems.toNat t'.numBuckets.toNat ∧
      t'.nonidealItems.toNat = ∑ i ∈ Finset.range t'.numBuckets.toNat,
        ((t'.buckets i).count.toNat - t'.idealChainMaxlen.toNat) ∧
      ∀ i < t'.numBuckets.toNat, (t'.buckets i).expandMult =
        if (t'.buckets i).count > t'.idealChainMaxlen then
          (t'.buckets i).count / t'.idealChainMaxlen else 0 := by
  have hrun := exec_simulation (Refines hashFcn) (Stops ver hashFcn)
    (fun c d a hR hP => step_refines ver (by omega) hR a hP) (unused_refines h) ha
  rcases hrun with ⟨e, hstop⟩ | ⟨c₁, d₁, hc₁, hd₁, hR⟩
  · rw [hstop.exec_eq] at hc
    cases hc
  obtain rfl : c' = c₁ := Except.ok.inj (hc.symm.trans hc₁)
  obtain rfl : d = d₁ := Except.ok.inj (hd.symm.trans hd₁)
  obtain ⟨ht, l, hinv, hkeyed⟩ := expandable_inv hR hs
  obtain ⟨hne, hi⟩ := hinv.tbl_some t ht
  obtain ⟨s', t', hs', ht', hexp, hinv', hv⟩ := expand_spec hinv.toAppInv hne hi hn hmal
  have hkeyed' : Keyed s' c'.keyAt hashFcn l :=
    ⟨fun x hx => hv ▸ hkeyed.hashed x hx, hkeyed.unique⟩
  refine ⟨s', t', hs', ht', (iter_spec hinv').trans (iter_spec hinv).symm, fun ver k => ?_,
    fsck_spec hinv', ?_, hexp.numBuckets, ?_, hexp.nonideal, hexp.mult⟩
  · rw [find_spec ver hinv' hkeyed', find_spec ver hinv hkeyed]
  · exact UInt32.toNat_inj.mp ((hinv'.tbl_some t' ht').2.numItems.trans hi.numItems.symm)
  · rw [hexp.ideal, hexp.numBuckets, hi.numItems]

/-- The tenth item of one bucket: the expansion that its addition calls for leaves two chains of
five, where one item would be ideal. -/
theorem expansion_preserves_tenth :
    ∃ c' s t s' t', exec (clientStep .v1_9_9 hash32) ⟨zeroed, fun _ => none, []⟩
        (adds 9 ++ [.store 160 (some 9)]) = .ok c' ∧
      c'.hash.hashPush (fun _ => true) 160 (hash32 9) = .ok (s, t, 0) ∧
      s.hashExpandBuckets (fun _ => true) t = .ok s' ∧ s'.tbl = some t' ∧
      t'.numBuckets.toNat = 64 ∧ t'.idealChainMaxlen.toNat = 1 ∧ s'.hashFsck = .ok () := by
  obtain ⟨c', d, s, t, hc, hd, hall, hk, hpush, hn₀, hten⟩ : ∃ c' d s t,
      exec (clientStep .v1_9_9 hash32) ⟨zeroed, fun _ => none, []⟩
        (adds 9 ++ [.store 160 (some 9)]) = .ok c' ∧
      exec dictStep ⟨[], fun _ => none, []⟩ (adds 9 ++ [.store 160 (some 9)]) = .ok d ∧
      Allowed (2 ^ 32 - 1) d (.add 160 fun _ => true) ∧ c'.keyAt 160 = some 9 ∧
      c'.hash.hashPush (fun _ => true) 160 (hash32 9) = .ok (s, t, 0) ∧ t.numBuckets = 32 ∧
      t.numItems = 10 :=
    ⟨_, _, _, _, rfl, rfl, by decide +kernel, rfl, rfl, rfl, rfl⟩
  obtain ⟨s', t', hs', ht', -, -, hf, -, hn, hideal, -⟩ := expansion_preserves .v1_9_9 hash32
    ⟨zeroed, fun _ => none, []⟩ (adds 9 ++ [.store 160 (some 9)]) ⟨rfl, rfl⟩ (by decide +kernel)
    hc hd (Or.inr ⟨160, 9, fun _ => true, 0, hall, hk, hpush⟩) (by rw [hn₀]; decide)
    (fun _ => true) rfl
  rw [hn₀] at hn
  rw [hten, hn] at hideal
  exact ⟨c', s, t, s', t', hc, hpush, hs', ht', hn, hideal, hf⟩

end ShellJs.UTHash
