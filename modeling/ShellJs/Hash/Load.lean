import ShellJs.Hash.Clients

/-!
# The load of the buckets

`uthash.h`: "by expanding buckets the hash keeps a bound on the chain length". A bucket may hold
`10 * (expand_mult + 1)` items before it asks for an expansion, and an expansion sets the
multipliers from the chains that it finds. `Loaded` is what follows as long as expansions are not
inhibited: the multipliers of all buckets together do not exceed the number of buckets, so there
are at most twenty items for each bucket, and the ideal chain is never longer than ten.

* `Loaded.items_le`: the bound on the items, with room for one more.
* `Expanded.loaded`: an expansion establishes `Loaded` again.
* `load_bounded`: the bounds along every run of a program.
-/

namespace ShellJs.UTHash

open Runs Function

def mults (b : Nat → UTHashBucket) (i : Nat) : Nat := (b i).expandMult.toNat

/-- The bounds on chains while expansions are allowed. A bucket with a multiplier is not full. -/
structure Loaded (t : UTHashTable) : Prop where
  room : ∀ i < t.numBuckets.toNat, counts t.buckets i ≤ 10 * (mults t.buckets i + 1)
  strict : ∀ i < t.numBuckets.toNat, mults t.buckets i ≠ 0 →
    counts t.buckets i < 10 * (mults t.buckets i + 1)
  sum : ∑ i ∈ Finset.range t.numBuckets.toNat, mults t.buckets i ≤ t.numBuckets.toNat
  small : ∀ i < t.numBuckets.toNat, mults t.buckets i < 2 ^ 28
  ideal : t.idealChainMaxlen.toNat ≤ 10

variable {s s' : UTHash} {t t' : UTHashTable} {l : List Addr} {x : Addr}

theorem loaded_initial (x : Addr) : Loaded (initialTable x) :=
  ⟨fun _ _ => Nat.zero_le _, fun _ _ h => absurd rfl h,
    Nat.le_trans (Nat.le_of_eq (Finset.sum_eq_zero fun _ _ => rfl)) (Nat.zero_le _),
    fun _ _ => Nat.two_pow_pos 28, Nat.zero_le _⟩

theorem Loaded.sum_counts (h : Loaded t) (hpos : 0 < t.numBuckets.toNat) :
    ∑ i ∈ Finset.range t.numBuckets.toNat, counts t.buckets i + 1 ≤ 20 * t.numBuckets.toNat := by
  have hsum : ∑ i ∈ Finset.range t.numBuckets.toNat, 10 * (mults t.buckets i + 1) =
      10 * ∑ i ∈ Finset.range t.numBuckets.toNat, mults t.buckets i + 10 * t.numBuckets.toNat := by
    rw [← Finset.mul_sum, Finset.sum_add_distrib, Finset.sum_const, Finset.card_range, Nat.mul_add]
    simp
  have hle : ∑ i ∈ Finset.range t.numBuckets.toNat, counts t.buckets i ≤
      ∑ i ∈ Finset.range t.numBuckets.toNat, 10 * (mults t.buckets i + 1) :=
    Finset.sum_le_sum fun i hi => h.room i (Finset.mem_range.mp hi)
  have hm := h.sum
  by_cases hall : ∀ i < t.numBuckets.toNat, mults t.buckets i = 0
  · -- no bucket has a multiplier
    have h0 : ∑ i ∈ Finset.range t.numBuckets.toNat, mults t.buckets i = 0 :=
      Finset.sum_eq_zero fun i hi => hall i (Finset.mem_range.mp hi)
    omega
  · -- a bucket with a multiplier has a place left
    push Not at hall
    obtain ⟨j, hj, hne⟩ := hall
    have hlt : ∑ i ∈ Finset.range t.numBuckets.toNat, counts t.buckets i <
        ∑ i ∈ Finset.range t.numBuckets.toNat, 10 * (mults t.buckets i + 1) :=
      Finset.sum_lt_sum (fun i hi => h.room i (Finset.mem_range.mp hi))
        ⟨j, Finset.mem_range.mpr hj, h.strict j hj hne⟩
    omega

theorem Loaded.items_le (h : Loaded t) (hi : BktInv s t l) (hl : l.Nodup) :
    l.length + 1 ≤ 20 * t.numBuckets.toNat := by
  have hsum := h.sum_counts hi.pos
  rw [hi.chained.sum_count hl fun x _ => hi.bktOf_lt x] at hsum
  exact hsum

/-! ## What the macros do to the bounds -/

/-- The multiplier of a new bucket leaves room in it. -/
theorem room_of_mult {c d m : Nat} (hd : 0 < d) (hd10 : d ≤ 10)
    (hm : m = if c > d then c / d else 0) :
    c ≤ 10 * (m + 1) ∧ (m ≠ 0 → c < 10 * (m + 1)) := by
  split at hm
  · have hlt : c < d * (m + 1) := hm ▸ Nat.lt_mul_div_succ c hd
    have hle : d * (m + 1) ≤ 10 * (m + 1) := Nat.mul_le_mul_right _ hd10
    omega
  · omega

theorem Expanded.mults_eq {n : Nat} (h : Expanded t t' n) {i : Nat} (hi : i < t'.numBuckets.toNat) :
    mults t'.buckets i = if counts t'.buckets i > t'.idealChainMaxlen.toNat then
      counts t'.buckets i / t'.idealChainMaxlen.toNat else 0 := by
  have hiff : (t'.buckets i).count > t'.idealChainMaxlen ↔
      counts t'.buckets i > t'.idealChainMaxlen.toNat := UInt32.lt_iff_toNat_lt
  unfold mults
  rw [h.mult i hi]
  unfold newMult
  split
  · next hgt =>
    rw [if_pos (hiff.mp hgt), UInt32.toNat_div]
    rfl
  · next hgt =>
    rw [if_neg fun hgt' => hgt (hiff.mpr hgt')]
    rfl

theorem Expanded.mults_le {n : Nat} (h : Expanded t t' n) {i : Nat} (hi : i < t'.numBuckets.toNat) :
    mults t'.buckets i ≤ counts t'.buckets i / t'.idealChainMaxlen.toNat := by
  rw [h.mults_eq hi]
  split
  · exact Nat.le_refl _
  · exact Nat.zero_le _

/-- An expansion of a table that was within the bounds before its last item. -/
theorem Expanded.loaded (h : Expanded t t' l.length) (hi : BktInv s' t' l) (hl : l.Nodup)
    (hne : l ≠ []) (hpos : 0 < t.numBuckets.toNat) (hle : l.length ≤ 20 * t.numBuckets.toNat)
    (hsmall : l.length < 2 ^ 28) : Loaded t' := by
  have hideal : t'.idealChainMaxlen.toNat ≤ 10 := by
    rw [h.ideal]
    exact Nat.le_of_lt_succ ((Nat.div_lt_iff_lt_mul (by omega)).mpr (by omega))
  have hideal_pos : 0 < t'.idealChainMaxlen.toNat := by
    rw [h.ideal]
    exact ceilDiv_pos (by omega) (List.length_pos_of_ne_nil hne)
  refine ⟨fun i hlt => (room_of_mult hideal_pos hideal (h.mults_eq hlt)).1,
    fun i hlt => (room_of_mult hideal_pos hideal (h.mults_eq hlt)).2, ?_, fun i hlt => ?_, hideal⟩
  · have hsum := hi.chained.sum_count hl fun x _ => hi.bktOf_lt x
    have hall : (∑ i ∈ Finset.range t'.numBuckets.toNat, mults t'.buckets i) *
        t'.idealChainMaxlen.toNat ≤ l.length := by
      rw [← hsum, Finset.sum_mul]
      refine Finset.sum_le_sum fun i hlt => ?_
      exact Nat.le_trans (Nat.mul_le_mul_right _ (h.mults_le (Finset.mem_range.mp hlt)))
        (Nat.div_mul_le_self _ _)
    have hceil := le_ceilDiv_mul l.length (Nat.mul_pos Nat.two_pos hpos)
    rw [← h.ideal, ← h.numBuckets, Nat.mul_comm] at hceil
    exact Nat.le_of_mul_le_mul_right (Nat.le_trans hall hceil) hideal_pos
  · have hcount : counts t'.buckets i ≤ l.length := by
      rw [hi.chained.count_eq hl hlt]
      exact List.length_filter_le _ _
    exact Nat.lt_of_le_of_lt (Nat.le_trans (h.mults_le hlt) (Nat.div_le_self _ _))
      (Nat.lt_of_le_of_lt hcount hsmall)

theorem mults_update (b : Nat → UTHashBucket) (i : Nat) (v : UTHashBucket) :
    mults (update b i v) = update (mults b) i v.expandMult.toNat :=
  Function.comp_update (fun b => UTHashBucket.expandMult b |>.toNat) b i v

/-- While expansions are allowed, a bucket asks for one when it is full. -/
theorem expands_iff (ver : UTVersion) {b : UTHashBucket} (hm : b.expandMult.toNat < 2 ^ 28) :
    expands ver b 0 = true ↔ 10 * (b.expandMult.toNat + 1) ≤ b.count.toNat := by
  have hthresh : ((b.expandMult + 1) * HASH_BKT_CAPACITY_THRESH).toNat =
      10 * (b.expandMult.toNat + 1) := by
    rw [UInt32.toNat_mul, toNat_succ (by omega), Nat.mul_comm]
    exact Nat.mod_eq_of_lt (by show 10 * _ < _; omega)
  have hcond : expands ver b 0 =
      decide (b.count ≥ (b.expandMult + 1) * HASH_BKT_CAPACITY_THRESH) := by
    cases ver with
    | v1_9_9 => exact Bool.and_true _
    | v2_0_2 => exact Bool.and_true _
  rw [hcond, decide_eq_true_iff, ge_iff_le, UInt32.le_iff_toNat_le, hthresh]

/-- An item that does not ask for an expansion fills no bucket. -/
theorem Loaded.addTable (h : Loaded t) {ver : UTVersion} {bkt : Nat}
    (hlt : bkt < t.numBuckets.toNat) (hcount : counts t.buckets bkt + 1 < 2 ^ 32)
    (hex : expands ver ((addTable t bkt x).buckets bkt) 0 = false) :
    Loaded (addTable t bkt x) := by
  have hc : ((t.buckets bkt).count + 1).toNat = counts t.buckets bkt + 1 := toNat_succ hcount
  have hself : (UTHash.addTable t bkt x).buckets bkt =
      ⟨x, (t.buckets bkt).count + 1, (t.buckets bkt).expandMult⟩ := update_self ..
  have hroom : counts t.buckets bkt + 1 < 10 * (mults t.buckets bkt + 1) := by
    have hsmall : ((UTHash.addTable t bkt x).buckets bkt).expandMult.toNat < 2 ^ 28 := by
      rw [hself]
      exact h.small bkt hlt
    rw [← Bool.not_eq_true, expands_iff ver hsmall, hself] at hex
    rw [← hc]
    exact Nat.lt_of_not_le hex
  have hmults : mults (UTHash.addTable t bkt x).buckets = mults t.buckets :=
    (mults_update _ _ _).trans (update_eq_self bkt (mults t.buckets))
  have hcounts : counts (UTHash.addTable t bkt x).buckets =
      update (counts t.buckets) bkt (counts t.buckets bkt + 1) := by
    rw [← hc]
    exact counts_update _ _ _
  -- the bucket has room for the item, the others are as they were
  have hcases : ∀ i, counts (UTHash.addTable t bkt x).buckets i = counts t.buckets i ∨
      i = bkt ∧ counts (UTHash.addTable t bkt x).buckets i = counts t.buckets bkt + 1 := by
    intro i
    rw [hcounts]
    cases hi : decide (i = bkt) with
    | true =>
      rw [of_decide_eq_true hi, update_self]
      exact Or.inr ⟨rfl, rfl⟩
    | false => exact Or.inl (update_of_ne (of_decide_eq_false hi) ..)
  refine ⟨fun i hi => ?_, fun i hi hne => ?_, ?_, fun i hi => ?_, h.ideal⟩
  · rw [hmults]
    rcases hcases i with hold | ⟨rfl, hnew⟩
    · exact hold ▸ h.room i hi
    · exact hnew ▸ Nat.le_of_lt hroom
  · rw [hmults] at hne ⊢
    rcases hcases i with hold | ⟨rfl, hnew⟩
    · exact hold ▸ h.strict i hi hne
    · exact hnew ▸ hroom
  · rw [hmults]
    exact h.sum
  · rw [hmults]
    exact h.small i hi

/-- A table with the same multipliers and no more items. -/
theorem Loaded.of_le (h : Loaded t) (hn : t'.numBuckets = t.numBuckets)
    (hi : t'.idealChainMaxlen = t.idealChainMaxlen) (hm : mults t'.buckets = mults t.buckets)
    (hc : ∀ i < t.numBuckets.toNat, counts t'.buckets i ≤ counts t.buckets i) : Loaded t' := by
  refine ⟨fun i hlt => ?_, fun i hlt hne => ?_, ?_, fun i hlt => ?_, hi ▸ h.ideal⟩
  · rw [hn] at hlt
    rw [hm]
    exact Nat.le_trans (hc i hlt) (h.room i hlt)
  · rw [hn] at hlt
    rw [hm] at hne ⊢
    exact Nat.lt_of_le_of_lt (hc i hlt) (h.strict i hlt hne)
  · rw [hn, hm]
    exact h.sum
  · rw [hn] at hlt
    rw [hm]
    exact h.small i hlt

/-! ## Calls and runs -/

/-- While the hash may expand its buckets, they are within the bounds. -/
def Bounded (s : UTHash) : Prop := ∀ t, s.tbl = some t → t.noexpand = 0 → Loaded t

theorem delete_bounded (h : Inv s l) (hb : Bounded s) (hx : x ∈ l)
    (hs : s.hashDelete x = .ok s') : Bounded s' := by
  rcases h.cases with ⟨rfl, -, -⟩ | ⟨-, -, t, ht, hi⟩
  · exact absurd hx List.not_mem_nil
  unfold hashDelete at hs
  rw [ht] at hs
  replace hs : (if s.prev x = NULL ∧ s.next x = NULL then _ else _) = Except.ok s' := hs
  cases hone : decide (s.prev x = NULL ∧ s.next x = NULL) with
  | true =>
    rw [if_pos (of_decide_eq_true hone)] at hs
    obtain rfl := Except.ok.inj hs
    exact nofun
  | false =>
    rw [if_neg (of_decide_eq_false hone)] at hs
    obtain rfl := Except.ok.inj hs
    intro t' ht' hno
    obtain rfl := Option.some.inj ht'
    refine (hb t ht hno).of_le rfl rfl ?_ fun i hlt => ?_
    · exact (mults_update _ _ _).trans (update_eq_self _ (mults t.buckets))
    · -- only the bucket of the element has fewer items
      show counts (update t.buckets _ _) i ≤ _
      rw [counts_update]
      cases hi' : decide (i = s.bktOf t.numBuckets x) with
      | true =>
        rw [of_decide_eq_true hi', update_self]
        exact Nat.le_trans (Nat.le_of_eq (UInt32.toNat_sub_of_le _ _ (hi.count_pos hx)))
          (Nat.sub_le _ _)
      | false => rw [update_of_ne (of_decide_eq_false hi')]

theorem add_bounded (ver : UTVersion) {malloc : Nat → Bool} {v : UInt32} (h : Inv s l)
    (hb : Bounded s) (hx : x ∉ l) (hn : x ≠ NULL) (hlen : l.length + 1 < 2 ^ 28)
    (hs : s.hashAdd ver malloc x v = .ok s') : Bounded s' := by
  rcases add_spec ver malloc h hx hn (by omega) v with
    ⟨e, hs', -⟩ | ⟨-, t, s₁, t', hbase, hs', ht', hadd, hinv, -⟩
  · rw [hs'] at hs
    cases hs
  obtain rfl : s₁ = s' := Except.ok.inj (hs'.symm.trans hs)
  intro t'' ht'' hno
  obtain rfl : t' = t'' := Option.some.inj (ht'.symm.trans ht'')
  obtain ⟨hne, hi'⟩ := hinv.tbl_some t' ht'
  -- the table before, which may be the new one of the first item
  have hi : BktInv s t l := by
    rcases hbase with ht | ⟨ht, rfl, -⟩
    · exact (h.tbl_some t ht).2.toBktInv
    · rw [h.tbl_none ht]
      exact initialTable_inv s x
  have hload : t.noexpand = 0 → Loaded t := by
    rcases hbase with ht | ⟨-, rfl, -⟩
    · exact hb t ht
    · exact fun _ => loaded_initial x
  have hlt : (hashToBkt v t.numBuckets).toNat < t.numBuckets.toNat := hashToBkt_lt v hi.pos
  rcases hadd with ⟨-, hexp⟩ | ⟨hf, rfl⟩
  · have hno' : t.noexpand = 0 := by
      rw [hexp.noexpand] at hno
      split at hno
      · cases hno
      · exact hno
    have hlen' : (l ++ [x]).length = l.length + 1 := List.length_append
    have hle := (hload hno').items_le hi h.nodup
    rw [← hlen'] at hexp hle
    exact hexp.loaded hi'.toBktInv hinv.nodup hne hi.pos hle (hlen' ▸ hlen)
  · have hno' : t.noexpand = 0 := hno
    have hex := (not_congr (fills_iff ver t v x)).mpr hf
    rw [Bool.not_eq_true, hno'] at hex
    have hcount := hi.count_le h.nodup hlt
    rw [hi.numItems] at hcount
    exact (hload hno').addTable hlt (by omega) hex

section
variable {κ : Type} [DecidableEq κ]

theorem step_bounded (ver : UTVersion) {hashFcn : κ → UInt32} {c : Client κ} {d : Dict κ}
    (h : Refines hashFcn c d ∧ Bounded c.hash) (a : Act κ) (ha : Allowed (2 ^ 28 - 1) d a) :
    (∃ e, clientStep ver hashFcn c a = .error e ∧ Stops ver hashFcn c a e) ∨
      ∃ c' d', clientStep ver hashFcn c a = .ok c' ∧ dictStep d a = .ok d' ∧
        Refines hashFcn c' d' ∧ Bounded c'.hash := by
  obtain ⟨hR, hb⟩ := h
  refine (step_refines ver (by omega) hR a ha).imp_right ?_
  rintro ⟨c', d', hc, hd, hR'⟩
  refine ⟨c', d', hc, hd, hR', ?_⟩
  cases a with
  | add x malloc =>
    obtain ⟨hn, hx, hk, -, hlen⟩ := ha
    rw [hR.keyAt] at hk
    obtain ⟨k, hk⟩ := Option.ne_none_iff_exists'.mp hk
    simp only [clientStep, hk] at hc
    cases hs : c.hash.hashAdd ver malloc x (hashFcn k) with
    | error e =>
      rw [hs] at hc
      cases hc
    | ok s' =>
      rw [hs] at hc
      obtain rfl := Except.ok.inj hc
      exact add_bounded ver hR.inv hb hx hn (by omega) hs
  | delete x =>
    cases hs : c.hash.hashDelete x with
    | error e =>
      rw [clientStep, hs] at hc
      cases hc
    | ok s' =>
      rw [clientStep, hs] at hc
      obtain rfl := Except.ok.inj hc
      exact delete_bounded hR.inv hb ha hs
  | store x o =>
    obtain rfl := Except.ok.inj hc
    exact hb
  | find k =>
    rw [clientStep, find_spec ver hR.inv hR.keyed] at hc
    obtain rfl := Except.ok.inj hc
    exact hb
  | iter =>
    rw [clientStep, iter_spec hR.inv] at hc
    obtain rfl := Except.ok.inj hc
    exact hb
  | count =>
    obtain ⟨n, hn, -⟩ := count_spec hR.inv
    rw [clientStep, hn] at hc
    obtain rfl := Except.ok.inj hc
    exact hb

/-- The bound on the chain length. -/
theorem load_bounded (ver : UTVersion) (hashFcn : κ → UInt32) (c : Client κ) (acts : List (Act κ))
    (h : Unused c) (ha : Along dictStep (Allowed (2 ^ 28 - 1)) ⟨[], c.keyAt, c.answers⟩ acts)
    {c' : Client κ} (hc : exec (clientStep ver hashFcn) c acts = .ok c') {t : UTHashTable}
    (ht : c'.hash.tbl = some t) (hno : t.noexpand = 0) :
    t.numItems.toNat ≤ 20 * t.numBuckets.toNat ∧ t.idealChainMaxlen.toNat ≤ 10 ∧
      ∀ i < t.numBuckets.toNat,
        (t.buckets i).count.toNat ≤ 10 * ((t.buckets i).expandMult.toNat + 1) := by
  have hb₀ : Bounded c.hash := fun t ht => by rw [h.2] at ht; cases ht
  have hrun := exec_simulation (fun c d => Refines hashFcn c d ∧ Bounded c.hash)
    (Stops ver hashFcn) (fun c d a hR hP => step_bounded ver hR a hP) ⟨unused_refines h, hb₀⟩ ha
  rcases hrun with ⟨e, hstop⟩ | ⟨c₁, d, hc₁, -, hR, hb⟩
  · rw [hstop.exec_eq] at hc
    cases hc
  obtain rfl : c' = c₁ := Except.ok.inj (hc.symm.trans hc₁)
  have hload := hb t ht hno
  obtain ⟨-, hi⟩ := hR.inv.tbl_some t ht
  have hle := hload.items_le hi.toBktInv hR.inv.nodup
  rw [hi.numItems]
  exact ⟨Nat.le_of_succ_le hle, hload.ideal, hload.room⟩

end

/-- Ten items of one bucket and an eleventh one. -/
theorem load_bounded_eleven :
    ∃ c' t, exec (clientStep .v2_0_2 hash32) ⟨zeroed, fun _ => none, []⟩ (adds 11) = .ok c' ∧
      c'.hash.tbl = some t ∧ t.numBuckets = 64 ∧ t.numItems = 11 ∧
      t.numItems.toNat ≤ 20 * t.numBuckets.toNat ∧
      ∀ i < t.numBuckets.toNat,
        (t.buckets i).count.toNat ≤ 10 * ((t.buckets i).expandMult.toNat + 1) := by
  have hrun : ((exec (clientStep .v2_0_2 hash32) ⟨zeroed, fun _ => none, []⟩
      (adds 11)).toOption.bind fun c => c.hash.tbl).map
        (fun t => (t.numBuckets, t.numItems, t.noexpand)) = some (64, 11, 0) := by
    decide +kernel
  cases hc : exec (clientStep .v2_0_2 hash32) ⟨zeroed, fun _ => none, []⟩ (adds 11) with
  | error e =>
    rw [hc] at hrun
    cases hrun
  | ok c' =>
    rw [hc] at hrun
    obtain ⟨t, ht, htab⟩ := Option.map_eq_some_iff.mp hrun
    replace ht : c'.hash.tbl = some t := ht
    obtain ⟨hn, hitems, hno⟩ : t.numBuckets = 64 ∧ t.numItems = 11 ∧ t.noexpand = 0 := by
      simpa only [Prod.mk.injEq] using htab
    have hload := load_bounded .v2_0_2 hash32 ⟨zeroed, fun _ => none, []⟩ (adds 11) ⟨rfl, rfl⟩
      (by decide +kernel) hc ht hno
    exact ⟨c', t, rfl, ht, hn, hitems, hload.1, hload.2.2⟩

end ShellJs.UTHash
