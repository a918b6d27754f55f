import Mathlib.Algebra.Order.BigOperators.Group.Finset
import ShellJs.Hash.Spec

/-!
# `HASH_EXPAND_BUCKETS`

The elements go from the old buckets to twice as many new ones. `Moved s n ideal p e` describes
the loops when the elements of `p` have been moved: they are chained in the new buckets, the
multipliers and the number of items behind an ideal position fit the counters so far, and the
links of the other elements are the old ones.

* `Moved.move`, `moveChain_spec`, `moveAll_spec`: the body of the inner loop, the inner loop and
  both loops.
* `newIdeal_spec`: the shift and the mask compute `ceil(n/b)`.
* `Expanded`, `expand_spec`: what the macro makes of the table.
-/

namespace ShellJs.UTHash

open Dll Function

variable {s : UTHash} {t : UTHashTable} {l p c : List Addr} {x : Addr} {e : Expansion}
  {n nb ideal : UInt32}

/-- `expand_mult` of a bucket with `count` items: `0` unless some are behind an ideal position. -/
def newMult (count ideal : UInt32) : UInt32 := if count > ideal then count / ideal else 0

/-- The items of a bucket behind an ideal position. -/
def nonidealAt (b : Nat → UTHashBucket) (ideal : UInt32) (i : Nat) : Nat :=
  counts b i - ideal.toNat

/-- The array with an item more in front of the bucket `k`. -/
def pushed (b : Nat → UTHashBucket) (k : Nat) (x : Addr) (mult : UInt32) : Nat → UTHashBucket :=
  update b k ⟨x, (b k).count + 1, mult⟩

structure Moved (s : UTHash) (n ideal : UInt32) (p : List Addr) (e : Expansion) : Prop where
  chained : Chained e.hhNext e.hhPrev NULL (heads e.newBuckets) (counts e.newBuckets)
    (s.bktOf n) n.toNat p
  mult : ∀ i < n.toNat, (e.newBuckets i).expandMult = newMult (e.newBuckets i).count ideal
  nonideal : e.nonidealItems.toNat = ∑ i ∈ Finset.range n.toNat, nonidealAt e.newBuckets ideal i
  rest : ∀ y ∉ p, e.hhNext y = s.hhNext y

/-- Only the members of the list count, not their order. -/
theorem Moved.congr_mem {q : List Addr} (h : Moved s n ideal p e) (hpq : ∀ x, x ∈ q ↔ x ∈ p) :
    Moved s n ideal q e :=
  ⟨h.chained.congr_mem hpq, h.mult, h.nonideal, fun y hy => h.rest y fun hm => hy ((hpq y).mpr hm)⟩

/-- Sums that differ in one summand. -/
theorem sum_except {f g : Nat → Nat} {n k : Nat} (hk : k < n) (hfg : ∀ i, i ≠ k → g i = f i) :
    ∑ i ∈ Finset.range n, g i + f k = ∑ i ∈ Finset.range n, f i + g k := by
  have hm := Finset.mem_range.mpr hk
  have hrest : ∑ i ∈ (Finset.range n).erase k, g i = ∑ i ∈ (Finset.range n).erase k, f i :=
    Finset.sum_congr rfl fun i hi => hfg i (Finset.ne_of_mem_erase hi)
  rw [← Finset.add_sum_erase _ g hm, ← Finset.add_sum_erase _ f hm, hrest]
  omega

theorem toNat_succ {a : UInt32} (h : a.toNat + 1 < 2 ^ 32) : (a + 1).toNat = a.toNat + 1 := by
  rw [UInt32.toNat_add]
  exact Nat.mod_eq_of_lt h

theorem Moved.count_le (h : Moved s n ideal p e) (hnd : p.Nodup) {i : Nat} (hi : i < n.toNat) :
    counts e.newBuckets i ≤ p.length := by
  rw [h.chained.count_eq hnd hi]
  exact List.length_filter_le _ _

/-- There are no more items behind an ideal position than items. -/
theorem Moved.nonideal_le (h : Moved s n ideal p e) (hn : 0 < n.toNat) (hnd : p.Nodup) :
    e.nonidealItems.toNat ≤ p.length := by
  rw [h.nonideal, ← h.chained.sum_count hnd fun x _ => hashToBkt_lt _ hn]
  exact Finset.sum_le_sum fun i _ => Nat.sub_le _ _

theorem Moved.count_succ (h : Moved s n ideal p e) (hnd : p.Nodup) (hlen : p.length + 1 < 2 ^ 32)
    {k : Nat} (hk : k < n.toNat) :
    ((e.newBuckets k).count + 1).toNat = counts e.newBuckets k + 1 :=
  toNat_succ (Nat.lt_of_le_of_lt (Nat.succ_le_succ (h.count_le hnd hk)) hlen)

theorem counts_pushed {b : Nat → UTHashBucket} {k : Nat} {mult : UInt32}
    (hc : ((b k).count + 1).toNat = counts b k + 1) :
    counts (pushed b k x mult) = update (counts b) k (counts b k + 1) := by
  unfold pushed
  rw [counts_update, hc]

/-- The new item is behind an ideal position if the bucket is longer than that now. -/
theorem sum_pushed {b : Nat → UTHashBucket} {k m : Nat} {mult : UInt32} (hk : k < m)
    (hc : ((b k).count + 1).toNat = counts b k + 1) :
    ∑ i ∈ Finset.range m, nonidealAt (pushed b k x mult) ideal i =
      ∑ i ∈ Finset.range m, nonidealAt b ideal i +
        if (b k).count + 1 > ideal then 1 else 0 := by
  have hstep := sum_except (f := nonidealAt b ideal) (g := nonidealAt (pushed b k x mult) ideal) hk
    fun i hi => by
      unfold nonidealAt
      rw [counts_pushed hc, update_of_ne hi]
  have hself : nonidealAt (pushed b k x mult) ideal k = counts b k + 1 - ideal.toNat := by
    unfold nonidealAt
    rw [counts_pushed hc, update_self]
  have hold : nonidealAt b ideal k = counts b k - ideal.toNat := rfl
  rw [hself, hold] at hstep
  cases hgt : decide ((b k).count + 1 > ideal) with
  | true =>
    rw [decide_eq_true_iff] at hgt
    have hgt' : ideal.toNat < counts b k + 1 := hc ▸ UInt32.lt_iff_toNat_lt.mp hgt
    rw [if_pos hgt]
    omega
  | false =>
    rw [decide_eq_false_iff_not] at hgt
    have hgt' : counts b k + 1 ≤ ideal.toNat :=
      Nat.le_of_not_lt fun hlt => hgt (UInt32.lt_iff_toNat_lt.mpr (hc.symm ▸ hlt))
    rw [if_neg hgt]
    omega

/-- One more element is in front of its bucket. -/
theorem Moved.push (h : Moved s n ideal p e) (hn : 0 < n.toNat) (hnd : p.Nodup)
    (hnull : NULL ∉ x :: p) (hx : x ∉ p) (hlen : p.length + 1 < 2 ^ 32) {mult non : UInt32}
    (hmult : mult = newMult ((e.newBuckets (s.bktOf n x)).count + 1) ideal)
    (hnon : non = if (e.newBuckets (s.bktOf n x)).count + 1 > ideal then e.nonidealItems + 1
      else e.nonidealItems) :
    Moved s n ideal (x :: p)
      ⟨setAt NULL (update e.hhPrev x NULL) (e.newBuckets (s.bktOf n x)).hhHead x,
        update e.hhNext x (e.newBuckets (s.bktOf n x)).hhHead,
        pushed e.newBuckets (s.bktOf n x) x mult, non⟩ := by
  have hlt : s.bktOf n x < n.toNat := hashToBkt_lt _ hn
  have hcount := h.count_succ hnd hlen hlt
  refine ⟨?_, fun i hi => ?_, ?_, fun y hy => ?_⟩
  · show Chained _ _ _ (heads (update e.newBuckets _ _)) (counts (pushed e.newBuckets _ _ _)) _ _ _
    rw [heads_update, counts_pushed hcount]
    exact h.chained.push hnull hx hlt
  · show (update e.newBuckets _ _ i).expandMult = newMult (update e.newBuckets _ _ i).count ideal
    cases hix : decide (i = s.bktOf n x) with
    | true =>
      rw [of_decide_eq_true hix, update_self]
      exact hmult
    | false =>
      rw [update_of_ne (of_decide_eq_false hix)]
      exact h.mult i hi
  · have hle := h.nonideal_le hn hnd
    show non.toNat = ∑ i ∈ Finset.range n.toNat, nonidealAt (pushed _ _ _ _) ideal i
    rw [sum_pushed hlt hcount, ← h.nonideal, hnon]
    split
    · exact toNat_succ (Nat.lt_of_le_of_lt (Nat.succ_le_succ hle) hlen)
    · rfl
  · have hyx : y ≠ x := fun hyx => hy (hyx.symm ▸ List.mem_cons_self)
    show update e.hhNext x _ y = _
    rw [update_of_ne hyx]
    exact h.rest y fun hm => hy (List.mem_cons_of_mem x hm)

theorem Moved.move (h : Moved s (nb * 2) ideal p e) (hn : 0 < (nb * 2).toNat) (hid : ideal ≠ 0)
    (hnd : p.Nodup) (hnull : NULL ∉ x :: p) (hx : x ∉ p) (hlen : p.length + 1 < 2 ^ 32) :
    ∃ e', e.move s.hashv nb ideal x = .ok e' ∧ Moved s (nb * 2) ideal (x :: p) e' := by
  unfold Expansion.move
  cases hgt : decide ((e.newBuckets (s.bktOf (nb * 2) x)).count + 1 > ideal) with
  | true =>
    rw [decide_eq_true_iff] at hgt
    refine ⟨_, (if_pos hgt).trans (if_neg hid), h.push hn hnd hnull hx hlen ?_ ?_⟩
    · exact (if_pos hgt).symm
    · exact (if_pos hgt).symm
  | false =>
    rw [decide_eq_false_iff_not] at hgt
    refine ⟨_, if_neg hgt, h.push hn hnd hnull hx hlen ?_ ?_⟩
    · -- a bucket without items behind an ideal position had none before
      have hlt : s.bktOf (nb * 2) x < (nb * 2).toNat := hashToBkt_lt _ hn
      refine (h.mult _ hlt).trans ((if_neg fun hgt' => hgt ?_).trans (if_neg hgt).symm)
      refine UInt32.lt_iff_toNat_lt.mpr ?_
      rw [h.count_succ hnd hlen hlt]
      exact Nat.lt_succ_of_lt (UInt32.lt_iff_toNat_lt.mp hgt')
    · exact (if_neg hgt).symm

theorem moveChain_spec {b : Addr} {k : Nat} {m : List Addr} (hn : 0 < (nb * 2).toNat)
    (hid : ideal ≠ 0) (h : Moved s (nb * 2) ideal p e) (hs : Seg s.hhNext s.hhPrev b c NULL)
    (hnd : (c ++ p).Nodup) (hnull : NULL ∉ c ++ p) (hlen : (c ++ p).length < 2 ^ 32)
    (hk : c.length ≤ k) (hm : ∀ x, x ∈ m ↔ x ∈ c ∨ x ∈ p) :
    ∃ e', Expansion.moveChain s.hashv nb ideal k (c.headD NULL) e = .ok e' ∧
      Moved s (nb * 2) ideal m e' := by
  induction c generalizing b k p e with
  | nil =>
    refine ⟨e, ?_, h.congr_mem fun x => ?_⟩
    · cases k with
      | zero => exact if_pos rfl
      | succ k => exact if_pos rfl
    · rw [hm]
      exact or_iff_right List.not_mem_nil
  | cons x c ih =>
    obtain ⟨k, rfl⟩ : ∃ j, k = j + 1 := Nat.exists_eq_succ_of_ne_zero (Nat.ne_of_gt
      (Nat.lt_of_lt_of_le (Nat.succ_pos _) hk))
    obtain ⟨-, hnx, hc⟩ := hs
    obtain ⟨hxcp, hcp⟩ := List.nodup_cons.mp hnd
    have hxp : x ∉ p := fun hxp => hxcp (List.mem_append_right c hxp)
    have hxn : x ≠ NULL := fun hxn => hnull (hxn ▸ List.mem_cons_self)
    have hlen' : c.length + p.length + 1 < 2 ^ 32 := by
      rw [List.cons_append, List.length_cons, List.length_append] at hlen
      exact hlen
    have hnxp : NULL ∉ x :: p := fun hm => hnull (List.mem_cons.mpr
      ((List.mem_cons.mp hm).imp id (List.mem_append_right c)))
    obtain ⟨e₁, he₁, hm₁⟩ := h.move hn hid (List.nodup_append.mp hcp).2.1 hnxp hxp (by omega)
    -- the rest of the chain, from the successor that was read before
    have hperm : (c ++ x :: p).Perm (x :: (c ++ p)) := List.perm_middle
    have hmem : ∀ y, y ∈ m ↔ y ∈ c ∨ y ∈ x :: p := by
      intro y
      rw [hm, List.mem_cons, List.mem_cons]
      tauto
    obtain ⟨e₂, he₂, hm₂⟩ := ih hm₁ hc (hperm.nodup_iff.mpr hnd)
      (fun hm => hnull (hperm.mem_iff.mp hm)) (hperm.length_eq ▸ hlen)
      (Nat.le_of_succ_le_succ hk) hmem
    refine ⟨e₂, ?_, hm₂⟩
    rw [List.headD_cons]
    unfold Expansion.moveChain
    rw [if_neg hxn, he₁]
    show Expansion.moveChain s.hashv nb ideal k (e.hhNext x) e₁ = _
    rw [h.rest x hxp, hnx]
    exact he₂

/-- The zeroed buckets hold nothing. -/
theorem moved_nil (s : UTHash) (n ideal : UInt32) :
    Moved s n ideal [] ⟨s.hhPrev, s.hhNext, fun _ => zeroBucket, 0⟩ := by
  refine ⟨chained_nil (fun _ _ => rfl) fun _ _ => rfl, fun i _ => ?_, ?_, fun _ _ => rfl⟩
  · exact (if_neg fun hgt => Nat.not_lt_zero _ (UInt32.lt_iff_toNat_lt.mp hgt)).symm
  · exact (Finset.sum_eq_zero fun i _ => Nat.zero_sub _).symm

theorem moveRange_spec {e₀ : Expansion} (h : AppInv s l) (hi : BktInv s t l)
    (hn : 0 < (t.numBuckets * 2).toNat) (hid : ideal ≠ 0)
    (h₀ : Moved s (t.numBuckets * 2) ideal [] e₀) {k : Nat} (hk : k ≤ t.numBuckets.toNat) :
    ∃ e, (List.range k).foldlM (fun e i => Expansion.moveChain s.hashv t.numBuckets ideal
        t.numItems.toNat (t.buckets i).hhHead e) e₀ = .ok e ∧
      Moved s (t.numBuckets * 2) ideal
        (l.filter fun x => decide (s.bktOf t.numBuckets x < k)) e := by
  induction k with
  | zero => exact ⟨e₀, rfl, h₀.congr_mem fun x => by simp⟩
  | succ k ih =>
    obtain ⟨e, he, hm⟩ := ih (Nat.le_of_succ_le hk)
    obtain ⟨c, hb, hc⟩ := hi.chained k hk
    -- the chain of the bucket `k` and the elements of the buckets before it
    have hnd : (c ++ l.filter fun x => decide (s.bktOf t.numBuckets x < k)).Nodup := by
      refine List.nodup_append.mpr ⟨hb.nodup, h.nodup.filter _, ?_⟩
      rintro x hx y hy rfl
      have hlt := of_decide_eq_true (List.mem_filter.mp hy).2
      exact Nat.ne_of_lt hlt ((hc x).mp hx).2
    have hsub : c ++ l.filter (fun x => decide (s.bktOf t.numBuckets x < k)) ⊆ l := by
      intro x hx
      rcases List.mem_append.mp hx with hx | hx
      · exact ((hc x).mp hx).1
      · exact (List.mem_filter.mp hx).1
    have hlen := (List.subperm_of_subset hnd hsub).length_le
    rw [← hi.numItems] at hlen
    have hck : c.length ≤ t.numItems.toNat := by
      rw [← hb.count]
      exact hi.count_le h.nodup hk
    obtain ⟨e', he', hm'⟩ := moveChain_spec (k := t.numItems.toNat)
      (m := l.filter fun x => decide (s.bktOf t.numBuckets x < k + 1)) hn hid hm hb.seg hnd
      (fun hx => h.null (hsub hx)) (Nat.lt_of_le_of_lt hlen t.numItems.toNat_lt) hck fun x => by
        rw [hc, List.mem_filter, List.mem_filter, decide_eq_true_iff, decide_eq_true_iff,
          Nat.lt_succ_iff_lt_or_eq]
        tauto
    refine ⟨e', ?_, hm'⟩
    rw [List.range_succ, List.foldlM_append, he]
    show (Expansion.moveChain s.hashv t.numBuckets ideal t.numItems.toNat (heads t.buckets k) e
      >>= _) = _
    rw [hb.head, he']
    rfl

theorem moveAll_spec (h : AppInv s l) (hi : BktInv s t l) (hn : 0 < (t.numBuckets * 2).toNat)
    (hid : ideal ≠ 0) :
    ∃ e, s.moveAll t ideal = .ok e ∧ Moved s (t.numBuckets * 2) ideal l e := by
  obtain ⟨e, he, hm⟩ := moveRange_spec h hi hn hid (moved_nil s _ ideal) (Nat.le_refl _)
  refine ⟨e, he, hm.congr_mem fun x => ?_⟩
  rw [List.mem_filter, decide_eq_true_iff]
  exact (and_iff_left (hi.bktOf_lt x)).symm

/-! ## The new table -/

/-- `ceil(n/b)` -/
def ceilDiv (n b : Nat) : Nat := (n + b - 1) / b

theorem ceilDiv_eq (n : Nat) {b : Nat} (hb : 0 < b) :
    ceilDiv n b = n / b + if n % b ≠ 0 then 1 else 0 := by
  unfold ceilDiv
  have hn := Nat.div_add_mod n b
  have hr := Nat.mod_lt n hb
  split
  · refine Nat.div_eq_of_lt_le ?_ ?_
    · rw [Nat.add_mul, Nat.mul_comm]
      omega
    · rw [Nat.add_mul, Nat.add_mul, Nat.mul_comm]
      omega
  · refine Nat.div_eq_of_lt_le ?_ ?_
    · rw [Nat.add_mul, Nat.mul_comm]
      omega
    · rw [Nat.add_mul, Nat.add_mul, Nat.mul_comm]
      omega

theorem ceilDiv_pos {n b : Nat} (hb : 0 < b) (hn : 0 < n) : 0 < ceilDiv n b :=
  Nat.div_pos (by omega) hb

theorem le_ceilDiv_mul (n : Nat) {b : Nat} (hb : 0 < b) : n ≤ ceilDiv n b * b := by
  have h := Nat.lt_div_mul_add (a := n + b - 1) hb
  unfold ceilDiv
  omega

theorem toNat_double {n : UInt32} (hlog : n.toNat < 2 ^ 31) : (n * 2).toNat = 2 * n.toNat := by
  rw [UInt32.toNat_mul, show (2 : UInt32).toNat = 2 from rfl, Nat.mod_eq_of_lt (by omega),
    Nat.mul_comm]

theorem newIdeal_spec (hi : BktInv s t l) (hlog : t.log2NumBuckets.toNat ≤ 30) :
    (newIdeal t).toNat = ceilDiv l.length (2 * t.numBuckets.toNat) := by
  have hpow : 2 * t.numBuckets.toNat = 2 ^ (t.log2NumBuckets.toNat + 1) := by
    rw [hi.numBuckets, Nat.pow_succ, Nat.mul_comm]
  have hle : 2 ^ (t.log2NumBuckets.toNat + 1) ≤ 2 ^ 31 := Nat.pow_le_pow_right (by omega) (by omega)
  have hdouble := toNat_double (n := t.numBuckets) (by omega)
  have hpos : 0 < 2 ^ (t.log2NumBuckets.toNat + 1) := Nat.two_pow_pos _
  have hlog' : (t.log2NumBuckets + 1).toNat = t.log2NumBuckets.toNat + 1 := toNat_succ (by omega)
  have hshift : (t.numItems >>> (t.log2NumBuckets + 1)).toNat =
      l.length / 2 ^ (t.log2NumBuckets.toNat + 1) := by
    rw [UInt32.toNat_shiftRight, hlog', hi.numItems, Nat.shiftRight_eq_div_pow,
      Nat.mod_eq_of_lt (by omega)]
  have hmask : (t.numItems &&& (t.numBuckets * 2 - 1)).toNat =
      l.length % 2 ^ (t.log2NumBuckets.toNat + 1) := by
    have h1 : (1 : UInt32) ≤ t.numBuckets * 2 := by
      rw [UInt32.le_iff_toNat_le, hdouble]
      show 1 ≤ _
      omega
    rw [UInt32.toNat_and, UInt32.toNat_sub_of_le _ _ h1, hdouble, hpow, hi.numItems]
    exact Nat.and_two_pow_sub_one_eq_mod _ _
  have hzero : t.numItems &&& (t.numBuckets * 2 - 1) ≠ 0 ↔
      l.length % 2 ^ (t.log2NumBuckets.toNat + 1) ≠ 0 := by
    rw [← hmask, not_iff_not, ← UInt32.toNat_inj]
    rfl
  have hbound : l.length / 2 ^ (t.log2NumBuckets.toNat + 1) ≤ l.length / 2 :=
    Nat.div_le_div_left (by omega) (by omega)
  have hlen : l.length < 2 ^ 32 := hi.numItems ▸ t.numItems.toNat_lt
  rw [hpow, ceilDiv_eq _ hpos]
  unfold newIdeal
  split
  · next hne =>
    rw [if_pos (hzero.mp hne), toNat_succ (by omega), hshift]
  · next heq =>
    rw [if_neg fun hne => heq (hzero.mpr hne), Nat.add_zero, UInt32.add_zero, hshift]

/-- `t'` is `t` after an expansion of its buckets, with `n` items in them. -/
structure Expanded (t t' : UTHashTable) (n : Nat) : Prop where
  numBuckets : t'.numBuckets.toNat = 2 * t.numBuckets.toNat
  ideal : t'.idealChainMaxlen.toNat = ceilDiv n (2 * t.numBuckets.toNat)
  nonideal : t'.nonidealItems.toNat = ∑ i ∈ Finset.range t'.numBuckets.toNat,
    nonidealAt t'.buckets t'.idealChainMaxlen i
  mult : ∀ i < t'.numBuckets.toNat,
    (t'.buckets i).expandMult = newMult (t'.buckets i).count t'.idealChainMaxlen
  ineff : t'.ineffExpands =
    if t'.nonidealItems.toNat > n / 2 then t.ineffExpands + 1 else 0
  noexpand : t'.noexpand = if t'.ineffExpands > 1 then 1 else t.noexpand

/-- Fewer than 2^31 buckets leave room for the next index. -/
theorem BktInv.log2_le_of_lt (hi : BktInv s t l) (hn : t.numBuckets.toNat < 2 ^ 31) :
    t.log2NumBuckets.toNat ≤ 30 := by
  rw [hi.numBuckets] at hn
  exact Nat.le_of_lt_succ ((Nat.pow_lt_pow_iff_right (by omega)).mp hn)

/-- The index of 2^31 buckets is the last one. -/
theorem BktInv.log2_of_le (hi : BktInv s t l) (hn : 2 ^ 31 ≤ t.numBuckets.toNat) :
    t.log2NumBuckets = 31 := by
  rw [hi.numBuckets] at hn
  have hge : 31 ≤ t.log2NumBuckets.toNat := (Nat.pow_le_pow_iff_right (by omega)).mp hn
  exact UInt32.toNat_inj.mp (Nat.le_antisymm hi.log2_le hge)

theorem expanded_spec {e : Expansion} (hi : BktInv s t l) (hlog : t.log2NumBuckets.toNat ≤ 30)
    (hm : Moved s (t.numBuckets * 2) (newIdeal t) l e) :
    Expanded t (expandedTable t (newIdeal t) e) l.length := by
  have hpow : 2 ^ t.log2NumBuckets.toNat ≤ 2 ^ 30 := Nat.pow_le_pow_right (by omega) hlog
  have hhalf : (t.numItems >>> 1).toNat = l.length / 2 := by
    rw [UInt32.toNat_shiftRight, hi.numItems, Nat.shiftRight_eq_div_pow]
    rfl
  have hineff : e.nonidealItems > t.numItems >>> 1 ↔ e.nonidealItems.toNat > l.length / 2 := by
    rw [gt_iff_lt, UInt32.lt_iff_toNat_lt, hhalf]
  refine ⟨toNat_double ?_, newIdeal_spec hi hlog, hm.nonideal, hm.mult, ?_, rfl⟩
  · rw [hi.numBuckets]
    omega
  · exact if_congr hineff rfl rfl

theorem expand_spec {malloc : Nat → Bool} (h : AppInv s l) (hne : l ≠ []) (hi : TableInv s t l)
    (hn : t.numBuckets.toNat < 2 ^ 31)
    (hmal : malloc (2 * t.numBuckets.toNat * sizeofUTHashBucket) = true) :
    ∃ s' t', s.hashExpandBuckets malloc t = .ok s' ∧ s'.tbl = some t' ∧ Expanded t t' l.length ∧
      Inv s' l ∧ s'.hashv = s.hashv := by
  have hlog := hi.log2_le_of_lt hn
  have hpos := hi.pos
  have hideal := newIdeal_spec hi.toBktInv hlog
  have hid : newIdeal t ≠ 0 := by
    intro h0
    rw [h0] at hideal
    exact Nat.ne_of_lt (ceilDiv_pos (by omega) (List.length_pos_of_ne_nil hne)) hideal
  have hpow : 2 ^ t.log2NumBuckets.toNat ≤ 2 ^ 30 := Nat.pow_le_pow_right (by omega) hlog
  have hdouble : (t.numBuckets * 2).toNat = 2 * t.numBuckets.toNat :=
    toNat_double (by rw [hi.numBuckets]; omega)
  obtain ⟨e, he, hmv⟩ := moveAll_spec h hi.toBktInv (by omega) hid
  have hlog' : (t.log2NumBuckets + 1).toNat = t.log2NumBuckets.toNat + 1 := toNat_succ (by omega)
  have hshift : t.log2NumBuckets + 1 < 32 := by
    rw [UInt32.lt_iff_toNat_lt, hlog']
    exact Nat.lt_of_le_of_lt (Nat.succ_le_succ hlog) (by decide)
  unfold hashExpandBuckets
  rw [if_pos hmal, if_pos hshift, he]
  refine ⟨_, _, rfl, rfl, expanded_spec hi.toBktInv hlog hmv,
    ⟨⟨h.nodup, h.null, h.head, h.app⟩, nofun, fun t' ht' => ⟨hne, ?_⟩⟩, rfl⟩
  obtain rfl := Option.some.inj ht'
  refine ⟨⟨?_, ?_, hi.numItems, ?_, hmv.chained⟩, hi.tail⟩
  · show (t.log2NumBuckets + 1).toNat ≤ 31
    omega
  · show (t.numBuckets * 2).toNat = 2 ^ (t.log2NumBuckets + 1).toNat
    rw [hdouble, hlog', hi.numBuckets, Nat.pow_succ, Nat.mul_comm]
  · rw [(expanded_spec hi.toBktInv hlog hmv).noexpand]
    split
    · exact Or.inr rfl
    · exact hi.noexpand

/-- With 2^31 buckets there is no room for more. -/
theorem expand_shift {malloc : Nat → Bool} (hi : BktInv s t l) (hn : 2 ^ 31 ≤ t.numBuckets.toNat)
    (hmal : malloc (2 * t.numBuckets.toNat * sizeofUTHashBucket) = true) :
    s.hashExpandBuckets malloc t = .error .badShift := by
  unfold hashExpandBuckets
  rw [if_pos hmal, if_neg (by rw [hi.log2_of_le hn]; decide)]

end ShellJs.UTHash
