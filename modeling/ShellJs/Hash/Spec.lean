import Mathlib.Data.List.Find
import ShellJs.Hash.Model

/-!
# The invariant of a hash

`Inv s l`: the hash `s` holds the elements of `l`, in this application order. The elements are
linked from `head` to `tail`, every bucket links the elements with its index and counts them, and
there is a table if and only if there is an element.

* `find_spec`, `iter_spec`, `count_spec`: what the searches and walks return.
* `delete_spec`: `HASH_DELETE` keeps the invariant.
* `fsck_spec`: `HASH_FSCK` finds nothing to report.
-/

namespace ShellJs.UTHash

open Dll Function

/-- The first elements of an array of buckets. -/
def heads (b : Nat → UTHashBucket) (i : Nat) : Addr := (b i).hhHead

/-- The counters of an array of buckets. -/
def counts (b : Nat → UTHashBucket) (i : Nat) : Nat := (b i).count.toNat

/-- The buckets. -/
structure BktInv (s : UTHash) (t : UTHashTable) (l : List Addr) : Prop where
  log2_le : t.log2NumBuckets.toNat ≤ 31
  numBuckets : t.numBuckets.toNat = 2 ^ t.log2NumBuckets.toNat
  numItems : t.numItems.toNat = l.length
  noexpand : t.noexpand = 0 ∨ t.noexpand = 1
  chained : Chained s.hhNext s.hhPrev NULL (heads t.buckets) (counts t.buckets)
    (s.bktOf t.numBuckets) t.numBuckets.toNat l

structure TableInv (s : UTHash) (t : UTHashTable) (l : List Addr) : Prop extends BktInv s t l where
  tail : t.tail = l.getLastD NULL

/-- The application order. -/
structure AppInv (s : UTHash) (l : List Addr) : Prop where
  nodup : l.Nodup
  null : NULL ∉ l
  head : s.head = l.headD NULL
  app : Seg s.next s.prev NULL l NULL

structure Inv (s : UTHash) (l : List Addr) : Prop extends AppInv s l where
  tbl_none : s.tbl = none → l = []
  tbl_some : ∀ t, s.tbl = some t → l ≠ [] ∧ TableInv s t l

variable {s : UTHash} {t : UTHashTable} {l : List Addr} {x : Addr} {i : Nat}

theorem heads_update (b : Nat → UTHashBucket) (i : Nat) (v : UTHashBucket) :
    heads (update b i v) = update (heads b) i v.hhHead :=
  Function.comp_update UTHashBucket.hhHead b i v

theorem counts_update (b : Nat → UTHashBucket) (i : Nat) (v : UTHashBucket) :
    counts (update b i v) = update (counts b) i v.count.toNat :=
  Function.comp_update (fun b => UTHashBucket.count b |>.toNat) b i v

theorem hashToBkt_lt {n : UInt32} (v : UInt32) (hn : 0 < n.toNat) :
    (hashToBkt v n).toNat < n.toNat := by
  have h1 : 1 ≤ n := UInt32.le_iff_toNat_le.mpr hn
  have hle : (hashToBkt v n).toNat ≤ (n - 1).toNat := by
    unfold hashToBkt
    rw [UInt32.toNat_and]
    exact Nat.and_le_right
  rw [UInt32.toNat_sub_of_le n 1 h1] at hle
  exact Nat.lt_of_le_of_lt hle (Nat.sub_lt hn Nat.one_pos)

theorem BktInv.pos (h : BktInv s t l) : 0 < t.numBuckets.toNat := by
  rw [h.numBuckets]
  exact Nat.two_pow_pos _

theorem BktInv.bktOf_lt (h : BktInv s t l) (x : Addr) :
    s.bktOf t.numBuckets x < t.numBuckets.toNat := hashToBkt_lt _ h.pos

theorem headD_ne_null (hne : l ≠ []) (hn : NULL ∉ l) : l.headD NULL ≠ NULL := by
  cases l with
  | nil => exact absurd rfl hne
  | cons x l => exact fun hx : x = NULL => hn (hx ▸ List.mem_cons_self)

/-- An empty hash has no head and no table, any other has both. -/
theorem Inv.cases (h : Inv s l) : (l = [] ∧ s.head = NULL ∧ s.tbl = none) ∨
    (l ≠ [] ∧ s.head ≠ NULL ∧ ∃ t, s.tbl = some t ∧ TableInv s t l) := by
  cases ht : s.tbl with
  | none =>
    have hl := h.tbl_none ht
    exact Or.inl ⟨hl, by rw [h.head, hl]; rfl, rfl⟩
  | some t =>
    obtain ⟨hne, hi⟩ := h.tbl_some t ht
    exact Or.inr ⟨hne, h.head ▸ headD_ne_null hne h.null, t, rfl, hi⟩

/-! ## Searches and walks -/

theorem BktInv.count_le (h : BktInv s t l) (hl : l.Nodup) (hi : i < t.numBuckets.toNat) :
    counts t.buckets i ≤ t.numItems.toNat := by
  rw [h.chained.count_eq hl hi, h.numItems]
  exact List.length_filter_le _ _

/-- The keys of the elements, as far as searches depend on them. -/
structure Keyed {κ : Type} (s : UTHash) (keyAt : Addr → Option κ) (hashFcn : κ → UInt32)
    (l : List Addr) : Prop where
  hashed : ∀ x ∈ l, ∃ k, keyAt x = some k ∧ s.hashv x = hashFcn k
  unique : ∀ x ∈ l, ∀ y ∈ l, keyAt x = keyAt y → x = y

section
variable {κ : Type} [DecidableEq κ] {keyAt : Addr → Option κ} {hashFcn : κ → UInt32}

theorem keyMatches_iff (ver : UTVersion) (hk : Keyed s keyAt hashFcn l) (hx : x ∈ l) (key : κ) :
    keyMatches ver s keyAt key (hashFcn key) x = true ↔ keyAt x = some key := by
  obtain ⟨k, hxk, hv⟩ := hk.hashed x hx
  cases ver with
  | v1_9_9 => exact decide_eq_true_iff
  | v2_0_2 =>
    show (decide (s.hashv x = hashFcn key) && decide (keyAt x = some key)) = true ↔ _
    rw [Bool.and_eq_true, decide_eq_true_iff, decide_eq_true_iff]
    refine ⟨fun h => h.2, fun h => ⟨?_, h⟩⟩
    rw [hxk] at h
    rw [hv, Option.some.inj h]

/-- `HASH_FIND`, in both versions, finds the element with the key. -/
theorem find_spec (ver : UTVersion) (h : Inv s l) (hk : Keyed s keyAt hashFcn l) (key : κ) :
    s.hashFind ver keyAt key (hashFcn key) =
      .ok ((l.find? fun x => decide (keyAt x = some key)).getD NULL) := by
  unfold hashFind
  rcases h.cases with ⟨rfl, hhead, -⟩ | ⟨-, hhead, t, ht, hi⟩
  · rw [if_pos hhead]
    rfl
  · rw [if_neg hhead, ht]
    show orDiverges _ = _
    have hlt := hashToBkt_lt (hashFcn key) hi.pos
    have hfind : l.find? (keyMatches ver s keyAt key (hashFcn key)) =
        l.find? fun x => decide (keyAt x = some key) := by
      refine List.find?_congr fun x hx => ?_
      rw [Bool.eq_iff_iff, keyMatches_iff ver hk hx, decide_eq_true_iff]
    have hsearch := hi.chained.search (keyMatches ver s keyAt key (hashFcn key)) h.null hlt
      (hi.count_le h.nodup hlt) (fun y hy hyk => ?_) fun y hy z hz hyk hzk => ?_
    · show orDiverges (Dll.search s.hhNext NULL _ _ (heads t.buckets _)) = _
      rw [hsearch, hfind]
      rfl
    · -- an element with this key is in the bucket that the key's hash value selects
      obtain ⟨k, hyk', hv⟩ := hk.hashed y hy
      rw [keyMatches_iff ver hk hy, hyk'] at hyk
      unfold bktOf
      rw [hv, Option.some.inj hyk]
    · rw [keyMatches_iff ver hk hy] at hyk
      rw [keyMatches_iff ver hk hz] at hzk
      exact hk.unique y hy z hz (hyk.trans hzk.symm)

end

theorem count_spec (h : Inv s l) : ∃ n, s.hashCount = .ok n ∧ n.toNat = l.length := by
  unfold hashCount
  rcases h.cases with ⟨rfl, hhead, -⟩ | ⟨-, hhead, t, ht, hi⟩
  · exact ⟨0, if_pos hhead, rfl⟩
  · rw [if_neg hhead, ht]
    exact ⟨t.numItems, rfl, hi.numItems⟩

/-- `HASH_ITER` visits the elements in application order. -/
theorem iter_spec (h : Inv s l) : s.hashIter = .ok l := by
  obtain ⟨n, hn, hlen⟩ := count_spec h
  unfold hashIter
  rw [hn]
  show orDiverges (Dll.walk s.next NULL n.toNat s.head) = _
  rw [h.head, h.app.walk h.null (Nat.le_of_eq hlen.symm)]
  rfl

/-- The successor that `HASH_ITER` keeps in its second variable. -/
theorem AppInv.iter_next (h : AppInv s l) :
    (if l.headD NULL = NULL then NULL else s.next (l.headD NULL)) = l.tail.headD NULL := by
  cases l with
  | nil => exact if_pos rfl
  | cons x l =>
    have hx : x ≠ NULL := fun hx => h.null (hx ▸ List.mem_cons_self)
    rw [List.headD_cons, if_neg hx]
    exact h.app.2.1

/-! ## `HASH_DELETE` -/

theorem erase_middle {a b : List Addr} (h : (a ++ x :: b).Nodup) :
    (a ++ x :: b).erase x = a ++ b := by
  have hxa : x ∉ a := fun hm => (List.nodup_append.mp h).2.2 x hm x List.mem_cons_self rfl
  rw [List.erase_append_right _ hxa, List.erase_cons_head]

theorem getLastD_ne_null {a : List Addr} (hne : a ≠ []) (hn : NULL ∉ a) :
    a.getLastD NULL ≠ NULL := by
  obtain ⟨a, y, rfl⟩ := (List.eq_nil_or_concat' a).resolve_left hne
  rw [List.getLastD_concat]
  exact fun hy => hn (hy ▸ List.mem_append_right a List.mem_cons_self)

/-- An element without neighbours is the only one. -/
theorem AppInv.single (h : AppInv s l) (hx : x ∈ l) :
    (s.prev x = NULL ∧ s.next x = NULL) ↔ l.erase x = [] := by
  obtain ⟨a, b, rfl⟩ := List.append_of_mem hx
  obtain ⟨hp, hn⟩ := h.app.middle
  rw [hp, hn, erase_middle h.nodup, List.append_eq_nil_iff]
  constructor
  · rintro ⟨ha, hb⟩
    constructor
    · refine not_not.mp fun hne => getLastD_ne_null hne (fun hm => h.null ?_) ha
      exact List.mem_append_left _ hm
    · refine not_not.mp fun hne => headD_ne_null hne (fun hm => h.null ?_) hb
      exact List.mem_append_right _ (List.mem_cons_of_mem x hm)
  · rintro ⟨rfl, rfl⟩
    exact ⟨rfl, rfl⟩

/-- The first of two neighbours keeps its successor when it is written to the other. -/
theorem setAt_apply_self {f : Addr → Addr} {p : Addr} : setAt NULL f p (f x) x = f x := by
  cases hp : decide (p = x) with
  | true =>
    unfold setAt
    rw [of_decide_eq_true hp, update_eq_self, ite_self]
  | false => exact setAt_apply_of_ne f (f x) (Ne.symm (of_decide_eq_false hp))

theorem AppInv.head_unlinkApp (h : AppInv s l) (hx : x ∈ l) :
    (s.unlinkApp x).head = (l.erase x).headD NULL := by
  obtain ⟨a, b, rfl⟩ := List.append_of_mem hx
  obtain ⟨hp, hn⟩ := h.app.middle
  show (if s.prev x = NULL then s.next x else s.head) = _
  rw [erase_middle h.nodup, hp, hn, h.head]
  cases a with
  | nil => exact if_pos rfl
  | cons y a =>
    exact if_neg (getLastD_ne_null (List.cons_ne_nil y a)
      fun hm => h.null (List.mem_append_left _ hm))

theorem AppInv.seg_unlinkApp (h : AppInv s l) (hx : x ∈ l) :
    Seg (s.unlinkApp x).next (s.unlinkApp x).prev NULL (l.erase x) NULL := by
  obtain ⟨a, b, rfl⟩ := List.append_of_mem hx
  show Seg (setAt NULL s.next (s.prev x) (s.next x))
    (setAt NULL s.prev (setAt NULL s.next (s.prev x) (s.next x) x) (s.prev x)) NULL _ NULL
  rw [setAt_apply_self, erase_middle h.nodup]
  exact h.app.unlink h.null h.nodup

/-- The tail moves back if it is the element that goes. -/
theorem AppInv.tail_erase (h : AppInv s l) (hx : x ∈ l) (hone : l.erase x ≠ []) :
    (if x = l.getLastD NULL then s.prev x else l.getLastD NULL) = (l.erase x).getLastD NULL := by
  obtain ⟨a, b, rfl⟩ := List.append_of_mem hx
  obtain ⟨hp, -⟩ := h.app.middle
  rw [erase_middle h.nodup, hp]
  obtain rfl | ⟨b, y, rfl⟩ := List.eq_nil_or_concat' b
  · rw [List.getLastD_concat, if_pos rfl, List.append_nil]
  · have hxy : x ≠ y := by
      rintro rfl
      obtain ⟨hxb, -⟩ := List.nodup_cons.mp (List.nodup_append.mp h.nodup).2.1
      exact hxb (List.mem_append_right b List.mem_cons_self)
    rw [← List.cons_append, ← List.append_assoc, List.getLastD_concat, if_neg hxy,
      ← List.append_assoc, List.getLastD_concat]

theorem BktInv.count_pos (hi : BktInv s t l) (hx : x ∈ l) :
    1 ≤ (t.buckets (s.bktOf t.numBuckets x)).count := by
  obtain ⟨c, hb, hc⟩ := hi.chained _ (hi.bktOf_lt x)
  have hlen : 0 < c.length := List.length_pos_of_mem ((hc x).mpr ⟨hx, rfl⟩)
  rw [← hb.count] at hlen
  exact UInt32.le_iff_toNat_le.mpr hlen

theorem BktInv.chained_delInBkt (hi : BktInv s t l) (h : AppInv s l) (hx : x ∈ l)
    (t' : UTHashTable) (ht : t'.buckets = t.buckets) :
    ∃ t'', (s.hashDelInBkt t' (s.bktOf t.numBuckets x) x).tbl = some t'' ∧
      t'' = { t' with buckets := t''.buckets } ∧
      Chained (s.hashDelInBkt t' (s.bktOf t.numBuckets x) x).hhNext
        (s.hashDelInBkt t' (s.bktOf t.numBuckets x) x).hhPrev NULL (heads t''.buckets)
        (counts t''.buckets) (s.bktOf t.numBuckets) t.numBuckets.toNat (l.erase x) := by
  have hlt := hi.bktOf_lt x
  have hrem := hi.chained.remove h.null h.nodup hx hlt
  refine ⟨_, rfl, rfl, ?_⟩
  show Chained (setAt NULL s.hhNext (s.hhPrev x) (s.hhNext x))
    (setAt NULL s.hhPrev (setAt NULL s.hhNext (s.hhPrev x) (s.hhNext x) x) (s.hhPrev x)) NULL
    (heads (update t'.buckets (s.bktOf t.numBuckets x) _))
    (counts (update t'.buckets (s.bktOf t.numBuckets x) _)) _ _ _
  rw [setAt_apply_self, heads_update, counts_update, ht]
  have hcount : ((t.buckets (s.bktOf t.numBuckets x)).count - 1).toNat =
      counts t.buckets (s.bktOf t.numBuckets x) - 1 := UInt32.toNat_sub_of_le _ _ (hi.count_pos hx)
  rw [hcount]
  exact hrem

theorem delete_spec (h : Inv s l) (hx : x ∈ l) :
    ∃ s', s.hashDelete x = .ok s' ∧ Inv s' (l.erase x) ∧ s'.hashv = s.hashv := by
  unfold hashDelete
  rcases h.cases with ⟨rfl, -, -⟩ | ⟨-, -, t, ht, hi⟩
  · exact absurd hx List.not_mem_nil
  rw [ht]
  show ∃ s', (if s.prev x = NULL ∧ s.next x = NULL then _ else _) = _ ∧ _
  have hnull : NULL ∉ l.erase x := fun hm => h.null (List.mem_of_mem_erase hm)
  cases hone : decide (s.prev x = NULL ∧ s.next x = NULL) with
  | true =>
    rw [if_pos (of_decide_eq_true hone)]
    rw [decide_eq_true_iff, h.single hx] at hone
    refine ⟨_, rfl, ?_, rfl⟩
    rw [hone]
    exact ⟨⟨List.nodup_nil, List.not_mem_nil, rfl, trivial⟩, fun _ => rfl, nofun⟩
  | false =>
    rw [if_neg (of_decide_eq_false hone)]
    rw [decide_eq_false_iff_not, h.single hx] at hone
    refine ⟨_, rfl, ⟨⟨h.nodup.erase x, hnull, h.head_unlinkApp hx, h.seg_unlinkApp hx⟩,
      nofun, fun t'' ht'' => ⟨hone, ?_⟩⟩, rfl⟩
    obtain ⟨t', ht', heq, hch⟩ := hi.chained_delInBkt h.toAppInv hx
      { t with
        tail := if x = t.tail then s.prev x else t.tail
        numItems := t.numItems - 1 } rfl
    obtain rfl : t' = t'' := Option.some.inj (ht'.symm.trans ht'')
    rw [heq]
    refine ⟨⟨hi.log2_le, hi.numBuckets, ?_, hi.noexpand, hch⟩, ?_⟩
    · have h1 : 1 ≤ t.numItems :=
        UInt32.le_iff_toNat_le.mpr (hi.numItems ▸ List.length_pos_of_mem hx)
      show (t.numItems - 1).toNat = _
      rw [UInt32.toNat_sub_of_le _ _ h1, hi.numItems, List.length_erase_of_mem hx]
      rfl
    · show (if x = t.tail then s.prev x else t.tail) = _
      rw [hi.tail]
      exact h.tail_erase hx hone

/-! ## `HASH_FSCK` -/

theorem ofNat_succ (c : UInt32) (n : Nat) :
    c + 1 + UInt32.ofNat n = c + UInt32.ofNat (n + 1) := by
  rw [UInt32.ofNat_add, UInt32.add_assoc, UInt32.add_comm 1]
  rfl

theorem fsckChain_seg (oops : HashOops) {next back : Addr → Addr} {b : Addr} {n : Nat}
    (h : Seg next back b l NULL) (hnull : NULL ∉ l) (hn : l.length ≤ n) (c : UInt32) :
    fsckChain oops next back n b (l.headD NULL) c = .ok (c + UInt32.ofNat l.length) := by
  induction l generalizing b n c with
  | nil =>
    rw [show c + UInt32.ofNat ([] : List Addr).length = c from UInt32.add_zero c]
    cases n with
    | zero => exact if_pos rfl
    | succ n => exact if_pos rfl
  | cons x l ih =>
    obtain ⟨n, rfl⟩ : ∃ k, n = k + 1 := Nat.exists_eq_succ_of_ne_zero (Nat.ne_of_gt
      (Nat.lt_of_lt_of_le (Nat.succ_pos _) hn))
    obtain ⟨hbx, hnx, hl⟩ := h
    have hx : x ≠ NULL := fun hx => hnull (hx ▸ List.mem_cons_self)
    rw [List.headD_cons]
    unfold fsckChain
    rw [if_neg hx, if_neg (not_not.mpr hbx.symm), hnx,
      ih hl (fun hm => hnull (List.mem_cons_of_mem x hm)) (Nat.le_of_succ_le_succ hn), ofNat_succ]
    rfl

theorem fsckBucket_spec (h : AppInv s l) (hi : BktInv s t l) {i : Nat}
    (hlt : i < t.numBuckets.toNat) (c : UInt32) :
    s.fsckBucket t c i = .ok (c + UInt32.ofNat (counts t.buckets i)) := by
  obtain ⟨ch, hb, hc⟩ := hi.chained i hlt
  have hnull : NULL ∉ ch := fun hm => h.null ((hc NULL).mp hm).1
  have hlen : ch.length ≤ t.numItems.toNat := by
    rw [← hb.count]
    exact hi.count_le h.nodup hlt
  have hcount : (t.buckets i).count = 0 + UInt32.ofNat ch.length := by
    rw [← hb.count, UInt32.zero_add]
    exact UInt32.ofNat_toNat.symm
  unfold fsckBucket
  show (fsckChain .hhPrev s.hhNext s.hhPrev t.numItems.toNat NULL (heads t.buckets i) 0 >>= _) = _
  rw [hb.head, fsckChain_seg .hhPrev hb.seg hnull hlen]
  show (if (t.buckets i).count ≠ _ then _ else _) = _
  rw [if_neg (not_not.mpr hcount), hb.count, UInt32.zero_add]

theorem fsck_fold (h : AppInv s l) (hi : BktInv s t l) {k : Nat} (hk : k ≤ t.numBuckets.toNat) :
    (List.range k).foldlM (s.fsckBucket t) 0 =
      .ok (UInt32.ofNat (∑ i ∈ Finset.range k, counts t.buckets i)) := by
  induction k with
  | zero => rfl
  | succ k ih =>
    rw [List.range_succ, List.foldlM_append, ih (Nat.le_of_succ_le hk)]
    show (s.fsckBucket t _ k >>= _) = _
    rw [fsckBucket_spec h hi hk, Finset.sum_range_succ, UInt32.ofNat_add]
    rfl

/-- The hash's own check of its integrity never fails. -/
theorem fsck_spec (h : Inv s l) : s.hashFsck = .ok () := by
  unfold hashFsck
  rcases h.cases with ⟨-, hhead, -⟩ | ⟨-, hhead, t, ht, hi⟩
  · rw [if_pos hhead]
  have hitems : UInt32.ofNat l.length = t.numItems := by
    rw [← hi.numItems]
    exact UInt32.ofNat_toNat
  rw [if_neg hhead, ht]
  show ((List.range t.numBuckets.toNat).foldlM (s.fsckBucket t) 0 >>= _) = _
  rw [fsck_fold h.toAppInv hi.toBktInv (Nat.le_refl _),
    hi.chained.sum_count h.nodup fun x _ => hi.bktOf_lt x, hitems]
  show (if t.numItems ≠ t.numItems then _ else
    fsckChain .prev s.next s.prev t.numItems.toNat NULL s.head 0 >>= _) = _
  rw [if_neg (not_not.mpr rfl), h.head, fsckChain_seg .prev h.app h.null
    (Nat.le_of_eq hi.numItems.symm), UInt32.zero_add, hitems]
  show (if t.numItems ≠ t.numItems then _ else _) = _
  rw [if_neg (not_not.mpr rfl)]

end ShellJs.UTHash
