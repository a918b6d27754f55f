import ShellJs.Hash.Expand

/-!
# `HASH_ADD_KEYPTR`

* `AddStops`: the requests that the macro makes of the allocator, and what follows when one is
  refused.
* `append_spec`: the application order and, for the first element, the new table.
* `push_spec`, `hashPush_spec`: the bucket of the new element.
* `Added`, `add_spec`: the whole macro, with or without an expansion.
* `empty_inv`: a `NULL` head is the empty hash.
-/

namespace ShellJs.UTHash

open Dll Function

variable {s : UTHash} {t : UTHashTable} {l : List Addr} {x : Addr} {v : UInt32}
  {malloc : Nat → Bool}

/-- A hash whose `head` is `NULL`: the handles hold anything. -/
theorem empty_inv (h : s.head = NULL) (ht : s.tbl = none) : Inv s [] :=
  ⟨⟨List.nodup_nil, List.not_mem_nil, h, trivial⟩, fun _ => rfl,
    fun t h => by rw [ht] at h; cases h⟩

theorem initialTable_inv (s : UTHash) (x : Addr) : BktInv s (initialTable x) [] :=
  ⟨(by decide : (5 : UInt32).toNat ≤ 31), rfl, rfl, Or.inl rfl,
    chained_nil (fun _ _ => rfl) fun _ _ => rfl⟩

/-- One more item in the bucket of the hash value `v` makes `HASH_ADD_TO_BKT` expand them. -/
def Fills (ver : UTVersion) (t : UTHashTable) (v : UInt32) : Prop :=
  let b := t.buckets (hashToBkt v t.numBuckets).toNat
  expands ver { b with count := b.count + 1 } t.noexpand = true

/-- Why the addition of an element with the hash value `v` does not return. The first element
needs a table and its buckets; one that fills its bucket needs twice as many buckets, which the
index of a bucket must have room for. -/
inductive AddStops (ver : UTVersion) (malloc : Nat → Bool) (s : UTHash) (v : UInt32) :
    Stop → Prop
  | table (ht : s.tbl = none) (hm : malloc sizeofUTHashTable = false) : AddStops ver malloc s v .exit
  | buckets (ht : s.tbl = none)
      (hm : malloc (HASH_INITIAL_NUM_BUCKETS.toNat * sizeofUTHashBucket) = false) :
      AddStops ver malloc s v .exit
  | expand {t : UTHashTable} (ht : s.tbl = some t) (hf : Fills ver t v)
      (hm : malloc (2 * t.numBuckets.toNat * sizeofUTHashBucket) = false) :
      AddStops ver malloc s v .exit
  | shift {t : UTHashTable} (ht : s.tbl = some t) (hf : Fills ver t v)
      (hm : malloc (2 * t.numBuckets.toNat * sizeofUTHashBucket) = true)
      (hn : 2 ^ 31 ≤ t.numBuckets.toNat) : AddStops ver malloc s v .badShift

theorem not_fills_initial (ver : UTVersion) (x : Addr) (v : UInt32) :
    ¬ Fills ver (initialTable x) v := by
  cases ver with
  | v1_9_9 => exact Bool.false_ne_true
  | v2_0_2 => exact Bool.false_ne_true

/-- The table that an addition starts from. -/
def Base (malloc : Nat → Bool) (s : UTHash) (x : Addr) (t : UTHashTable) : Prop :=
  s.tbl = some t ∨ s.tbl = none ∧ t = initialTable x ∧ malloc sizeofUTHashTable = true ∧
    malloc (HASH_INITIAL_NUM_BUCKETS.toNat * sizeofUTHashBucket) = true

/-- With a table to start from, only an expansion can stop the macro. -/
theorem Base.stops (hb : Base malloc s x t) {ver : UTVersion} {e : Stop}
    (h : AddStops ver malloc s v e) :
    s.tbl = some t ∧ Fills ver t v ∧
      (malloc (2 * t.numBuckets.toNat * sizeofUTHashBucket) = false ∨
        2 ^ 31 ≤ t.numBuckets.toNat) := by
  rcases hb with ht | ⟨ht, -, hm₁, hm₂⟩
  · cases h with
    | table h _ => rw [ht] at h; cases h
    | buckets h _ => rw [ht] at h; cases h
    | expand h hf hm =>
      obtain rfl := Option.some.inj (ht.symm.trans h)
      exact ⟨ht, hf, Or.inl hm⟩
    | shift h hf _ hn =>
      obtain rfl := Option.some.inj (ht.symm.trans h)
      exact ⟨ht, hf, Or.inr hn⟩
  · cases h with
    | table _ hm => rw [hm₁] at hm; cases hm
    | buckets _ hm => rw [hm₂] at hm; cases hm
    | expand h _ _ => rw [ht] at h; cases h
    | shift h _ _ _ => rw [ht] at h; cases h

theorem append_spec (ver : UTVersion) (malloc : Nat → Bool) (v : UInt32) (h : Inv s l)
    (hx : x ∉ l) (hn : x ≠ NULL) :
    (s.hashAppend malloc x = .error .exit ∧ AddStops ver malloc s v .exit) ∨
      ∃ t s', Base malloc s x t ∧ s.hashAppend malloc x = .ok (s', { t with tail := x }) ∧
        AppInv s' (l ++ [x]) ∧ BktInv s t l ∧
        s' = { s with head := s'.head, next := s'.next, prev := s'.prev } := by
  have hnd : (l ++ [x]).Nodup := List.nodup_append.mpr ⟨h.nodup, List.nodup_singleton x,
    fun y hy z hz hyz => hx (List.mem_singleton.mp hz ▸ hyz ▸ hy)⟩
  have hnull : NULL ∉ l ++ [x] := fun hm => (List.mem_append.mp hm).elim h.null
    fun hm => hn (List.mem_singleton.mp hm).symm
  have hseg := h.app.append h.null h.nodup hx
  unfold hashAppend
  rcases h.cases with ⟨rfl, hhead, ht⟩ | ⟨hne, hhead, t, ht, hi⟩
  · rw [if_pos hhead]
    unfold hashMakeTable
    cases hm₁ : malloc sizeofUTHashTable with
    | false => exact Or.inl ⟨rfl, .table ht hm₁⟩
    | true =>
      cases hm₂ : malloc (HASH_INITIAL_NUM_BUCKETS.toNat * sizeofUTHashBucket) with
      | false => exact Or.inl ⟨rfl, .buckets ht hm₂⟩
      | true =>
        rw [List.getLastD_nil, setAt_nil] at hseg
        exact Or.inr ⟨initialTable x, _, Or.inr ⟨ht, rfl, hm₁, hm₂⟩, rfl,
          ⟨hnd, hnull, rfl, hseg⟩, initialTable_inv s x, rfl⟩
  · rw [if_neg hhead, ht]
    have htail : t.tail ≠ NULL := hi.tail ▸ getLastD_ne_null hne h.null
    rw [← hi.tail, setAt_of_ne _ htail] at hseg
    refine Or.inr ⟨t, _, Or.inl ht, rfl, ⟨hnd, hnull, ?_, hseg⟩, hi.toBktInv, rfl⟩
    show s.head = _
    rw [h.head]
    cases l with
    | nil => exact absurd rfl hne
    | cons y l => rfl

/-- The items of the table in front of whose bucket `bkt` the item `x` goes. -/
def addTable (t : UTHashTable) (bkt : Nat) (x : Addr) : UTHashTable :=
  pushTable { t with tail := x, numItems := t.numItems + 1 } bkt x

theorem push_spec (hi : BktInv s t l) (hnd : l.Nodup) (hnull : NULL ∉ x :: l) (hx : x ∉ l)
    (hlen : l.length + 1 < 2 ^ 32) (s' : UTHash) (hn : s'.hhNext = s.hhNext)
    (hp : s'.hhPrev = s.hhPrev) (hv : s'.hashv = update s.hashv x v) :
    BktInv (s'.pushBkt (t.buckets (hashToBkt v t.numBuckets).toNat).hhHead x)
      (addTable t (hashToBkt v t.numBuckets).toNat x) (l ++ [x]) := by
  have hlt : (hashToBkt v t.numBuckets).toNat < t.numBuckets.toNat := hashToBkt_lt v hi.pos
  have hother : ∀ y ∈ l, s'.bktOf t.numBuckets y = s.bktOf t.numBuckets y := by
    intro y hy
    unfold bktOf
    rw [hv, update_of_ne fun hyx : y = x => hx (hyx ▸ hy)]
  have hself : s'.bktOf t.numBuckets x = (hashToBkt v t.numBuckets).toNat := by
    unfold bktOf
    rw [hv, update_self]
  have hpush := (hi.chained.congr_idx hother).push hnull hx (hself.symm ▸ hlt)
  rw [hself] at hpush
  have hcount : ((t.buckets (hashToBkt v t.numBuckets).toNat).count + 1).toNat =
      counts t.buckets (hashToBkt v t.numBuckets).toNat + 1 := by
    refine toNat_succ (Nat.lt_of_le_of_lt (Nat.succ_le_succ (hi.count_le hnd hlt)) ?_)
    rw [hi.numItems]
    exact hlen
  refine ⟨hi.log2_le, hi.numBuckets, ?_, hi.noexpand,
    Chained.congr_mem (l := x :: l) ?_ fun y => ?_⟩
  · show (t.numItems + 1).toNat = _
    rw [toNat_succ (by rw [hi.numItems]; exact hlen), hi.numItems, List.length_append]
    rfl
  · show Chained (update s'.hhNext x _) (setAt NULL (update s'.hhPrev x NULL) _ x) NULL
      (heads (update t.buckets _ _)) (counts (update t.buckets _ _)) _ _ _
    rw [heads_update, counts_update, hcount, hn, hp]
    exact hpush
  · rw [List.mem_append, List.mem_singleton, List.mem_cons, or_comm]

/-- The hash that `HASH_ADD_TO_BKT` hands to `HASH_EXPAND_BUCKETS` when the bucket is full. -/
theorem hashPush_spec (ver : UTVersion) (malloc : Nat → Bool) (h : Inv s l) (hx : x ∉ l)
    (hn : x ≠ NULL) (hlen : l.length + 1 < 2 ^ 32) (v : UInt32) :
    (s.hashPush malloc x v = .error .exit ∧ AddStops ver malloc s v .exit) ∨
      ∃ t s', Base malloc s x t ∧ BktInv s t l ∧
        s.hashPush malloc x v = .ok (s', addTable t (hashToBkt v t.numBuckets).toNat x,
          (hashToBkt v t.numBuckets).toNat) ∧
        s'.tbl = some (addTable t (hashToBkt v t.numBuckets).toNat x) ∧ Inv s' (l ++ [x]) ∧
        s'.hashv = update s.hashv x v := by
  unfold hashPush
  rcases append_spec ver malloc v h hx hn with
    ⟨happ, hstop⟩ | ⟨t, s₁, hbase, happ, happ₁, hi, heq⟩
  · exact Or.inl ⟨by rw [happ]; rfl, hstop⟩
  have hnull : NULL ∉ x :: l := fun hm => (List.mem_cons.mp hm).elim (fun hm => hn hm.symm) h.null
  have hb := push_spec hi h.nodup hnull hx hlen { s₁ with hashv := update s₁.hashv x v }
    (by rw [heq]) (by rw [heq]) (by rw [heq])
  rw [happ]
  refine Or.inr ⟨t, _, hbase, hi, rfl, rfl, ⟨⟨happ₁.nodup, happ₁.null, happ₁.head, happ₁.app⟩,
    nofun, fun t' ht' => ⟨List.append_ne_nil_of_right_ne_nil l (List.cons_ne_nil x []), ?_⟩⟩, ?_⟩
  · obtain rfl := Option.some.inj ht'
    exact ⟨⟨hb.log2_le, hb.numBuckets, hb.numItems, hb.noexpand, hb.chained⟩,
      List.getLastD_concat.symm⟩
  · show update s₁.hashv x v = _
    rw [heq]

/-- `t'` is the table after an addition to `t`, which had room in the bucket or was expanded. -/
def Added (ver : UTVersion) (t t' : UTHashTable) (v : UInt32) (x : Addr) (n : Nat) : Prop :=
  let bkt := (hashToBkt v t.numBuckets).toNat
  (Fills ver t v ∧ Expanded (addTable t bkt x) t' n) ∨ (¬ Fills ver t v ∧ t' = addTable t bkt x)

theorem fills_iff (ver : UTVersion) (t : UTHashTable) (v : UInt32) (x : Addr) :
    expands ver ((addTable t (hashToBkt v t.numBuckets).toNat x).buckets
      (hashToBkt v t.numBuckets).toNat) t.noexpand = true ↔ Fills ver t v := by
  have hself : (addTable t (hashToBkt v t.numBuckets).toNat x).buckets
      (hashToBkt v t.numBuckets).toNat = ⟨x, (t.buckets (hashToBkt v t.numBuckets).toNat).count + 1,
        (t.buckets (hashToBkt v t.numBuckets).toNat).expandMult⟩ := update_self ..
  rw [hself]
  exact Iff.rfl

/-- An addition does not return for one of the reasons of `AddStops`, or there is none. -/
theorem add_spec (ver : UTVersion) (malloc : Nat → Bool) (h : Inv s l) (hx : x ∉ l)
    (hn : x ≠ NULL) (hlen : l.length + 1 < 2 ^ 32) (v : UInt32) :
    (∃ e, s.hashAdd ver malloc x v = .error e ∧ AddStops ver malloc s v e) ∨
      (∀ e, ¬ AddStops ver malloc s v e) ∧
      ∃ t s' t', Base malloc s x t ∧ s.hashAdd ver malloc x v = .ok s' ∧ s'.tbl = some t' ∧
        Added ver t t' v x (l.length + 1) ∧ Inv s' (l ++ [x]) ∧
        s'.hashv = update s.hashv x v := by
  rcases hashPush_spec ver malloc h hx hn hlen v with
    ⟨hpush, hstop⟩ | ⟨t, s₁, hbase, hi, hpush, ht₁, hinv₁, hv₁⟩
  · exact Or.inl ⟨.exit, by unfold hashAdd; rw [hpush]; rfl, hstop⟩
  obtain ⟨hne, hi₁⟩ := hinv₁.tbl_some _ ht₁
  have hadd : s.hashAdd ver malloc x v =
      if expands ver ((addTable t (hashToBkt v t.numBuckets).toNat x).buckets
        (hashToBkt v t.numBuckets).toNat) t.noexpand = true then
        s₁.hashExpandBuckets malloc (addTable t (hashToBkt v t.numBuckets).toNat x)
      else .ok s₁ := by
    unfold hashAdd
    rw [hpush]
    rfl
  rw [hadd]
  by_cases hf : Fills ver t v
  · have hex := (fills_iff ver t v x).mpr hf
    -- a table that is expanded is not the new one
    have ht : s.tbl = some t := by
      rcases hbase with ht | ⟨-, rfl, -⟩
      · exact ht
      · exact absurd hf (not_fills_initial ver x v)
    rw [if_pos hex]
    cases hmal : malloc (2 * t.numBuckets.toNat * sizeofUTHashBucket) with
    | false =>
      refine Or.inl ⟨.exit, ?_, .expand ht hf hmal⟩
      unfold hashExpandBuckets
      exact if_neg (hmal ▸ Bool.false_ne_true)
    | true =>
      rcases Nat.lt_or_ge t.numBuckets.toNat (2 ^ 31) with hlt | hge
      · obtain ⟨s', t', hs', ht', hexp, hinv, hv⟩ :=
          expand_spec hinv₁.toAppInv hne hi₁ hlt hmal
        have hlen' : (l ++ [x]).length = l.length + 1 := List.length_append
        refine Or.inr ⟨fun e hstop => ?_, t, s', t', hbase, hs', ht', Or.inl ⟨hf, hlen' ▸ hexp⟩,
          hinv, hv.trans hv₁⟩
        obtain ⟨-, -, hm | hge⟩ := hbase.stops hstop
        · rw [hmal] at hm
          cases hm
        · exact absurd hlt (Nat.not_lt.mpr hge)
      · exact Or.inl ⟨.badShift, expand_shift hi₁.toBktInv hge hmal, .shift ht hf hmal hge⟩
  · have hex := fun hex => hf ((fills_iff ver t v x).mp hex)
    rw [if_neg hex]
    exact Or.inr ⟨fun e hstop => hf (hbase.stops hstop).2.1, t, s₁, _, hbase, rfl, ht₁,
      Or.inr ⟨hf, rfl⟩, hinv₁, hv₁⟩

end ShellJs.UTHash
