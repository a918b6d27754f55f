import ShellJs.Pool.ErrorPath

/-!
# Immediate and deferred release

`mgn_mem_release` removes an entry when its count reaches zero, `mgn_mem_autorelease` leaves
that to `mgn_mem_release_unused`. After a list of give-ups by either, and the removal of
what is unused, the pool depends only on how often each pointer was given up.

* `settle`: the give-ups of a list, then `mgn_mem_release_unused`.
* `Settled`: the pool that this leaves, from the number of give-ups of each pointer.
* `settle_settled`: one give-up after the other, by induction on the list.
* `releases_confluent`: the result, and that it is the same for every choice and order.
-/

namespace ShellJs

open Runs

namespace Pool

/-- A pointer, and whether it is given up by `mgn_mem_release`. -/
abbrev GiveUp := Addr × Bool

def giveUp (pool : Pool) (g : GiveUp) : Except Fault Pool :=
  if g.2 then pool.release g.1 else pool.autorelease g.1

/-- The give-ups of a list, then the removal of the unused entries. -/
def settle (l : List GiveUp) (pool : Pool) : Except Fault Pool := do
  let pool ← l.foldlM giveUp pool
  pool.releaseUnused

/-- How often the list gives up `x`. -/
def occurrences (x : Addr) (l : List GiveUp) : Nat := (l.map Prod.fst).count x

/-- The entry with `n` owners less. -/
def lessOwners (n : Nat) (e : MgnMemory) : MgnMemory :=
  { e with r := UInt64.ofNat (e.r.toNat - n) }

/-- `pool'` is `pool` after `k x` give-ups of each pointer `x`: the entries with more owners
than that, and their blocks. -/
structure Settled (pool : Pool) (k : Addr → Nat) (pool' : Pool) : Prop where
  wf : pool'.WF
  shrunk : Table.Shrunk pool.table pool'.table
  get : ∀ x, pool'.get x = (pool.get x).bind fun r =>
    if k x < r.2.r.toNat then some (r.1, lessOwners (k x) r.2) else none
  cells : ∀ x, pool'.data.cells x =
    if (pool.get x).any (fun r => r.2.r.toNat ≤ k x) then none else pool.data.cells x
  dataNext : pool'.data.next = pool.data.next

variable {pool pool' pool₁ pool₂ : Pool} {a x : Addr} {p : Ptr} {e e' : MgnMemory}
  {k : Addr → Nat} {last : Bool}

/-! ## What the calls do to the table -/

theorem removeEntry_table {n : Addr} (h : pool.removeEntry n = .ok pool') :
    (pool.table.unlink n).free n = some pool'.table := by
  obtain ⟨e, -, h⟩ := bind_eq_ok.mp h
  obtain ⟨pool₁, h₁, h⟩ := bind_eq_ok.mp h
  obtain ⟨table, htable, h⟩ := bind_eq_ok.mp h
  cases h
  have hsame : pool₁.table = pool.table.unlink n := by
    unfold releaseData at h₁
    split at h₁
    · cases h₁
      rfl
    · obtain ⟨data, -, h₁⟩ := bind_eq_ok.mp h₁
      cases h₁
      rfl
  rw [← hsame]
  exact orFault_eq_ok.mp htable

theorem shrunk_removeEntry {n : Addr} (hw : pool.WF) (hn : n ∈ pool.table.chain)
    (h : pool.removeEntry n = .ok pool') : Table.Shrunk pool.table pool'.table :=
  Table.shrunk_remove hw.table hn (removeEntry_table h)

theorem shrunk_purgeLoop {cond : MgnMemory → Bool} {todo : List Addr} (hw : pool.WF)
    (hnd : todo.Nodup) (hsub : ∀ x ∈ todo, x ∈ pool.table.chain)
    (h : purgeLoop cond todo pool = .ok pool') : Table.Shrunk pool.table pool'.table := by
  induction todo generalizing pool with
  | nil =>
    cases h
    exact Table.shrunk_refl hw.table
  | cons n rest ih =>
    obtain ⟨hn, hnd'⟩ := List.nodup_cons.mp hnd
    have hmem := hsub n List.mem_cons_self
    obtain ⟨p, e, hg, hpn⟩ := get_of_mem hw hmem
    obtain ⟨e', -, h⟩ := bind_eq_ok.mp h
    split at h
    · obtain ⟨pool₁, h₁, h⟩ := bind_eq_ok.mp h
      obtain ⟨pool₂, hrem, hremoved, hchain⟩ := removeEntry_ok hw hg
      rw [hpn] at hrem hchain
      rw [hrem] at h₁
      cases h₁
      refine (shrunk_removeEntry hw hmem hrem).trans (ih hremoved.wf hnd' (fun x hx => ?_) h)
      rw [hchain]
      refine (List.mem_erase_of_ne ?_).mpr (hsub x (List.mem_cons_of_mem _ hx))
      rintro rfl
      exact hn hx
    · exact ih hw hnd' (fun x hx => hsub x (List.mem_cons_of_mem _ hx)) h

/-! ## One give-up -/

/-- What a give-up of `a` does: nothing, or a count goes down, or the entry goes with its
last owner. -/
theorem release_cases (last : Bool) (hw : pool.WF) (a : Addr) :
    ∃ pool', pool.release_ a last = .ok pool' ∧ Table.Shrunk pool.table pool'.table ∧
      ((pool' = pool ∧ ∀ p e, pool.get a = some (p, e) → e.r = 0) ∨
        ∃ p e, pool.get a = some (p, e) ∧ e.r ≠ 0 ∧
          (Touched pool pool' a p { e with r := e.r - 1 } ∨
            e.r = 1 ∧ ∃ pool₁, Touched pool pool₁ a p { e with r := e.r - 1 } ∧
              Removed pool₁ pool' a)) := by
  cases hg : pool.get a with
  | none =>
    exact ⟨pool, release_none hg, Table.shrunk_refl hw.table, .inl ⟨rfl, fun _ _ h => nomatch h⟩⟩
  | some r =>
    obtain ⟨p, e⟩ := r
    by_cases hz : e.r = 0
    · refine ⟨pool, release_zero hg hz, Table.shrunk_refl hw.table, .inl ⟨rfl, fun q f hf => ?_⟩⟩
      cases hf
      exact hz
    · have htouch := touched { e with r := e.r - 1 } hw hg rfl
      have hmem := mem_of_get hg
      have hstore : Table.Shrunk pool.table (pool.table.store p.addr { e with r := e.r - 1 }) :=
        Table.shrunk_store hw.table hmem
      rw [release_eq last hg hz]
      split
      · next hlast =>
        have hg' := htouch.get a
        rw [if_pos rfl] at hg'
        obtain ⟨pool', hrem, hremoved, -⟩ := removeEntry_ok htouch.wf hg'
        exact ⟨pool', hrem, hstore.trans (shrunk_removeEntry htouch.wf hmem hrem),
          .inr ⟨p, e, rfl, hz, .inr ⟨hlast.1, _, htouch, hremoved⟩⟩⟩
      · exact ⟨_, rfl, hstore, .inr ⟨p, e, rfl, hz, .inl htouch⟩⟩

/-! ## A list of give-ups -/

theorem lessOwners_zero (e : MgnMemory) : lessOwners 0 e = e := by
  rw [lessOwners, Nat.sub_zero, UInt64.ofNat_toNat]

theorem lessOwners_succ (n : Nat) (hz : e.r ≠ 0) :
    lessOwners n { e with r := e.r - 1 } = lessOwners (n + 1) e := by
  simp only [lessOwners, toNat_sub_one hz]
  rw [Nat.sub_sub, Nat.add_comm 1]

/-- Without a give-up only the entries that had no owner go. -/
theorem settled_unused (hw : pool.WF) :
    ∃ pool', pool.releaseUnused = .ok pool' ∧ Settled pool (fun _ => 0) pool' := by
  obtain ⟨pool', hok, hp⟩ := purge_ok (fun e => decide (e.r = 0)) hw
  have hzero : ∀ r : UInt64, r.toNat ≤ 0 ↔ r = 0 := fun r =>
    Nat.le_zero.trans ⟨fun h => UInt64.toNat_inj.mp h, fun h => by rw [h]; rfl⟩
  refine ⟨pool', hok, hp.wf, shrunk_purgeLoop hw hw.table.nodup (fun _ h => h) hok, fun x => ?_,
    fun x => ?_, hp.dataNext⟩
  · rw [hp.get x]
    cases hg : pool.get x with
    | none => rfl
    | some r =>
      by_cases hr : r.2.r = 0
      · simp [Option.filter, hr]
      · have hpos : 0 < r.2.r.toNat := Nat.pos_of_ne_zero fun h => hr (UInt64.toNat_inj.mp h)
        simp [Option.filter, hr, hpos, lessOwners_zero]
  · rw [hp.cells x]
    simp only [hzero]

/-- The give-ups `k`, and one of `a` before them. -/
def oneMore (a : Addr) (k : Addr → Nat) (x : Addr) : Nat := if x = a then k x + 1 else k x

/-- A first give-up of `a`, when it changes nothing but the entry and the block at `a`, and
these in the way that counts for the give-ups that follow. -/
theorem Settled.cons (h : Settled pool₁ k pool') (hshrunk : Table.Shrunk pool.table pool₁.table)
    (hother : ∀ x, x ≠ a → pool₁.get x = pool.get x ∧ pool₁.data.cells x = pool.data.cells x)
    (hget : pool'.get a = (pool.get a).bind fun r =>
      if k a + 1 < r.2.r.toNat then some (r.1, lessOwners (k a + 1) r.2) else none)
    (hcells : pool'.data.cells a =
      if (pool.get a).any (fun r => r.2.r.toNat ≤ k a + 1) then none else pool.data.cells a)
    (hnext : pool₁.data.next = pool.data.next) : Settled pool (oneMore a k) pool' := by
  refine ⟨h.wf, hshrunk.trans h.shrunk, fun x => ?_, fun x => ?_, h.dataNext.trans hnext⟩
  · by_cases hx : x = a
    · subst hx
      simp only [oneMore, if_true]
      exact hget
    · simp only [oneMore, if_neg hx]
      rw [h.get x, (hother x hx).1]
  · by_cases hx : x = a
    · subst hx
      simp only [oneMore, if_true]
      exact hcells
    · simp only [oneMore, if_neg hx]
      rw [h.cells x, (hother x hx).1, (hother x hx).2]

theorem Settled.same (h : Settled pool k pool') (hw : pool.WF)
    (hz : ∀ p e, pool.get a = some (p, e) → e.r = 0) : Settled pool (oneMore a k) pool' := by
  refine h.cons (Table.shrunk_refl hw.table) (fun x _ => ⟨rfl, rfl⟩) ?_ ?_ rfl
  · rw [h.get a]
    cases hg : pool.get a with
    | none => rfl
    | some r => simp [hz r.1 r.2 hg]
  · rw [h.cells a]
    cases hg : pool.get a with
    | none => rfl
    | some r => simp [hz r.1 r.2 hg]

theorem Settled.touched (h : Settled pool₁ k pool') (hg : pool.get a = some (p, e))
    (hz : e.r ≠ 0) (hshrunk : Table.Shrunk pool.table pool₁.table)
    (ht : Touched pool pool₁ a p { e with r := e.r - 1 }) : Settled pool (oneMore a k) pool' := by
  have hself : pool₁.get a = some (p, { e with r := e.r - 1 }) := (ht.get a).trans (if_pos rfl)
  have hpos : 0 < e.r.toNat := Nat.pos_of_ne_zero fun h => hz (UInt64.toNat_inj.mp h)
  have hlt : k a < e.r.toNat - 1 ↔ k a + 1 < e.r.toNat := by omega
  have hle : e.r.toNat - 1 ≤ k a ↔ e.r.toNat ≤ k a + 1 := by omega
  refine h.cons hshrunk (fun x hx => ⟨(ht.get x).trans (if_neg hx), by rw [ht.data]⟩) ?_ ?_
    (by rw [ht.data])
  · rw [h.get a, hself, hg]
    simp only [Option.bind_some, toNat_sub_one hz, hlt, lessOwners_succ (k a) hz]
  · rw [h.cells a, hself, hg, ht.data]
    simp only [Option.any_some, toNat_sub_one hz, hle]

theorem Settled.removed (h : Settled pool₁ k pool') (hg : pool.get a = some (p, e))
    (hr : e.r = 1) (hshrunk : Table.Shrunk pool.table pool₁.table)
    (ht : Touched pool pool₂ a p { e with r := e.r - 1 }) (hrem : Removed pool₂ pool₁ a) :
    Settled pool (oneMore a k) pool' := by
  obtain ⟨b, hb, hdata⟩ := hrem.data
  have hgone : pool₁.get a = none := (hrem.get a).trans (if_pos rfl)
  have hle : e.r.toNat ≤ k a + 1 := by
    rw [hr]
    exact Nat.le_add_left 1 (k a)
  refine h.cons hshrunk (fun x hx => ⟨?_, ?_⟩) ?_ ?_ (by rw [hdata, ← ht.data]; rfl)
  · rw [hrem.get x, if_neg hx, ht.get x, if_neg hx]
  · rw [hdata, Heap.cells_drop_of_ne hb hx, ht.data]
  · rw [h.get a, hgone, hg, Option.bind_some, if_neg (Nat.not_lt.mpr hle)]
    rfl
  · rw [h.cells a, hgone, hdata, Heap.cells_drop_self, ite_self, hg, Option.any_some,
      decide_eq_true hle, if_pos rfl]

theorem giveUp_eq (pool : Pool) (g : GiveUp) : giveUp pool g = pool.release_ g.1 g.2 := by
  obtain ⟨x, last⟩ := g
  cases last <;> rfl

theorem settle_cons (g : GiveUp) (l : List GiveUp) (h : pool.release_ g.1 g.2 = .ok pool₁) :
    settle (g :: l) pool = settle l pool₁ := by
  rw [settle, List.foldlM_cons, giveUp_eq, h]
  rfl

theorem occurrences_cons (g : GiveUp) (l : List GiveUp) :
    (fun x => occurrences x (g :: l)) = oneMore g.1 fun x => occurrences x l := by
  funext x
  by_cases hx : x = g.1
  · simp [occurrences, oneMore, hx]
  · simp [occurrences, oneMore, hx, Ne.symm hx]

theorem settle_settled (l : List GiveUp) (hw : pool.WF) :
    ∃ pool', settle l pool = .ok pool' ∧ Settled pool (fun x => occurrences x l) pool' := by
  induction l generalizing pool with
  | nil => exact settled_unused hw
  | cons g l ih =>
    obtain ⟨pool₁, hrel, hshrunk, hcase⟩ := release_cases g.2 hw g.1
    rw [settle_cons g l hrel, occurrences_cons]
    rcases hcase with ⟨rfl, hz⟩ | ⟨p, e, hg, hz, ht | ⟨hr, pool₂, ht, hrem⟩⟩
    · obtain ⟨pool', hok, hs⟩ := ih hw
      exact ⟨pool', hok, hs.same hw hz⟩
    · obtain ⟨pool', hok, hs⟩ := ih ht.wf
      exact ⟨pool', hok, hs.touched hg hz hshrunk ht⟩
    · obtain ⟨pool', hok, hs⟩ := ih hrem.wf
      exact ⟨pool', hok, hs.removed hg hr hshrunk ht hrem⟩

/-! ## The result -/

/-- The blocks that are freed are those that are gone. -/
theorem Settled.mem_frees (h : Settled pool k pool') (b : Nat) :
    b ∈ pool'.data.frees ↔ b ∈ pool.data.frees ∨
      ∃ x c, pool.data.cells x = some c ∧ c.birth = b ∧ pool'.data.cells x = none := by
  have hback : ∀ x c, pool'.data.cells x = some c → pool.data.cells x = some c := by
    intro x c hx
    rw [h.cells x] at hx
    split at hx
    · cases hx
    · exact hx
  rw [pool'.data.freed_iff, pool.data.freed_iff, h.dataNext]
  constructor
  · rintro ⟨hlt, hdead⟩
    by_cases hlive : ∃ x c, pool.data.cells x = some c ∧ c.birth = b
    · obtain ⟨x, c, hc, hb⟩ := hlive
      refine .inr ⟨x, c, hc, hb, ?_⟩
      cases hx : pool'.data.cells x with
      | none => rfl
      | some c' =>
        have hcc := (hback x c' hx).symm.trans hc
        cases hcc
        exact absurd hb (hdead x c hx)
    · exact .inl ⟨hlt, fun x c hc hb => hlive ⟨x, c, hc, hb⟩⟩
  · rintro (⟨hlt, hdead⟩ | ⟨x, c, hc, rfl, hnone⟩)
    · exact ⟨hlt, fun x c hx => hdead x c (hback x c hx)⟩
    · refine ⟨pool.data.birth_lt x c hc, fun y c' hy hb => ?_⟩
      have hyx : y = x := pool.data.birth_inj y c' x c (hback y c' hy) hc hb
      rw [hyx, hnone] at hy
      cases hy

/-- The number of give-ups of each pointer determines the pool. -/
theorem Settled.samePool (h₁ : Settled pool k pool₁) (h₂ : Settled pool k pool₂) :
    SamePool pool₁ pool₂ := by
  obtain ⟨hchain, hcells⟩ := h₁.shrunk.unique h₂.shrunk h₁.wf.table h₂.wf.table
    fun x => (h₁.get x).trans (h₂.get x).symm
  exact ⟨hchain.symm, hcells.symm, funext fun x => (h₂.cells x).trans (h₁.cells x).symm⟩

end Pool

namespace PoolRun

open Pool

/-- In every pool that any calls with any answers of the allocator reach, after the give-ups
of a list by `mgn_mem_release` or `mgn_mem_autorelease` and `mgn_mem_release_unused`:

* the entries with more owners than give-ups are left, with that many owners less;
* their data blocks, and those that are no entry's, are as they were, and the data blocks of
  the other entries are not allocated any more;
* the births of these blocks are exactly what was added to the frees, each once;
* another list with the same pointers, in any order and with any choice of the function,
  leaves the same pool. -/
theorem releases_confluent (acts : List Act) (s : PoolRun) (hreach : exec step init acts = .ok s)
    (l : List GiveUp) :
    ∃ pool', settle l s.pool = .ok pool' ∧
      (∀ x, pool'.get x = (s.pool.get x).bind fun r =>
        if occurrences x l < r.2.r.toNat then some (r.1, lessOwners (occurrences x l) r.2)
        else none) ∧
      (∀ x, pool'.data.cells x =
        if (s.pool.get x).any (fun r => r.2.r.toNat ≤ occurrences x l) then none
        else s.pool.data.cells x) ∧
      pool'.data.frees.Nodup ∧
      (∀ b, b ∈ pool'.data.frees ↔ b ∈ s.pool.data.frees ∨
        ∃ x c, s.pool.data.cells x = some c ∧ c.birth = b ∧ pool'.data.cells x = none) ∧
      ∀ l' : List GiveUp, (l'.map Prod.fst).Perm (l.map Prod.fst) →
        ∃ pool'', settle l' s.pool = .ok pool'' ∧ SamePool pool' pool'' := by
  have hw : s.pool.WF := exec_keeps (fun s => s.pool.WF) wf_step wf_empty hreach
  obtain ⟨pool', hok, hs⟩ := settle_settled l hw
  refine ⟨pool', hok, hs.get, hs.cells, pool'.data.frees_nodup, hs.mem_frees, fun l' hperm => ?_⟩
  obtain ⟨pool'', hok', hs'⟩ := settle_settled l' hw
  have hsame : (fun x => occurrences x l') = fun x => occurrences x l :=
    funext fun x => hperm.count_eq x
  rw [hsame] at hs'
  exact ⟨pool'', hok', hs.samePool hs'⟩

/-- Two owners of one block, of which one gives it up twice, in either way. -/
theorem releases_confluent_overRelease :
    ∃ s pool' pool'', exec step init [.alloc 8 16 16, .retain 16, .alloc 8 32 32] = .ok s ∧
      settle [(16, true), (32, true), (32, false)] s.pool = .ok pool' ∧
      settle [(32, false), (16, false), (32, true)] s.pool = .ok pool'' ∧
      SamePool pool' pool'' ∧ pool'.get 32 = none := by
  have hs : ∃ s p q, exec step init [.alloc 8 16 16, .retain 16, .alloc 8 32 32] = .ok s ∧
      s.pool.get 16 = some (p, ⟨16, 8, 2⟩) ∧ s.pool.get 32 = some (q, ⟨32, 8, 1⟩) :=
    ⟨_, _, _, rfl, rfl, rfl⟩
  obtain ⟨s, p, q, hs, -, hg⟩ := hs
  obtain ⟨pool', hok, hget, -, -, -, hsame⟩ := releases_confluent
    [.alloc 8 16 16, .retain 16, .alloc 8 32 32] s hs [(16, true), (32, true), (32, false)]
  obtain ⟨pool'', hok', hpools⟩ := hsame [(32, false), (16, false), (32, true)] (by decide)
  refine ⟨s, pool', pool'', hs, hok, hok', hpools, ?_⟩
  rw [hget 32, hg]
  rfl

end PoolRun

end ShellJs
