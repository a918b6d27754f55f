import ShellJs.Lib.Runs
import ShellJs.File.Spec

/-!
# The life of a file handle

Until 2^31 streams have been opened, the handles are numbered like the streams: the
`n`-th successful open returns the number `n`, and no number is given out twice.

* `Libc.Logged`: the log of opens and closes agrees with the streams. Every stream that is
  not open any more was closed once, by the function that belongs to what opened it.
* `Serial`: `Inv`, the numbering, and that every open stream has its record.
* `serial_step`, `uninstall_ok`: one call, and the bulk close.
* `handle_lifecycle`: whole runs.
-/

namespace ShellJs

open Runs ResMgn

namespace Libc

variable {libc libc' : Libc} {fp : Ptr} {kind : StreamKind}

structure Logged (libc : Libc) : Prop where
  serial : libc.opened.map Prod.fst = (List.range libc.streams.next).reverse
  openKind : ∀ fp kind, libc.kindOf fp = some kind → (fp.birth, kind) ∈ libc.opened
  frees : libc.closed.map Prod.fst = libc.streams.frees
  matched : ∀ e ∈ libc.closed, e ∈ libc.opened

theorem logged_init : init.Logged :=
  ⟨rfl, (fun _ _ h => nomatch h), rfl, (fun _ h => nomatch h)⟩

theorem Logged.nodup_opened (h : libc.Logged) : (libc.opened.map Prod.fst).Nodup := by
  rw [h.serial]
  exact List.nodup_reverse.mpr List.nodup_range

theorem Logged.nodup_closed (h : libc.Logged) : (libc.closed.map Prod.fst).Nodup := by
  rw [h.frees]
  exact libc.streams.frees_nodup

theorem Logged.length_opened (h : libc.Logged) : libc.opened.length = libc.streams.next := by
  have hlen := congrArg List.length h.serial
  rwa [List.length_map, List.length_reverse, List.length_range] at hlen

theorem Logged.same (h : libc.Logged) (hs : libc.Same libc') : libc'.Logged := by
  obtain ⟨hkind, hnext, hfrees, hopened, hclosed⟩ := hs
  refine ⟨?_, fun fp kind hk => ?_, ?_, ?_⟩
  · rw [hopened, hnext]
    exact h.serial
  · rw [hopened]
    exact h.openKind fp kind ((hkind fp).symm.trans hk)
  · rw [hclosed, hfrees]
    exact h.frees
  · rw [hclosed, hopened]
    exact h.matched

/-- A close by the function that belongs to the stream. -/
theorem Logged.closedOne (h : libc.Logged) (hk : libc.kindOf fp = some kind)
    (hc : libc.ClosedOne libc' kind fp) : libc'.Logged := by
  refine ⟨?_, fun q kind' hq => ?_, ?_, ?_⟩
  · rw [hc.opened, hc.next]
    exact h.serial
  · rw [hc.kindOf] at hq
    split at hq
    · cases hq
    · rw [hc.opened]
      exact h.openKind q kind' hq
  · rw [hc.closed, hc.frees, List.map_cons, h.frees]
  · intro e he
    rw [hc.closed] at he
    rw [hc.opened]
    rcases List.mem_cons.mp he with rfl | he
    · exact h.openKind fp kind hk
    · exact h.matched e he

/-- When no stream is open, all that were opened have been closed, each once. -/
theorem Logged.perm (h : libc.Logged) (hnone : ∀ fp, libc.kindOf fp = none) :
    libc.closed.Perm libc.opened := by
  refine (List.perm_ext_iff_of_nodup h.nodup_closed.of_map h.nodup_opened.of_map).mpr
    fun e => ⟨h.matched e, fun he => ?_⟩
  have hlt : e.1 < libc.streams.next := by
    have hmem : e.1 ∈ libc.opened.map Prod.fst := List.mem_map_of_mem he
    rw [h.serial, List.mem_reverse, List.mem_range] at hmem
    exact hmem
  have hfreed : e.1 ∈ libc.closed.map Prod.fst := by
    rw [h.frees, libc.streams.freed_iff]
    refine ⟨hlt, fun a b hb _ => ?_⟩
    have hd : libc.streams.deref ⟨a, b.birth⟩ = some b.val := Heap.deref_eq_some.mpr hb
    have hk := hnone ⟨a, b.birth⟩
    rw [kindOf, hd] at hk
    cases hk
  obtain ⟨e', he', hfst⟩ := List.mem_map.mp hfreed
  have heq : e' = e := List.inj_on_of_nodup_map h.nodup_opened (h.matched e' he') he hfst
  rw [← heq]
  exact he'

end Libc

namespace FileLib

variable {wild : JsNumber → CInt} {s s' : FileLib} {id : CInt} {p fp : Ptr} {kind : StreamKind}

/-! ## Numbering -/

structure Serial (s : FileLib) : Prop where
  inv : s.Inv
  logged : s.libc.Logged
  young : s.openedFiles.Young s.libc.streams.next
  room : s.libc.streams.next ≤ 2 ^ 31
  serial : ∀ id p res fp, s.openedFiles.get id = some (p, res) → res.data.file = some fp →
    fp.birth = id.toNat
  owned : ∀ fp kind, s.libc.kindOf fp = some kind →
    ∃ id p res, s.openedFiles.get id = some (p, res) ∧ res.data.file = some fp

theorem serial_install : (installFileLib .init).Serial :=
  ⟨inv_install _, Libc.logged_init, young_create, Nat.zero_le _, (fun _ _ _ _ h => nomatch h),
    (fun _ _ h => nomatch h)⟩

theorem Serial.same (h : s.Serial) (hs : Same s s') : s'.Serial := by
  refine ⟨h.inv.same hs, h.logged.same hs.libc, ?_, ?_, ?_, fun fp kind hk => ?_⟩
  · rw [hs.openedFiles, hs.libc.next]
    exact h.young
  · rw [hs.libc.next]
    exact h.room
  · rw [hs.openedFiles]
    exact h.serial
  · rw [hs.openedFiles]
    exact h.owned fp kind ((hs.libc.kindOf fp).symm.trans hk)

/-- The stream that is opened next gets its own number as its handle. -/
theorem Serial.number (h : s.Serial) (ho : Opens s s' id p fp kind) :
    id = BitVec.ofNat 32 s.libc.streams.next ∧ id.toNat = s.libc.streams.next := by
  have hroom := h.room
  have hid := firstFree_unique ho.first (h.young.firstFree (by omega))
  refine ⟨hid, ?_⟩
  rw [hid, BitVec.toNat_ofNat, Nat.mod_eq_of_lt (by omega)]

theorem Serial.opens (h : s.Serial) (hlt : s.libc.streams.next < 2 ^ 31)
    (ho : Opens s s' id p fp kind) : s'.Serial := by
  obtain ⟨hid, hnat⟩ := h.number ho
  have hnn : 0 ≤ id.toInt := by
    rw [hid]
    exact toInt_ofNat_nonneg hlt
  have hself : s'.openedFiles.get id = some (p, ⟨id, ⟨typeOf kind, some fp⟩⟩) := by
    rw [ho.get, if_pos rfl, if_pos hnn]
  refine ⟨h.inv.opens ho, ⟨?_, fun q kind' hq => ?_, ?_, ?_⟩, ?_, ?_, ?_, fun q kind' hq => ?_⟩
  · rw [ho.opened, ho.next, List.map_cons, h.logged.serial, ho.stream, List.range_succ,
      List.reverse_append]
    rfl
  · rw [ho.opened]
    rw [ho.kindOf] at hq
    split at hq
    · next hqfp =>
      cases hq
      rw [hqfp]
      exact List.mem_cons_self
    · exact List.mem_cons_of_mem _ (h.logged.openKind q kind' hq)
  · rw [ho.closed, ho.frees]
    exact h.logged.frees
  · intro e he
    rw [ho.closed] at he
    rw [ho.opened]
    exact List.mem_cons_of_mem _ (h.logged.matched e he)
  · rw [ho.next]
    refine h.young.add (ho.lastId.trans (by rw [hid])) fun i hi => ?_
    rw [ho.get, if_neg (by rwa [hid])]
  · rw [ho.next]
    exact hlt
  · intro i q res fp' hg hf
    by_cases hi : i = id
    · rw [hi, hself] at hg
      cases hg
      cases hf
      rw [hi, hnat, ho.stream]
    · rw [ho.get, if_neg hi] at hg
      exact h.serial i q res fp' hg hf
  · rw [ho.kindOf] at hq
    split at hq
    · next hqfp => exact ⟨id, p, _, hself, by rw [hqfp]⟩
    · obtain ⟨i, q', res, hg, hf⟩ := h.owned q kind' hq
      refine ⟨i, q', res, ?_, hf⟩
      rw [ho.get, if_neg, hg]
      rintro rfl
      rw [get_eq_none_of_firstFree ho.first] at hg
      cases hg

theorem Serial.closes (h : s.Serial) (hc : Closes s s' id p fp kind) : s'.Serial := by
  have hold : ∀ i q r, s'.openedFiles.get i = some (q, r) →
      s.openedFiles.get i = some (q, r) := by
    intro i q r hg
    rw [hc.get] at hg
    split at hg
    · cases hg
    · exact hg
  refine ⟨h.inv.closes hc, h.logged.closedOne hc.isOpen hc.libc, ?_, ?_, ?_, fun q kind' hq => ?_⟩
  · rw [hc.libc.next]
    exact h.young.mono hc.lastId fun i e hi => ⟨e, hold i e.1 e.2 hi⟩
  · rw [hc.libc.next]
    exact h.room
  · exact fun i q res fp' hg hf => h.serial i q res fp' (hold i q res hg) hf
  -- a stream that is still open is in a record that is still there
  · rw [hc.libc.kindOf] at hq
    split at hq
    · cases hq
    · next hne =>
      obtain ⟨i, q', res, hg, hf⟩ := h.owned q kind' hq
      refine ⟨i, q', res, ?_, hf⟩
      rw [hc.get, if_neg, hg]
      rintro rfl
      rw [hc.was] at hg
      cases hg
      exact hne (Option.some.inj hf).symm

/-! ## One call -/

def step (wild : JsNumber → CInt) (s : FileLib) (c : Call) : Except Fault FileLib := do
  let (s, _) ← call wild s c
  return s

/-- The call is allowed, and fewer than 2^31 streams were opened before it. -/
def Regular (s : FileLib) (c : Call) : Prop := Allowed s c ∧ s.libc.opened.length < 2 ^ 31

theorem step_eq_ok {c : Call} : step wild s c = .ok s' ↔ ∃ v, call wild s c = .ok (s', v) := by
  cases h : call wild s c with
  | error e => simp [step, h]
  | ok r =>
    obtain ⟨s₁, v⟩ := r
    have hs : step wild s c = .ok s₁ := by rw [step, h]; rfl
    rw [hs]
    constructor
    · intro heq
      cases heq
      exact ⟨v, rfl⟩
    · rintro ⟨v', heq⟩
      cases heq
      rfl

/-- What a call does to handles and streams. -/
theorem step_cases {c : Call} (h : s.Serial) (hr : Regular s c) (hs : step wild s c = .ok s') :
    s'.Serial ∧ (Same s s' ∨ (∃ id p fp kind, Opens s s' id p fp kind) ∨
      ∃ id p fp kind, Closes s s' id p fp kind) := by
  obtain ⟨v, hv⟩ := step_eq_ok.mp hs
  rcases call_cases h.inv hv with hsame | ⟨id, p, fp, kind, ho⟩ | ⟨id, p, fp, kind, hc, -⟩
  · exact ⟨h.same hsame, .inl hsame⟩
  · exact ⟨h.opens (h.logged.length_opened ▸ hr.2) ho, .inr (.inl ⟨id, p, fp, kind, ho⟩)⟩
  · exact ⟨h.closes hc, .inr (.inr ⟨id, p, fp, kind, hc⟩)⟩

theorem serial_step {c : Call} (h : s.Serial) (hr : Regular s c) :
    ∃ s', step wild s c = .ok s' ∧ s'.Serial := by
  have hroom := h.room
  obtain ⟨s', v, hv⟩ := @call_ok wild s _ c h.inv (h.young.firstFree (by omega)) hr.1
  have hs : step wild s c = .ok s' := step_eq_ok.mpr ⟨v, hv⟩
  exact ⟨s', hs, (step_cases h hr hs).1⟩

/-! ## The bulk close -/

/-- `jsc_file_close` on records of different streams closes them all. -/
theorem callbacks_close {libc : Libc} {l : List (Res FileHandle)} (hlog : libc.Logged)
    (hrec : ∀ r ∈ l, Recorded libc r.id r.data)
    (hdist : l.Pairwise fun r r' => ∀ fp, r.data.file = some fp → r'.data.file ≠ some fp) :
    ∃ libc', callbacks jscFileClose libc l = .ok libc' ∧ libc'.Logged ∧
      libc'.opened = libc.opened ∧
      ∀ fp kind, libc'.kindOf fp = some kind →
        libc.kindOf fp = some kind ∧ ∀ r ∈ l, r.data.file ≠ some fp := by
  induction l generalizing libc with
  | nil => exact ⟨libc, rfl, hlog, rfl, fun fp kind hk => ⟨hk, fun r hr => nomatch hr⟩⟩
  | cons r l ih =>
    obtain ⟨hr, hrest⟩ := List.pairwise_cons.mp hdist
    have hhead := hrec r List.mem_cons_self
    cases hfile : r.data.file with
    | none =>
      -- a record that was never filled in: nothing is closed
      have hskip : jscFileClose r.id r.data libc = .ok libc := by
        unfold Recorded at hhead
        split at hhead
        · obtain ⟨fp, kind, hdata, -⟩ := hhead
          rw [hdata] at hfile
          cases hfile
        · rw [hhead]
          rfl
      obtain ⟨libc', hcb, hlog', hopened, hkind⟩ :=
        ih hlog (fun r' hr' => hrec r' (List.mem_cons_of_mem r hr')) hrest
      refine ⟨libc', ?_, hlog', hopened, fun fp kind hk => ⟨(hkind fp kind hk).1, fun r' hr' => ?_⟩⟩
      · rw [callbacks, List.foldlM_cons, hskip]
        exact hcb
      · rcases List.mem_cons.mp hr' with rfl | hr'
        · rw [hfile]
          exact (Option.some_ne_none fp).symm
        · exact (hkind fp kind hk).2 r' hr'
    | some fp =>
      obtain ⟨kind, hdata, hopen⟩ := hhead.isOpen hfile
      obtain ⟨libc₁, hclose, hclosed⟩ := Libc.close_ok kind hopen
      have hclose' : jscFileClose r.id r.data libc = .ok libc₁ := by
        rw [hdata, jscFileClose_typeOf, hclose]
      have hrec₁ : ∀ r' ∈ l, Recorded libc₁ r'.id r'.data := by
        intro r' hr'
        refine (hrec r' (List.mem_cons_of_mem r hr')).of_kind fun fp' hfile' => ?_
        rw [hclosed.kindOf, if_neg]
        -- the stream just closed is no other record's
        rintro rfl
        exact hr r' hr' fp' hfile hfile'
      obtain ⟨libc', hcb, hlog', hopened, hkind⟩ :=
        ih (hlog.closedOne hopen hclosed) hrec₁ hrest
      refine ⟨libc', ?_, hlog', hopened.trans hclosed.opened, fun q kind' hk => ?_⟩
      · rw [callbacks, List.foldlM_cons, hclose']
        exact hcb
      · obtain ⟨hk₁, hne⟩ := hkind q kind' hk
        rw [hclosed.kindOf] at hk₁
        split at hk₁
        · cases hk₁
        · next hqfp =>
          refine ⟨hk₁, fun r' hr' => ?_⟩
          rcases List.mem_cons.mp hr' with rfl | hr'
          · rw [hfile]
            exact fun heq => hqfp (Option.some.inj heq).symm
          · exact hne r' hr'

theorem records_distinct (h : s.Inv) :
    s.openedFiles.records.Pairwise fun r r' => ∀ fp, r.data.file = some fp →
      r'.data.file ≠ some fp := by
  refine (records_pairwise h.mgn).imp_of_mem fun {r r'} hr hr' hid fp hf hf' => hid ?_
  obtain ⟨p, hg⟩ := (mem_records h.mgn).mp hr
  obtain ⟨p', hg'⟩ := (mem_records h.mgn).mp hr'
  exact h.distinct r.id r'.id p p' r r' fp hg hg' hf hf'

/-- The bulk close closes every stream that is still open. -/
theorem uninstall_ok (h : s.Serial) : ∃ s', uninstallFileLib s = .ok s' ∧
    s'.libc.opened = s.libc.opened ∧ s'.libc.closed.Perm s'.libc.opened := by
  have hrec : ∀ r ∈ s.openedFiles.records, Recorded s.libc r.id r.data := by
    intro r hr
    obtain ⟨p, hg⟩ := (mem_records h.inv.mgn).mp hr
    exact h.inv.recorded r.id p r hg
  obtain ⟨libc, hcb, hlog, hopened, hkind⟩ :=
    callbacks_close h.logged hrec (records_distinct h.inv)
  obtain ⟨mgn, hrel, -⟩ := resReleaseAll_ok h.inv.mgn hcb
  refine ⟨⟨mgn, libc⟩, by rw [uninstallFileLib, hrel]; rfl, hopened, hlog.perm fun fp => ?_⟩
  cases hk : libc.kindOf fp with
  | none => rfl
  | some kind =>
    obtain ⟨hopen, hne⟩ := hkind fp kind hk
    obtain ⟨id, p, r, hg, hf⟩ := h.owned fp kind hopen
    have hid : r.id = id := Table.key_of_get hg
    exact absurd hf (hne r ((mem_records h.inv.mgn).mpr ⟨p, hid ▸ hg⟩))

/-! ## Runs -/

theorem inv_exec {calls : List Call}
    (hs : exec (step wild) (installFileLib .init) calls = .ok s) : s.Inv := by
  refine exec_keeps Inv (fun t c t' hinv ht => ?_) (inv_install _) hs
  obtain ⟨v, hv⟩ := step_eq_ok.mp ht
  exact hinv.call hv

/-- The number of the stream that the handle `id` designates. -/
def streamOf (s : FileLib) (id : CInt) : Option Nat :=
  (s.openedFiles.get id).bind fun e => e.2.data.file.map Ptr.birth

theorem serial_exec {calls : List Call} (h : s.Serial) (hr : Along (step wild) Regular s calls)
    (hs : exec (step wild) s calls = .ok s') : s'.Serial :=
  exec_invariant (fun _ _ _ h hr hs => (step_cases h hr hs).1) h hr hs

/-- An id that has been given out. -/
structure Issued (id : CInt) (s : FileLib) : Prop where
  serial : s.Serial
  below : id.toNat < s.libc.streams.next

/-- An id that has been given out and designates nothing any more. -/
structure Retired (id : CInt) (s : FileLib) : Prop extends Issued id s where
  gone : s.openedFiles.get id = none

theorem Issued.step {c : Call} (h : Issued id s) (hr : Regular s c)
    (hs : step wild s c = .ok s') : Issued id s' := by
  obtain ⟨hserial, hcases⟩ := step_cases h.serial hr hs
  have hnext : s.libc.streams.next ≤ s'.libc.streams.next := by
    rcases hcases with hsame | ⟨i, p, fp, kind, ho⟩ | ⟨i, p, fp, kind, hc⟩
    · exact Nat.le_of_eq hsame.libc.next.symm
    · rw [ho.next]
      exact Nat.le_succ _
    · exact Nat.le_of_eq hc.libc.next.symm
  exact ⟨hserial, Nat.lt_of_lt_of_le h.below hnext⟩

theorem Retired.step {c : Call} (h : Retired id s) (hr : Regular s c)
    (hs : step wild s c = .ok s') : Retired id s' := by
  refine ⟨h.toIssued.step hr hs, ?_⟩
  rcases (step_cases h.serial hr hs).2 with hsame | ⟨i, p, fp, kind, ho⟩ | ⟨i, p, fp, kind, hc⟩
  · rw [hsame.openedFiles]
    exact h.gone
  · rw [ho.get, if_neg]
    · exact h.gone
    · rintro rfl
      have hlt := h.below
      rw [(h.serial.number ho).2] at hlt
      exact absurd hlt (Nat.lt_irrefl _)
  · rw [hc.get]
    split
    · rfl
    · exact h.gone

/-- A handle that designated a stream and does not any more is retired. -/
theorem Issued.retired (h : Issued id s) (hnone : s.streamOf id = none) : Retired id s := by
  refine ⟨h, ?_⟩
  cases hg : s.openedFiles.get id with
  | none => rfl
  | some e =>
    have hnn : 0 ≤ id.toInt := by
      have hroom := h.serial.room
      have hlt := h.below
      rw [BitVec.toInt_eq_toNat_of_lt (by omega)]
      exact Int.natCast_nonneg _
    have hrec := h.serial.inv.recorded id e.1 e.2 hg
    rw [Recorded, if_pos hnn] at hrec
    obtain ⟨fp, kind, hdata, -⟩ := hrec
    rw [streamOf, hg, Option.bind_some, hdata] at hnone
    cases hnone

/-- The close of a live handle, by either built-in. -/
theorem close_live {c : Call} {args : List Val} {k : Nat} (h : s.Serial)
    (hc : c = .fclose args ∨ c = .pclose args) (hid : handleId wild args = some id)
    (hk : s.streamOf id = some k) :
    ∃ s' kind, step wild s c = .ok s' ∧ (k, kind) ∈ s.libc.opened ∧
      s'.libc.closed = (k, kind) :: s.libc.closed ∧
      ∀ i, s'.streamOf i = if i = id then none else s.streamOf i := by
  obtain ⟨⟨p, res⟩, hg, hfile⟩ := Option.bind_eq_some_iff.mp hk
  obtain ⟨s', fp, kind, hclose, hcl⟩ := closeHandle_some h.inv (target_eq_some.mpr ⟨hid, hg⟩)
  obtain rfl : fp.birth = k := by
    rw [hcl.was] at hg
    cases hg
    exact Option.some.inj hfile
  refine ⟨s', kind, step_eq_ok.mpr ⟨.undefined, ?_⟩, h.logged.openKind fp kind hcl.isOpen,
    hcl.libc.closed, fun i => ?_⟩
  · rcases hc with rfl | rfl
    · exact hclose
    · exact hclose
  · rw [streamOf, hcl.get]
    split
    · rfl
    · rfl

/-- Every run of the built-ins returns, and after it and after the bulk close every stream
was closed at most once, or exactly once, by the function that belongs to what opened it.
A handle that has stopped designating a stream never designates one again, and `fclose` or
`pclose` of one that designates a stream closes this by the function of its kind. -/
theorem handle_lifecycle (wild : JsNumber → CInt) (calls : List Call)
    (hr : Along (step wild) Regular (installFileLib .init) calls) :
    (∃ s s', exec (step wild) (installFileLib .init) calls = .ok s ∧
      uninstallFileLib s = .ok s' ∧
      (s.libc.opened.map Prod.fst).Nodup ∧ (s.libc.closed.map Prod.fst).Nodup ∧
      (∀ e ∈ s.libc.closed, e ∈ s.libc.opened) ∧
      s'.libc.opened = s.libc.opened ∧ s'.libc.closed.Perm s'.libc.opened) ∧
    (∀ before during after s₁ s₂ s₃ id k, calls = before ++ (during ++ after) →
      exec (step wild) (installFileLib .init) before = .ok s₁ →
      exec (step wild) s₁ during = .ok s₂ → exec (step wild) s₂ after = .ok s₃ →
      s₁.streamOf id = some k → s₂.streamOf id = none → s₃.streamOf id = none) ∧
    ∀ before c after args s₁ id k, calls = before ++ c :: after →
      c = .fclose args ∨ c = .pclose args →
      exec (step wild) (installFileLib .init) before = .ok s₁ →
      handleId wild args = some id → s₁.streamOf id = some k →
      ∃ s₂ kind, step wild s₁ c = .ok s₂ ∧ (k, kind) ∈ s₁.libc.opened ∧
        s₂.libc.closed = (k, kind) :: s₁.libc.closed ∧
        ∀ i, s₂.streamOf i = if i = id then none else s₁.streamOf i := by
  refine ⟨?_, ?_, ?_⟩
  · obtain ⟨s, hs, h⟩ := exec_progress (fun _ _ h hr => serial_step h hr) serial_install hr
    obtain ⟨s', hs', hopened, hperm⟩ := uninstall_ok h
    exact ⟨s, s', hs, hs', h.logged.nodup_opened, h.logged.nodup_closed, h.logged.matched,
      hopened, hperm⟩
  · rintro before during after s₁ s₂ s₃ id k rfl hs₁ hs₂ hs₃ hk hnone
    obtain ⟨hr₁, hr'⟩ := along_append.mp hr
    obtain ⟨hr₂, hr₃⟩ := along_append.mp (hr' s₁ hs₁)
    have h₁ := serial_exec serial_install hr₁ hs₁
    have hlt₁ : id.toNat < s₁.libc.streams.next := by
      obtain ⟨e, he, -⟩ := Option.bind_eq_some_iff.mp hk
      exact h₁.young.ids id e he
    have h₂ : Issued id s₂ :=
      exec_invariant (fun _ _ _ h hr hs => Issued.step h hr hs) ⟨h₁, hlt₁⟩ hr₂ hs₂
    have h₃ : Retired id s₃ :=
      exec_invariant (fun _ _ _ h hr hs => Retired.step h hr hs) (h₂.retired hnone)
        (hr₃ s₂ hs₂) hs₃
    rw [streamOf, h₃.gone]
    rfl
  · rintro before c after args s₁ id k rfl hc hs₁ hid hk
    exact close_live (serial_exec serial_install (along_append.mp hr).1 hs₁) hc hid hk

theorem opened_step {c : Call} (h : s.Serial) (hr : Regular s c) (hs : step wild s c = .ok s') :
    s'.libc.opened.length ≤ s.libc.opened.length + 1 := by
  rcases (step_cases h hr hs).2 with hsame | ⟨id, p, fp, kind, ho⟩ | ⟨id, p, fp, kind, hc⟩
  · rw [hsame.libc.opened]
    exact Nat.le_succ _
  · rw [ho.opened, List.length_cons]
  · rw [hc.libc.opened]
    exact Nat.le_succ _

/-- `popen("ls", "r")` answers 0, and `fclose(0)` closes it as a pipe. -/
theorem handle_lifecycle_pipe : ∃ s s',
    exec (step fun _ => 0) (installFileLib .init)
      [.popen [.string [108, 115], .string [114]] ⟨16, [97, 10], 16⟩,
        .fclose [.number (.finite 0)]] = .ok s ∧
      s.libc.closed = [(0, .pipe)] ∧ s.streamOf 0 = none ∧
      uninstallFileLib s = .ok s' ∧ s'.libc.closed.Perm s'.libc.opened := by
  have hr₀ : Regular (installFileLib .init)
      (.popen [.string [108, 115], .string [114]] ⟨16, [97, 10], 16⟩) := by
    refine ⟨fun path mode rest heq => ?_, by decide⟩
    cases heq
    exact ⟨by decide, by decide, fun _ => ⟨by decide, rfl⟩⟩
  obtain ⟨⟨s, s', hs, hs', -, -, -, -, hperm⟩, -, hclose⟩ := handle_lifecycle (fun _ => 0)
    [.popen [.string [108, 115], .string [114]] ⟨16, [97, 10], 16⟩, .fclose [.number (.finite 0)]]
    ⟨hr₀, fun s₁ hs₁ => ⟨⟨trivial, Nat.lt_of_le_of_lt (opened_step serial_install hr₀ hs₁)
      (by decide)⟩, fun _ _ => trivial⟩⟩
  obtain ⟨s₁, hs₁, hopened, hclosed, hk⟩ : ∃ s₁, exec (step fun _ => 0) (installFileLib .init)
      [.popen [.string [108, 115], .string [114]] ⟨16, [97, 10], 16⟩] = .ok s₁ ∧
      s₁.libc.opened = [(0, .pipe)] ∧ s₁.libc.closed = [] ∧ s₁.streamOf 0 = some 0 :=
    ⟨_, rfl, rfl, rfl, rfl⟩
  obtain ⟨s₂, kind, hs₂, hkind, hlog, hnone⟩ := hclose
    [.popen [.string [108, 115], .string [114]] ⟨16, [97, 10], 16⟩] (.fclose [.number (.finite 0)])
    [] [.number (.finite 0)] s₁ 0 0 rfl (.inl rfl) hs₁ (by decide) hk
  have hsame : s₂ = s := by
    have hlast : exec (step fun _ => 0) s₁ [.fclose [.number (.finite 0)]] = .ok s₂ :=
      exec_cons_eq_ok.mpr ⟨s₂, hs₂, rfl⟩
    have hrun : exec (step fun _ => 0) (installFileLib .init)
        ([.popen [.string [108, 115], .string [114]] ⟨16, [97, 10], 16⟩] ++
          [.fclose [.number (.finite 0)]]) = .ok s₂ :=
      exec_append.mpr ⟨s₁, hs₁, hlast⟩
    exact Except.ok.inj (hrun.symm.trans hs)
  subst hsame
  rw [hopened, List.mem_singleton] at hkind
  obtain rfl : kind = .pipe := congrArg Prod.snd hkind
  rw [hclosed] at hlog
  exact ⟨s₂, s', hs, hlog, (hnone 0).trans (if_pos rfl), hs', hperm⟩

end FileLib

end ShellJs
