import ShellJs.Lib.Runs
import ShellJs.File.Cat
import ShellJs.File.Readers

/-!
# Streams that stay open

`_read_text_file` and `read_file` close the stream they opened at every exit but one: when
`fread` does not answer the size, they release the block and return. For `_read_text_file`
that is so for every file of two bytes or more.

* `ReadEffect.balanced_iff`: which exits close the stream, for both readers.
* `reads_kept_iff`: a run of reads leaves the open streams as they were exactly when no
  read of it takes that exit.
* `readers_close_iff`: the two readers, and any sequence of `cat` calls.
-/

namespace ShellJs

open Runs

namespace Libc

/-- Every stream that was open is open, and new ones have new births. -/
structure Grows (libc libc' : Libc) : Prop where
  kept : ∀ fp kind, libc.kindOf fp = some kind → libc'.kindOf fp = some kind
  next : libc.streams.next ≤ libc'.streams.next

variable {libc libc₁ libc' : Libc} {file : Addr}

theorem Grows.refl (libc : Libc) : Grows libc libc := ⟨fun _ _ h => h, Nat.le_refl _⟩

theorem Grows.trans (h : Grows libc libc₁) (h' : Grows libc₁ libc') : Grows libc libc' :=
  ⟨fun fp kind hk => h'.kept fp kind (h.kept fp kind hk), Nat.le_trans h.next h'.next⟩

theorem kindOf_congr (hcells : libc'.streams.cells = libc.streams.cells) (fp : Ptr) :
    libc'.kindOf fp = libc.kindOf fp :=
  congrArg (Option.map Stream.kind) (Heap.deref_congr (congrFun hcells fp.addr))

theorem LeftOpen.not_balanced (h : LeftOpen file libc libc') : ¬ Balanced libc libc' := by
  rintro (rfl | hv)
  · exact List.cons_ne_self _ _ h.opened.symm
  · exact List.cons_ne_self _ _ (hv.closed.symm.trans h.closed)

theorem Balanced.grows (h : Balanced libc libc') : Grows libc libc' := by
  rcases h with rfl | hv
  · exact .refl libc'
  · exact ⟨fun fp _ hk => (kindOf_congr hv.cells fp).trans hk, hv.next ▸ Nat.le_succ _⟩

theorem LeftOpen.grows (h : LeftOpen file libc libc') : Grows libc libc' := by
  refine ⟨fun fp kind hk => ?_, h.next ▸ Nat.le_succ _⟩
  obtain ⟨stream, hd, -⟩ := kindOf_eq_some.mp hk
  have hne : fp.addr ≠ file := by
    rintro rfl
    have hnone := (Heap.cells_of_deref hd).symm.trans h.wasFree
    cases hnone
  rw [← hk]
  exact congrArg (Option.map Stream.kind) (Heap.deref_congr (h.cells fp.addr hne))

/-- A pointer with a birth to come is that of no open stream. -/
theorem kindOf_fresh {birth : Nat} (hbirth : libc.streams.next ≤ birth) :
    libc.kindOf ⟨file, birth⟩ = none := by
  cases hk : libc.kindOf ⟨file, birth⟩ with
  | none => rfl
  | some kind =>
    obtain ⟨stream, hd, -⟩ := kindOf_eq_some.mp hk
    exact absurd (Heap.birth_lt_of_deref hd) (Nat.not_lt.mpr hbirth)

end Libc

open Libc

variable {path : Bytes} {env : ReadEnv} {size : UInt64} {libc libc' : Libc}

/-! ## Which exits close the stream -/

/-- `fread` is reached, and does not answer what it is compared with, or the block is too
small for the answer. -/
def Unread (room : Nat) (items : UInt64) (env : ReadEnv) (libc : Libc) : Prop :=
  Reads env libc ∧ (items ≠ env.tell ∨ room ≤ env.tell.toNat)

theorem ReadEffect.balanced_iff {block : Bytes} {items : UInt64}
    {r : Except Fault (Libc × UInt64 × Option Bytes)} (h : ReadEffect block items env size libc r) :
    (∃ libc' size' data, r = .ok (libc', size', data) ∧ libc.Balanced libc') ↔
      ¬ Unread block.length items env libc := by
  cases h with
  | notOpened h => exact iff_of_true ⟨_, _, _, rfl, .inl rfl⟩ fun hu => h hu.1.opens
  | notSought _ h hv =>
    refine iff_of_true ⟨_, _, _, rfl, .inr hv⟩ fun hu => ?_
    rw [hu.1.seekEnd] at h
    cases h
  | noBlock _ _ h hv =>
    refine iff_of_true ⟨_, _, _, rfl, .inr hv⟩ fun hu => ?_
    rw [hu.1.allocated] at h
    cases h
  | overrun hr h =>
    refine iff_of_false ?_ (not_not.mpr ⟨hr, .inr ?_⟩)
    · rintro ⟨_, _, _, h, -⟩
      cases h
    · omega
  | short hr _ h hl =>
    refine iff_of_false ?_ (not_not.mpr ⟨hr, .inl h⟩)
    rintro ⟨_, _, _, h, hb⟩
    cases h
    exact hl.not_balanced hb
  | noRoom hr _ h =>
    refine iff_of_false ?_ (not_not.mpr ⟨hr, .inr h⟩)
    rintro ⟨_, _, _, h, -⟩
    cases h
  | full _ hitems h hv =>
    refine iff_of_true ⟨_, _, _, rfl, .inr hv⟩ fun hu => ?_
    exact hu.2.elim (fun hne => hne hitems) fun hle => Nat.not_le.mpr h hle

/-- The file has more than one byte, or is shorter than `ftell` said. -/
def TextLeaks (env : ReadEnv) (libc : Libc) : Prop :=
  Reads env libc ∧ ¬ (env.tell = 0 ∨ env.tell = 1 ∧ env.content ≠ [])

/-- The file is shorter than `ftell` said, or `ftell` failed. -/
def FileLeaks (env : ReadEnv) (libc : Libc) : Prop :=
  Reads env libc ∧ (env.content.length < env.tell.toNat ∨ env.tell.toNat = 2 ^ 64 - 1)

theorem unread_text_iff :
    Unread (zeroBytes (env.tell + 1)).length (itemsOf env.tell 1 env.content) env libc ↔
      TextLeaks env libc := by
  refine and_congr_right fun _ => ?_
  rw [Ne, itemsOf_text_iff, length_zeroBytes]
  refine ⟨fun h => h.elim id fun hroom hshort => ?_, Or.inl⟩
  -- a block for at most one byte has room for the NUL
  rcases hshort with hz | ⟨h1, -⟩
  · rw [hz] at hroom
    exact absurd hroom (by decide)
  · rw [h1] at hroom
    exact absurd hroom (by decide)

theorem unread_file_iff :
    Unread (List.replicate (env.tell + 1).toNat (0 : UInt8)).length (itemsOf 1 env.tell env.content)
        env libc ↔ FileLeaks env libc := by
  refine and_congr_right fun _ => ?_
  have htell := env.tell.toNat_lt
  rw [Ne, itemsOf_file_iff, List.length_replicate, UInt64.toNat_add, UInt64.toNat_one]
  omega

theorem readFile_balanced_iff (path : Bytes) (env : ReadEnv) (size : UInt64) (libc : Libc) :
    (∃ libc' size' data, readFile path env size libc = .ok (libc', size', data) ∧
      libc.Balanced libc') ↔ ¬ FileLeaks env libc :=
  (readFile_effect path env size libc).balanced_iff.trans (not_congr unread_file_iff)

theorem readTextFile_balanced_iff (path : Bytes) (env : ReadEnv) (libc : Libc) :
    (∃ libc' buff, readTextFile path env libc = .ok (libc', buff) ∧ libc.Balanced libc') ↔
      ¬ TextLeaks env libc := by
  obtain ⟨r, heffect, hread⟩ := readText_effect path env libc
  rw [← unread_text_iff, ← heffect.balanced_iff, hread]
  constructor
  · rintro ⟨libc', buff, hok, hb⟩
    obtain ⟨⟨libc₁, size', data⟩, rfl, hok⟩ := bind_eq_ok.mp hok
    cases hok
    exact ⟨_, _, _, rfl, hb⟩
  · rintro ⟨libc', size', data, rfl, hb⟩
    exact ⟨_, _, rfl, hb⟩

/-! ## Runs of reads -/

/-- A path and what the environment decides about reading it. -/
abbrev Read := Bytes × ReadEnv

/-- A call of `cat`: its arguments, and what the environment decides about each file. -/
abbrev CatCall := List Val × (Nat → ReadEnv)

def readRun (libc : Libc) (r : Read) : Except Fault Libc := do
  let (libc, _) ← readTextFile r.1 r.2 libc
  return libc

def catRun (libc : Libc) (c : CatCall) : Except Fault Libc := do
  let (libc, _) ← jscCat c.1 c.2 libc
  return libc

/-- The reads of a call, in order. -/
def readsOf (c : CatCall) : List Read := (paths c.1).zipIdx.map fun r => (r.1, c.2 r.2)

theorem readAll_exec (envs : Nat → ReadEnv) (k : Nat) (l : List Bytes) (libc : Libc) :
    (readAll readTextFile envs k l libc >>= fun r => .ok r.1) =
      exec readRun libc ((l.zipIdx k).map fun r => (r.1, envs r.2)) := by
  induction l generalizing k libc with
  | nil => rfl
  | cons path l ih =>
    rw [List.zipIdx_cons, List.map_cons, readAll, exec, readRun]
    cases readTextFile path (envs k) libc with
    | error e => rfl
    | ok r =>
      simp only [ok_bind]
      show _ = exec readRun r.1 _
      rw [← ih]
      cases readAll readTextFile envs (k + 1) l r.1 <;> rfl

theorem catRun_eq (libc : Libc) (c : CatCall) : catRun libc c = exec readRun libc (readsOf c) := by
  rw [catRun, jscCat_eq, catWith_eq, readsOf, ← readAll_exec]
  cases readAll readTextFile c.2 0 (paths c.1) libc <;> rfl

theorem readRun_eq_ok (r : Read) : readRun libc r = .ok libc' ↔
    ∃ buff, readTextFile r.1 r.2 libc = .ok (libc', buff) := by
  rw [readRun]
  cases readTextFile r.1 r.2 libc with
  | error e => exact iff_of_false (fun h => nomatch h) fun ⟨_, h⟩ => nomatch h
  | ok r =>
    constructor
    · intro h
      cases h
      exact ⟨r.2, rfl⟩
    · rintro ⟨buff, h⟩
      cases h
      rfl

theorem readRun_balanced (r : Read) (h : ¬ TextLeaks r.2 libc) :
    ∃ libc', readRun libc r = .ok libc' ∧ libc.Balanced libc' := by
  obtain ⟨libc', buff, hread, hb⟩ := (readTextFile_balanced_iff r.1 r.2 libc).mpr h
  exact ⟨libc', (readRun_eq_ok r).mpr ⟨buff, hread⟩, hb⟩

/-- A read that returns has closed its stream, or left it open. -/
theorem readRun_cases (r : Read) (h : readRun libc r = .ok libc') :
    libc.Balanced libc' ∨ libc.LeftOpen r.2.file libc' := by
  obtain ⟨buff, hread⟩ := (readRun_eq_ok r).mp h
  obtain ⟨res, heffect, hres⟩ := readText_effect r.1 r.2 libc
  rw [hres] at hread
  obtain ⟨⟨libc₁, size', data⟩, rfl, hok⟩ := bind_eq_ok.mp hread
  cases hok
  exact heffect.returned

theorem readRun_grows (r : Read) (h : readRun libc r = .ok libc') : libc.Grows libc' :=
  (readRun_cases r h).elim Balanced.grows LeftOpen.grows

theorem reads_grow {reads : List Read} (h : exec readRun libc reads = .ok libc') :
    libc.Grows libc' :=
  exec_keeps (fun libc' => libc.Grows libc')
    (fun _ r _ hg hr => hg.trans (readRun_grows r hr)) (.refl libc) h

theorem textLeaks_congr (hcells : libc'.streams.cells = libc.streams.cells) :
    TextLeaks env libc' ↔ TextLeaks env libc := by
  have hopens : Opens env libc' ↔ Opens env libc := by rw [Opens, hcells, Opens]
  exact and_congr_left fun _ => ⟨fun h => ⟨hopens.mp h.opens, h.seekEnd, h.allocated⟩,
    fun h => ⟨hopens.mpr h.opens, h.seekEnd, h.allocated⟩⟩

/-- A stream that was left open is open to the end of the run. -/
theorem leftOpen_not_kept {file : Addr} {libc₁ : Libc} (h : libc.LeftOpen file libc₁)
    (hg : libc₁.Grows libc') : libc'.kindOf ⟨file, libc.streams.next⟩ ≠
      libc.kindOf ⟨file, libc.streams.next⟩ := by
  rw [hg.kept _ _ h.isOpen, kindOf_fresh (Nat.le_refl _)]
  exact fun h => nomatch h

theorem reads_kept_iff (reads : List Read) (libc : Libc) :
    (∃ libc', exec readRun libc reads = .ok libc' ∧ ∀ fp, libc'.kindOf fp = libc.kindOf fp) ↔
      ∀ r ∈ reads, ¬ TextLeaks r.2 libc := by
  induction reads generalizing libc with
  | nil => exact iff_of_true ⟨libc, rfl, fun _ => rfl⟩ fun _ h => nomatch h
  | cons r reads ih =>
    rw [List.forall_mem_cons]
    constructor
    · rintro ⟨libc', hrun, hkept⟩
      obtain ⟨libc₁, hr, hrest⟩ := exec_cons_eq_ok.mp hrun
      rcases readRun_cases r hr with hb | hl
      · refine ⟨?_, fun r' hr' => ?_⟩
        · obtain ⟨buff, hread⟩ := (readRun_eq_ok r).mp hr
          exact (readTextFile_balanced_iff r.1 r.2 libc).mp ⟨libc₁, buff, hread, hb⟩
        · have hsame := kindOf_congr hb.cells
          rw [← textLeaks_congr hb.cells]
          exact (ih libc₁).mp ⟨libc', hrest, fun fp => (hkept fp).trans (hsame fp).symm⟩ r' hr'
      · exact absurd (hkept _) (leftOpen_not_kept hl (reads_grow hrest))
    · rintro ⟨hr, hrest⟩
      obtain ⟨libc₁, hread, hb⟩ := readRun_balanced r hr
      obtain ⟨libc', hrun, hkept⟩ := (ih libc₁).mpr fun r' hr' => by
        rw [textLeaks_congr hb.cells]
        exact hrest r' hr'
      exact ⟨libc', (exec_cons_ok hread).trans hrun,
        fun fp => (hkept fp).trans (kindOf_congr hb.cells fp)⟩

/-- `_read_text_file` closes what it opened exactly when the file is empty, or has one byte and
delivers it, or is not read; `read_file` exactly when the file delivers all bytes that `ftell`
counted, or is not read. Any calls of `cat` leave the open streams as they were exactly when
no file in their arguments makes `_read_text_file` leave its stream open. -/
theorem readers_close_iff (path : Bytes) (env : ReadEnv) (size : UInt64) (libc : Libc)
    (calls : List CatCall) :
    ((∃ libc' buff, readTextFile path env libc = .ok (libc', buff) ∧ libc.Balanced libc') ↔
      ¬ TextLeaks env libc) ∧
    ((∃ libc' size' data, readFile path env size libc = .ok (libc', size', data) ∧
      libc.Balanced libc') ↔ ¬ FileLeaks env libc) ∧
    ((∃ libc', exec catRun libc calls = .ok libc' ∧ ∀ fp, libc'.kindOf fp = libc.kindOf fp) ↔
      ∀ c ∈ calls, ∀ r ∈ readsOf c, ¬ TextLeaks r.2 libc) := by
  refine ⟨readTextFile_balanced_iff path env libc, readFile_balanced_iff path env size libc, ?_⟩
  rw [exec_flatMap catRun_eq, reads_kept_iff]
  simp only [List.mem_flatMap, forall_exists_index, and_imp]
  exact ⟨fun h c hc r hr => h r c hc hr, fun h r c hc hr => h c hc r hr⟩

/-- A file of two bytes that `_read_text_file` reads in full, and one that has lost a byte when
`read_file` reads it: both streams stay open. So does that of a `cat` of the first. -/
theorem readers_leave_open :
    (∃ libc, readTextFile [112] ⟨16, [97, 98], true, 2, true⟩ .init = .ok (libc, none) ∧
      libc.opened = [(0, .file)] ∧ libc.closed = []) ∧
    (∃ libc, readFile [112] ⟨16, [97], true, 2, true⟩ 0 .init = .ok (libc, 2, none) ∧
      libc.opened = [(0, .file)] ∧ libc.closed = []) ∧
    ∃ libc, exec catRun .init [([.string [112]], fun _ => ⟨16, [97, 98], true, 2, true⟩)] =
      .ok libc ∧ libc.kindOf ⟨16, 0⟩ = some .file ∧ Libc.init.kindOf ⟨16, 0⟩ = none :=
  ⟨⟨_, rfl, rfl, rfl⟩, ⟨_, rfl, rfl, rfl⟩, _, rfl, rfl, rfl⟩

end ShellJs
