import ShellJs.File.Lifecycle

/-!
# Reading a file line by line

* `lines`: the lines of a content, each with its newline if it has one. Put together they
  are the content (`lines_flatten`), and `getline` takes the first of them off
  (`lines_eq_cons`).
* `ReadsContent`: what a reader of the handle is to get: the lines in order, then `null`.
* `readline_never`: no content is read like this. Every call answers `undefined`, and the
  line that it took off the stream is lost.
-/

namespace ShellJs

open Runs

/-! ## Lines -/

/-- The lines of a content. A last line need not end in a newline. -/
def lines : Bytes → List Bytes
  | [] => []
  | c :: rest =>
    if c = 10 then [c] :: lines rest
    else match lines rest with
      | [] => [[c]]
      | line :: more => (c :: line) :: more

theorem lines_cons_of_ne {c : UInt8} {rest : Bytes} (hc : c ≠ 10) :
    lines (c :: rest) = match lines rest with
      | [] => [[c]]
      | line :: more => (c :: line) :: more :=
  if_neg hc

theorem lines_flatten (content : Bytes) : (lines content).flatten = content := by
  induction content with
  | nil => rfl
  | cons c rest ih =>
    by_cases hc : c = 10
    · rw [lines, if_pos hc, List.flatten_cons, ih]
      rfl
    · rw [lines_cons_of_ne hc]
      cases hl : lines rest with
      | nil =>
        rw [hl] at ih
        rw [← ih]
        rfl
      | cons line more =>
        rw [hl] at ih
        rw [← ih]
        rfl

/-- `getline` takes the first line and leaves the others. -/
theorem lines_eq_cons {content : Bytes} (hne : content ≠ []) :
    lines content = (Libc.cutLine content).1 :: lines (Libc.cutLine content).2 := by
  induction content with
  | nil => exact absurd rfl hne
  | cons c rest ih =>
    by_cases hc : c = 10
    · rw [lines, if_pos hc, Libc.cutLine, if_pos hc]
    · rw [lines_cons_of_ne hc, Libc.cutLine, if_neg hc]
      cases rest with
      | nil => rfl
      | cons d rest => rw [ih (List.cons_ne_nil d rest)]

namespace FileLib

variable {wild : JsNumber → CInt} {h : Val} {content input : Bytes} {s s' : FileLib}

/-! ## What a reader is to get -/

/-- The value of the `i`-th call. -/
def expected (content : Bytes) (i : Nat) : Val :=
  match (lines content)[i]? with
  | some line => .string line
  | none => .null

/-- Successive calls of `readline(h)`. -/
def readlines (wild : JsNumber → CInt) (h : Val) :
    List Libc.GetlineEnv → FileLib → Except Fault (FileLib × List Val)
  | [], s => .ok (s, [])
  | env :: envs, s => do
    let (s, v) ← jscReadline wild [h] env s
    let (s, vs) ← readlines wild h envs s
    return (s, v :: vs)

/-- The content is all that there is to read, and `getline` fails at its end only. -/
def Quiet (env : Libc.GetlineEnv) : Prop := env.arrived = [] ∧ env.fails = false

/-- Successive calls give the lines in order, and `null` from the end of the file on. -/
def ReadsContent (wild : JsNumber → CInt) (h : Val) (content : Bytes) (s : FileLib) : Prop :=
  ∀ envs, (∀ env ∈ envs, Quiet env) →
    ∃ s', readlines wild h envs s =
      .ok (s', (List.range envs.length).map (expected content))

/-- `h` is a live handle, and `input` is what its stream delivers. -/
def OpenOn (wild : JsNumber → CInt) (h : Val) (s : FileLib) (input : Bytes) : Prop :=
  ∃ id p res fp stream, s.target wild [h] = some (id, p, res) ∧ res.data.file = some fp ∧
    s.libc.streams.deref fp = some stream ∧ stream.input = input

/-! ## What it gets -/

/-- One call: the first line is off the stream, and the answer is `undefined`. -/
theorem readline_loses (hinv : s.Inv) (ho : OpenOn wild h s input) {env : Libc.GetlineEnv}
    (hq : Quiet env) : ∃ s', jscReadline wild [h] env s = .ok (s', .undefined) ∧ s'.Inv ∧
      OpenOn wild h s' ((lines input).drop 1).flatten := by
  obtain ⟨id, p, res, fp, stream, ht, hfile, hd, rfl⟩ := ho
  have hread := jscReadline_some env hinv ht hfile hd
  rw [hq.1, List.append_nil] at hread
  have hrest : (Libc.lineOf env stream.input).2 = ((lines stream.input).drop 1).flatten := by
    by_cases hnil : stream.input = []
    · rw [Libc.lineOf, if_pos (.inr hnil), hnil]
      rfl
    · rw [Libc.lineOf, if_neg, lines_eq_cons hnil]
      · exact (lines_flatten _).symm
      · rintro (hf | hf)
        · rw [hq.2] at hf
          cases hf
        · exact hnil hf
  rw [hrest] at hread
  have hk (input) : (stream.setInput input).kind = stream.kind := rfl
  refine ⟨_, hread, hinv.same ⟨rfl, Libc.same_store hd (hk _)⟩, id, p, res, fp, _, ht, hfile,
    Libc.deref_store_self hd _, rfl⟩

theorem lines_drop (input : Bytes) (n : Nat) :
    (lines ((lines input).drop 1).flatten).drop n = (lines input).drop (n + 1) := by
  by_cases hnil : input = []
  · simp [hnil, lines]
  · rw [lines_eq_cons hnil, List.drop_one, List.tail_cons, lines_flatten, List.drop_succ_cons]

theorem readlines_lose (hinv : s.Inv) (ho : OpenOn wild h s input) {envs : List Libc.GetlineEnv}
    (hq : ∀ env ∈ envs, Quiet env) :
    ∃ s', readlines wild h envs s = .ok (s', List.replicate envs.length .undefined) ∧
      OpenOn wild h s' ((lines input).drop envs.length).flatten := by
  induction envs generalizing s input with
  | nil =>
    refine ⟨s, rfl, ?_⟩
    rw [List.length_nil, List.drop_zero, lines_flatten]
    exact ho
  | cons env envs ih =>
    obtain ⟨s₁, hs₁, hinv₁, ho₁⟩ := readline_loses hinv ho (hq env List.mem_cons_self)
    obtain ⟨s', hs', ho'⟩ := ih hinv₁ ho₁ fun e he => hq e (List.mem_cons_of_mem env he)
    refine ⟨s', ?_, ?_⟩
    · simp only [readlines, hs₁, ok_bind, hs']
      rfl
    · rw [List.length_cons, ← lines_drop]
      exact ho'

/-- A handle that `fopen` or `popen` has just returned. -/
theorem openOn_opened {kind : StreamKind} {args : List Val} {env : OpenEnv} (hinv : s.Inv)
    (ho : openHandle kind (typeOf kind) args env s = .ok (s', h)) (hne : h ≠ .undefined) :
    OpenOn wild h s' env.input := by
  rcases openHandle_inv hinv ho with ⟨-, hv⟩ | ⟨id, hf, hmem, hid, rfl, hv⟩
  · exact absurd hv hne
  · by_cases hnn : 0 ≤ id.toInt
    · have hget := (@opens_afterOpen s id kind env hinv hid hf hmem).get id
      rw [if_pos rfl, if_pos hnn] at hget
      rw [if_pos hnn] at hv
      refine ⟨id, _, _, ⟨env.file, s.libc.streams.next⟩, ⟨kind, env.input, []⟩,
        target_eq_some.mpr ⟨?_, hget⟩, rfl, ?_, rfl⟩
      · rw [hv, handleId_mkNumber hnn]
      · exact (Heap.deref_put hf).trans (if_pos rfl)
    · rw [if_neg hnn] at hv
      exact absurd hv hne

/-- Whatever the content of the file, its reader does not get it: every call answers
`undefined`, at the end of the file too, and takes a line off the stream all the same. -/
theorem readline_never (calls : List Call)
    (hs : exec (step wild) (installFileLib .init) calls = .ok s)
    (ho : OpenOn wild h s content) :
    ¬ ReadsContent wild h content s ∧
      ∀ envs, (∀ env ∈ envs, Quiet env) →
        ∃ s', readlines wild h envs s = .ok (s', List.replicate envs.length .undefined) ∧
          OpenOn wild h s' ((lines content).drop envs.length).flatten := by
  have hinv := inv_exec hs
  refine ⟨fun hreads => ?_, fun envs hq => readlines_lose hinv ho hq⟩
  have hq : ∀ env ∈ [(⟨[], false, []⟩ : Libc.GetlineEnv)], Quiet env := by
    intro env henv
    rw [List.mem_singleton.mp henv]
    exact ⟨rfl, rfl⟩
  -- the first call decides: its value is a line or `null`, and not `undefined`
  obtain ⟨s₁, hs₁, -⟩ := readlines_lose hinv ho hq
  obtain ⟨s₂, hs₂⟩ := hreads _ hq
  rw [hs₁] at hs₂
  have hval : Val.undefined = expected content 0 :=
    (List.cons.inj (Prod.mk.inj (Except.ok.inj hs₂)).2).1
  unfold expected at hval
  split at hval <;> cases hval

/-- `fopen("a", "r")` as the first call. -/
theorem fopen_first (content : Bytes) : ∃ s,
    jscFopen [.string [97], .string [114]] ⟨16, content, 16⟩ (installFileLib .init) =
      .ok (s, mkNumber 0) ∧
    exec (step fun _ => 0) (installFileLib .init)
      [.fopen [.string [97], .string [114]] ⟨16, content, 16⟩] = .ok s ∧
    OpenOn (fun _ => 0) (mkNumber 0) s content := by
  have hinv := inv_install .init
  have hne : (16 : Addr) ≠ NULL := by decide
  have hopen : openHandle .file (typeOf .file) [.string [97], .string [114]] ⟨16, content, 16⟩
      (installFileLib .init) = .ok (_, mkNumber 0) :=
    openHandle_some hinv (by decide) (by decide) (ResMgn.firstFree_of_nil rfl)
      ⟨hne, rfl⟩ ⟨hne, rfl⟩
  exact ⟨_, hopen, exec_cons_ok (step_eq_ok.mpr ⟨_, hopen⟩),
    openOn_opened hinv hopen (fun h => nomatch h)⟩

/-- The first line of `"a\n"` is not read. -/
theorem readline_first_line : ∃ s,
    jscFopen [.string [97], .string [114]] ⟨16, [97, 10], 16⟩ (installFileLib .init) =
      .ok (s, mkNumber 0) ∧
    ¬ ReadsContent (fun _ => 0) (mkNumber 0) [97, 10] s := by
  obtain ⟨s, hopen, hexec, ho⟩ := fopen_first [97, 10]
  refine ⟨s, hopen, fun hreads => ?_⟩
  have hq : Quiet ⟨[], false, []⟩ := ⟨rfl, rfl⟩
  obtain ⟨s₁, hs₁⟩ := hreads [⟨[], false, []⟩] fun env henv => by
    rw [List.mem_singleton.mp henv]
    exact hq
  obtain ⟨s₂, hs₂, -⟩ := readline_loses (inv_exec hexec) ho hq
  simp only [readlines, hs₂, ok_bind] at hs₁
  cases hs₁

/-- A file with one line and no newline. -/
theorem readline_never_one_line : ∃ s,
    jscFopen [.string [97], .string [114]] ⟨16, [97], 16⟩ (installFileLib .init) =
      .ok (s, mkNumber 0) ∧
    ¬ ReadsContent (fun _ => 0) (mkNumber 0) [97] s := by
  obtain ⟨s, hopen, hexec, ho⟩ := fopen_first [97]
  exact ⟨s, hopen, (readline_never _ hexec ho).1⟩

end FileLib

end ShellJs
