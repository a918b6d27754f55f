import ShellJs.File.Encoding

/-!
# What `cat` answers

`jsc_cat` counts the files that it tries, not those that it reads, and chooses the shape of
its answer by the count.

* `catWith`: `jsc_cat` with any reader in the place of `_read_text_file`.
* `readAll`: the reads of `cat`, one for every C string in the arguments, with their outcomes.
* `catWith_eq`: the loops of `cat` are these reads.
* `cat_shape_iff`: when the answer is that of `realpath` for the contents that were read.
-/

namespace ShellJs

/-- A function like `_read_text_file`. -/
abbrev Reader := Bytes → ReadEnv → Libc → Except Fault (Libc × Option (Bytes × UInt64))

def catItemWith (read : Reader) (envs : Nat → ReadEnv) (acc : Cat) (item : Val) :
    Except Fault Cat :=
  match item with
  | .string s =>
    match toCString s with
    | none => .ok acc
    | some path => do
      let (libc, buff) ← read path (envs acc.c) acc.libc
      return ⟨libc, pushFile buff acc.array, acc.c + 1⟩
  | _ => .ok acc

def catArgWith (read : Reader) (envs : Nat → ReadEnv) (acc : Cat) (obj : Val) :
    Except Fault Cat :=
  match obj with
  | .array items => items.foldlM (catItemWith read envs) acc
  | obj => catItemWith read envs acc obj

/-- `jsc_cat` with `read` for `_read_text_file`. -/
def catWith (read : Reader) (args : List Val) (envs : Nat → ReadEnv) (libc : Libc) :
    Except Fault (Libc × Val) := do
  let acc ← args.foldlM (catArgWith read envs) ⟨libc, [], 0⟩
  return (acc.libc, encode acc.c acc.array)

theorem jscCat_eq : jscCat = catWith readTextFile := rfl

/-! ## The reads -/

/-- The string that `v7_mk_string(v7, buff, file_size, 1)` makes. -/
def contentOf (buff : Bytes × UInt64) : Bytes := buff.1.take buff.2.toNat

/-- The reads of the paths in order, the first of them with the environment `envs k`: the
content of every file that was read. -/
def readAll (read : Reader) (envs : Nat → ReadEnv) :
    Nat → List Bytes → Libc → Except Fault (Libc × List (Option Bytes))
  | _, [], libc => .ok (libc, [])
  | k, path :: paths, libc => do
    let (libc, buff) ← read path (envs k) libc
    let (libc, outcomes) ← readAll read envs (k + 1) paths libc
    return (libc, buff.map contentOf :: outcomes)

variable {read : Reader} {envs : Nat → ReadEnv} {libc libc' : Libc} {outcomes : List (Option Bytes)}

theorem length_readAll {k : Nat} {l : List Bytes}
    (h : readAll read envs k l libc = .ok (libc', outcomes)) : outcomes.length = l.length := by
  induction l generalizing k libc outcomes with
  | nil =>
    cases h
    rfl
  | cons path l ih =>
    obtain ⟨⟨libc₁, buff⟩, -, h⟩ := bind_eq_ok.mp h
    obtain ⟨⟨libc₂, outcomes₂⟩, hrest, h⟩ := bind_eq_ok.mp h
    cases h
    exact congrArg Nat.succ (ih hrest)

/-- One round of the loop. -/
def catStep (read : Reader) (envs : Nat → ReadEnv) (acc : Cat) (path : Bytes) :
    Except Fault Cat := do
  let (libc, buff) ← read path (envs acc.c) acc.libc
  return ⟨libc, pushFile buff acc.array, acc.c + 1⟩

theorem catItemWith_eq (acc : Cat) (v : Val) : catItemWith read envs acc v =
    match itemPath v with
    | some path => catStep read envs acc path
    | none => .ok acc := by
  cases v with
  | string s =>
    simp only [catItemWith, itemPath, itemString, Option.bind_some]
    cases toCString s <;> rfl
  | _ => rfl

theorem catArgWith_eq (acc : Cat) (v : Val) :
    catArgWith read envs acc v = (argItems v).foldlM (catItemWith read envs) acc := by
  cases v with
  | array items => rfl
  | _ => simp only [catArgWith, argItems, List.foldlM_cons, List.foldlM_nil, bind_pure]

theorem pushFile_eq (buff : Option (Bytes × UInt64)) (xs : List Bytes) :
    pushFile buff (xs.map .string) = (xs ++ (buff.map contentOf).toList).map .string := by
  cases buff with
  | none => exact congrArg (List.map Val.string) (List.append_nil xs).symm
  | some buff =>
    rw [List.map_append]
    rfl

/-- The array has the contents that were read, and `c` is the number of reads. -/
theorem foldlM_catStep (l : List Bytes) (libc : Libc) (xs : List Bytes) (c : Nat) :
    l.foldlM (catStep read envs) ⟨libc, xs.map .string, c⟩ =
      readAll read envs c l libc >>= fun r =>
        .ok ⟨r.1, (xs ++ r.2.filterMap id).map .string, c + r.2.length⟩ := by
  induction l generalizing libc xs c with
  | nil =>
    rw [readAll, ok_bind, List.filterMap_nil, List.append_nil]
    rfl
  | cons path l ih =>
    rw [List.foldlM_cons, catStep, readAll]
    cases read path (envs c) libc with
    | error e => rfl
    | ok r =>
      obtain ⟨libc₁, buff⟩ := r
      simp only [ok_bind, pushFile_eq]
      show l.foldlM (catStep read envs) ⟨libc₁, _, c + 1⟩ = _
      rw [ih]
      cases readAll read envs (c + 1) l libc₁ with
      | error e => rfl
      | ok r =>
        have hcons : (buff.map contentOf).toList ++ r.2.filterMap id =
            (buff.map contentOf :: r.2).filterMap id := by
          cases buff <;> rfl
        have hc : c + 1 + r.2.length = c + (buff.map contentOf :: r.2).length := by
          rw [List.length_cons]
          omega
        simp only [ok_bind, List.append_assoc, hcons, hc]
        rfl

theorem catWith_eq (read : Reader) (args : List Val) (envs : Nat → ReadEnv) (libc : Libc) :
    catWith read args envs libc =
      readAll read envs 0 (paths args) libc >>= fun r =>
        .ok (r.1, encode r.2.length ((r.2.filterMap id).map .string)) := by
  have hfold := @foldlM_catStep read envs (paths args) libc [] 0
  rw [catWith, foldlM_paths catArgWith_eq catItemWith_eq]
  simp only [List.map_nil, List.nil_append, Nat.zero_add] at hfold
  rw [hfold]
  cases readAll read envs 0 (paths args) libc <;> rfl

/-! ## The shape -/

/-- With `n` elements counted for a list of at most `n`, the answer is that of the list when
nothing was miscounted, or when both are arrays. -/
theorem encode_eq_enc_iff {n : Nat} {xs : List Bytes} (hle : xs.length ≤ n) :
    encode n (xs.map .string) = enc xs ↔ n ≤ 1 ∨ 2 ≤ xs.length := by
  match n with
  | 0 =>
    rw [List.length_eq_zero_iff.mp (Nat.le_zero.mp hle)]
    exact iff_of_true rfl (.inl (by decide))
  | 1 =>
    match xs with
    | [] => exact iff_of_true rfl (.inl (by decide))
    | [s] => exact iff_of_true rfl (.inl (by decide))
    | s :: t :: rest => exact absurd hle (by simp)
  | n + 2 =>
    have henc : encode (n + 2) (xs.map .string) = .array (xs.map .string) := rfl
    rw [henc, eq_comm, enc_eq_array_iff]
    exact ⟨fun h => .inr h.1, fun h => ⟨h.resolve_left (by omega), rfl⟩⟩

/-- Whatever the reads of `cat` deliver, its answer is that of `realpath` for the contents that
were read exactly when at most one file was tried or at least two were read. Strings as
arguments of their own or in one array make no difference. -/
theorem cat_shape_iff (read : Reader) (envs : Nat → ReadEnv) (libc : Libc) :
    (∀ args libc' outcomes, readAll read envs 0 (paths args) libc = .ok (libc', outcomes) →
      ∃ v, catWith read args envs libc = .ok (libc', v) ∧
        (v = enc (outcomes.filterMap id) ↔
          (paths args).length ≤ 1 ∨ 2 ≤ (outcomes.filterMap id).length)) ∧
      (∀ xs : List Bytes, catWith read (xs.map .string) envs libc =
        catWith read [.array (xs.map .string)] envs libc) ∧
      jscCat = catWith readTextFile := by
  refine ⟨fun args libc' outcomes hread => ?_, fun xs => ?_, jscCat_eq⟩
  · refine ⟨_, by rw [catWith_eq, hread, ok_bind], ?_⟩
    rw [← length_readAll hread]
    exact encode_eq_enc_iff (List.length_filterMap_le id outcomes)
  · rw [catWith_eq, catWith_eq, paths, paths, strings_array]

/-- Two files of one byte. -/
theorem cat_shape_iff_two : ∃ libc,
    jscCat [.array [.string [97], .null], .string [98]] (fun _ => ⟨16, [120], true, 1, true⟩)
      .init = .ok (libc, .array [.string [120], .string [120]]) := by
  obtain ⟨libc', hread⟩ : ∃ libc', readAll readTextFile (fun _ => ⟨16, [120], true, 1, true⟩) 0
      (paths [.array [.string [97], .null], .string [98]]) .init =
        .ok (libc', [some [120], some [120]]) := ⟨_, rfl⟩
  obtain ⟨hshape, -, hcat⟩ :=
    cat_shape_iff readTextFile (fun _ => ⟨16, [120], true, 1, true⟩) .init
  obtain ⟨v, hv, hiff⟩ := hshape _ libc' _ hread
  refine ⟨libc', ?_⟩
  rw [hcat, hv, hiff.mpr (.inr (by decide))]
  rfl

/-- Of two files the first cannot be opened, and the second has one byte: the answer is an
array with one element. -/
theorem cat_shape_mixed : ∃ libc,
    readAll readTextFile (fun i => ⟨if i = 0 then NULL else 16, [120], true, 1, true⟩) 0
        (paths [.string [97], .string [98]]) .init = .ok (libc, [none, some [120]]) ∧
      jscCat [.string [97], .string [98]]
        (fun i => ⟨if i = 0 then NULL else 16, [120], true, 1, true⟩) .init =
          .ok (libc, .array [.string [120]]) ∧
      Val.array [.string [120]] ≠ enc ([none, some [120]].filterMap id) :=
  ⟨_, rfl, rfl, fun h => nomatch h⟩

end ShellJs
