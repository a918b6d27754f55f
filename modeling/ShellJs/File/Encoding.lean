import ShellJs.File.TextFile

/-!
# Lists of strings as JavaScript values

`ls`, `realpath` and `cat` answer a list as `undefined`, as its only element or as an array
(`enc`). `realpath` and `cat` take strings and arrays of strings in any mixture and work
on the strings in them, one level deep (`strings`). The two fit together (`strings_enc`).

* `encode`: the end of the built-ins, which count the elements apart from the array.
* `foldlM_paths`: their two loops are one over the C strings of the arguments.
-/

namespace ShellJs

/-- A string without a NUL, as libc makes it. -/
structure CString where
  bytes : Bytes
  noNul : 0 ∉ bytes

/-- `v7_mk_string(v7, path, ~0, 1)`. -/
def mkString (path : CString) : Val := .string path.bytes

/-! ## Answers -/

/-- A list of strings as the value of a built-in. -/
def enc : List Bytes → Val
  | [] => .undefined
  | [s] => .string s
  | s :: t :: rest => .array ((s :: t :: rest).map .string)

/-- The end of `jsc_ls` and `jsc_realpath`. -/
def encode (c : Nat) (array : List Val) : Val :=
  if c = 0 then .undefined
  else if c = 1 then arrayGet array 0
  else .array array

theorem encode_length (xs : List Bytes) : encode xs.length (xs.map .string) = enc xs := by
  match xs with
  | [] => rfl
  | [s] => rfl
  | s :: t :: rest => rfl

/-- A list of two or more is an array, and so is no other. -/
theorem enc_eq_array_iff (xs : List Bytes) (items : List Val) :
    enc xs = .array items ↔ 2 ≤ xs.length ∧ items = xs.map .string := by
  match xs with
  | [] => exact iff_of_false (fun h => nomatch h) fun h => absurd h.1 (by decide)
  | [s] => exact iff_of_false (fun h => nomatch h) fun h => absurd h.1 (Nat.not_succ_le_self 1)
  | s :: t :: rest =>
    constructor
    · intro h
      exact ⟨Nat.le_add_left 2 rest.length, (Val.array.inj h).symm⟩
    · rintro ⟨-, rfl⟩
      rfl

/-! ## Arguments -/

/-- The items that a built-in finds in an argument. -/
def argItems : Val → List Val
  | .array items => items
  | obj => [obj]

def itemString : Val → Option Bytes
  | .string s => some s
  | _ => none

/-- The string that `v7_to_cstring` gives to libc for an item. -/
def itemPath (v : Val) : Option Bytes := (itemString v).bind toCString

/-- The strings in the arguments, with arrays flattened one level. -/
def strings (args : List Val) : List Bytes := (args.flatMap argItems).filterMap itemString

/-- Those of them that `v7_to_cstring` gives to libc. -/
def paths (args : List Val) : List Bytes := (strings args).filterMap toCString

theorem filterMap_itemString (xs : List Bytes) : (xs.map Val.string).filterMap itemString = xs := by
  rw [List.filterMap_map]
  exact List.filterMap_some

theorem strings_enc (xs : List Bytes) : strings [enc xs] = xs := by
  match xs with
  | [] => rfl
  | [s] => rfl
  | s :: t :: rest =>
    show ((s :: t :: rest).map Val.string ++ []).filterMap itemString = _
    rw [List.append_nil, filterMap_itemString]

/-- One array with the strings in it, or the strings as arguments of their own. -/
theorem strings_array (xs : List Bytes) :
    strings [.array (xs.map .string)] = strings (xs.map .string) := by
  have hitems : (xs.map Val.string).flatMap argItems = xs.map Val.string := by
    induction xs with
    | nil => rfl
    | cons s xs ih => exact congrArg (Val.string s :: ·) ih
  rw [strings, strings, hitems]
  exact congrArg (List.filterMap itemString) (List.append_nil _)

section

variable {τ : Type} {item : τ → Val → Except Fault τ} {arg : τ → Val → Except Fault τ}
  {f : τ → Bytes → Except Fault τ}

theorem foldlM_items (hitem : ∀ acc v, item acc v =
      match itemPath v with
      | some path => f acc path
      | none => .ok acc) (items : List Val) (acc : τ) :
    items.foldlM item acc = (items.filterMap itemPath).foldlM f acc := by
  induction items generalizing acc with
  | nil => rfl
  | cons v items ih =>
    rw [List.filterMap_cons, List.foldlM_cons, hitem]
    cases itemPath v with
    | none => exact ih acc
    | some path =>
      rw [List.foldlM_cons]
      exact congrArg (f acc path >>= ·) (funext ih)

/-- The loop over the arguments with the loop over the items in it. -/
theorem foldlM_paths (harg : ∀ acc v, arg acc v = (argItems v).foldlM item acc)
    (hitem : ∀ acc v, item acc v =
      match itemPath v with
      | some path => f acc path
      | none => .ok acc) (args : List Val) (acc : τ) :
    args.foldlM arg acc = (paths args).foldlM f acc := by
  have hpaths : paths args = (args.flatMap argItems).filterMap itemPath :=
    List.filterMap_filterMap
  rw [hpaths, ← foldlM_items hitem]
  clear hpaths
  induction args generalizing acc with
  | nil => rfl
  | cons v args ih =>
    rw [List.foldlM_cons, List.flatMap_cons, List.foldlM_append, harg]
    exact congrArg ((argItems v).foldlM item acc >>= ·) (funext ih)

end

end ShellJs
