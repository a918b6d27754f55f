import ShellJs.Lib.Bisect
import ShellJs.V7.Value

/-!
# The dictionary of strings

`v_find_string_in_dictionary` of `string.c`: a table of frequent strings, searched by bisection.

* `find_iff`: the search finds the strings of the table.
-/

namespace ShellJs.V7

open Bisect

/-- A string literal, without its NUL. -/
def cBytes (s : String) : List UInt8 := s.toUTF8.data.toList

/-- `v_dictionary_strings`. -/
def vDictionaryStrings : List (List UInt8) :=
  [" is not a function", "Boolean", "CLOSED", "Clubby", "Crypto", "EvalError", "Function",
    "Infinity", "InternalError", "LOG10E", "MAX_VALUE", "MIN_VALUE", "NEGATIVE_INFINITY",
    "Number", "Object", "POSITIVE_INFINITY", "RangeError", "ReferenceError", "RegExp", "SQRT1_2",
    "Socket", "String", "SyntaxError", "TypeError", "UBJSON", "WebSocket", "_modcache", "accept",
    "arguments", "base64_decode", "base64_encode", "boolean", "changed", "charAt", "charCodeAt",
    "concat", "configurable", "connect", "constructor", "create", "createServer",
    "defineProperties", "defineProperty", "disconnect", "every", "exists", "exports", "filter",
    "forEach", "fromCharCode", "function", "getDate", "getDay", "getFullYear", "getHours",
    "getMilliseconds", "getMinutes", "getMonth", "getOwnPropertyDescriptor",
    "getOwnPropertyNames", "getPrototypeOf", "getSeconds", "getTime", "getTimezoneOffset",
    "getUTCDate", "getUTCDay", "getUTCFullYear", "getUTCHours", "getUTCMilliseconds",
    "getUTCMinutes", "getUTCMonth", "getUTCSeconds", "global", "hasOwnProperty", "ignoreCase",
    "indexOf", "isArray", "isExtensible", "isFinite", "isPrototypeOf", "lastIndex", "lastIndexOf",
    "length", "listen", "loadJSON", "localeCompare", "md5_hex", "module", "multiline", "number",
    "onclose", "onopen", "parseFloat", "parseInt", "preventExtensions", "propertyIsEnumerable",
    "prototype", "random", "readAll", "readByte", "readString", "readVoltage", "readyState",
    "reboot", "recvAll", "reduce", "remove", "rename", "render", "replace", "request", "require",
    "reverse", "sayHello", "search", "sendAck", "setDate", "setFullYear", "setHours",
    "setLogLevel", "setMilliseconds", "setMinutes", "setMonth", "setSeconds", "setTime",
    "setTimeout", "setUTCDate", "setUTCFullYear", "setUTCHours", "setUTCMilliseconds",
    "setUTCMinutes", "setUTCMonth", "setUTCSeconds", "setisr", "setmode", "sha1_hex", "source",
    "splice", "status", "string", "stringify", "substr", "substring", "toDateString",
    "toExponential", "toFixed", "toISOString", "toJSON", "toLocaleDateString",
    "toLocaleLowerCase", "toLocaleString", "toLocaleTimeString", "toLocaleUpperCase",
    "toLowerCase", "toPrecision", "toString", "toTimeString", "toUTCString", "toUpperCase",
    "usleep", "valueOf", "wdtFeed", "writable", "writeHead"].map cBytes

/-- `memcmp` of two blocks of the same length. -/
def memcmp : List UInt8 → List UInt8 → Int
  | a :: s, b :: t => if a = b then memcmp s t else (a.toNat : Int) - b.toNat
  | _, _ => 0

/-- The `comparison_result` for an entry. The difference of the lengths is a `size_t`, put into an
`int`. -/
def comparisonResult (s v : List UInt8) : Int :=
  let minLen := min s.length v.length
  let c := memcmp (s.take minLen) (v.take minLen)
  if c = 0 then (BitVec.ofInt 32 ((s.length : Int) - v.length)).toInt else c

/-- `v_find_string_in_dictionary`; `none` is a `NULL` argument, and the answer `-1`. -/
def vFindStringInDictionary : Option (List UInt8) → Option Nat
  | none => none
  | some s =>
    bisect vDictionaryStrings (comparisonResult s) vDictionaryStrings.length 0
      vDictionaryStrings.length

/-! ## The comparison -/

variable {s t v : List UInt8}

theorem memcmp_take (s t : List UInt8) :
    memcmp (s.take (min s.length t.length)) (t.take (min s.length t.length)) = memcmp s t := by
  induction s generalizing t with
  | nil => rw [List.length_nil, Nat.zero_min, List.take_zero, memcmp, memcmp] <;> exact nofun
  | cons a s ih =>
    cases t with
    | nil => rfl
    | cons b t =>
      rw [List.length_cons, List.length_cons, Nat.succ_min_succ, List.take_succ_cons,
        List.take_succ_cons, memcmp, memcmp, ih]

/-- First by bytes, then by length: the order of the table. -/
theorem memcmp_order (s t : List UInt8) :
    (s < t ∧ (memcmp s t < 0 ∨ memcmp s t = 0 ∧ s.length < t.length)) ∨
      (s = t ∧ memcmp s t = 0) ∨
      (t < s ∧ (0 < memcmp s t ∨ memcmp s t = 0 ∧ t.length < s.length)) := by
  induction s generalizing t with
  | nil =>
    cases t with
    | nil => exact Or.inr (Or.inl ⟨rfl, rfl⟩)
    | cons b t => exact Or.inl ⟨List.nil_lt_cons b t, Or.inr ⟨rfl, Nat.succ_pos _⟩⟩
  | cons a s ih =>
    cases t with
    | nil => exact Or.inr (Or.inr ⟨List.nil_lt_cons a s, Or.inr ⟨rfl, Nat.succ_pos _⟩⟩)
    | cons b t =>
      rw [List.cons_lt_cons_iff, List.cons_lt_cons_iff, memcmp]
      by_cases hab : a = b
      · subst hab
        rw [if_pos rfl, List.length_cons, List.length_cons]
        rcases ih t with ⟨hlt, h⟩ | ⟨rfl, h⟩ | ⟨hlt, h⟩
        · exact Or.inl ⟨Or.inr ⟨rfl, hlt⟩, h.imp_right fun h => ⟨h.1, Nat.succ_lt_succ h.2⟩⟩
        · exact Or.inr (Or.inl ⟨rfl, h⟩)
        · exact Or.inr (Or.inr ⟨Or.inr ⟨rfl, hlt⟩,
            h.imp_right fun h => ⟨h.1, Nat.succ_lt_succ h.2⟩⟩)
      · rw [if_neg hab]
        have hne : a.toNat ≠ b.toNat := fun h => hab (UInt8.toNat_inj.mp h)
        rcases Nat.lt_or_gt_of_ne hne with hlt | hgt
        · exact Or.inl ⟨Or.inl (UInt8.lt_iff_toNat_lt.mpr hlt), Or.inl (by omega)⟩
        · exact Or.inr (Or.inr ⟨Or.inl (UInt8.lt_iff_toNat_lt.mpr hgt), Or.inl (by omega)⟩)

/-- Lengths whose difference is an `int` compare as they should. -/
theorem comparisonResult_order (hs : s.length < 2 ^ 31) (hv : v.length < 2 ^ 31) :
    (s < v ∧ comparisonResult s v < 0) ∨ (s = v ∧ comparisonResult s v = 0) ∨
      (v < s ∧ 0 < comparisonResult s v) := by
  have hint : (BitVec.ofInt 32 ((s.length : Int) - v.length)).toInt = (s.length : Int) - v.length :=
    by rw [BitVec.toInt_ofInt]; exact Int.bmod_eq_of_le (by omega) (by omega)
  unfold comparisonResult
  simp only [memcmp_take, hint]
  rcases memcmp_order s v with ⟨hlt, h⟩ | ⟨rfl, h⟩ | ⟨hlt, h⟩
  · refine Or.inl ⟨hlt, ?_⟩
    split <;> omega
  · refine Or.inr (Or.inl ⟨rfl, ?_⟩)
    rw [if_pos h, Int.sub_self]
  · refine Or.inr (Or.inr ⟨hlt, ?_⟩)
    split <;> omega

/-! ## The search -/

theorem dictionary_sorted : vDictionaryStrings.IsChain (· < ·) := by decide +kernel

theorem dictionary_entries : ∀ v ∈ vDictionaryStrings, v.length < 2 ^ 28 ∧ 0 ∉ v := by
  decide +kernel

theorem dictionary_lengths (hv : v ∈ vDictionaryStrings) : v.length < 2 ^ 31 :=
  Nat.lt_trans (dictionary_entries v hv).1 (by decide)

theorem comparison_falls (hs : s.length < 2 ^ 31) :
    Falls vDictionaryStrings (comparisonResult s) := by
  have htrans : @Trans (List UInt8) (List UInt8) (List UInt8) (· < ·) (· < ·) (· < ·) :=
    ⟨List.lt_trans⟩
  refine dictionary_sorted.pairwise.imp_of_mem fun {v w} hv hw hvw hle => ?_
  have hsw : s < w := by
    rcases comparisonResult_order hs (dictionary_lengths hv) with ⟨h, -⟩ | ⟨rfl, -⟩ | ⟨-, h⟩
    · exact List.lt_trans h hvw
    · exact hvw
    · omega
  rcases comparisonResult_order hs (dictionary_lengths hw) with ⟨-, h⟩ | ⟨rfl, -⟩ | ⟨h, -⟩
  · exact h
  · exact absurd hsw (List.lt_irrefl s)
  · exact absurd (List.lt_trans hsw h) (List.lt_irrefl s)

theorem comparisonResult_eq_zero_iff (hs : s.length < 2 ^ 31) (hv : v ∈ vDictionaryStrings) :
    comparisonResult s v = 0 ↔ s = v := by
  rcases comparisonResult_order hs (dictionary_lengths hv) with ⟨hlt, h⟩ | ⟨heq, h⟩ | ⟨hlt, h⟩
  · refine ⟨fun h0 => by omega, ?_⟩
    rintro rfl
    exact absurd hlt (List.lt_irrefl s)
  · exact ⟨fun _ => heq, fun _ => h⟩
  · refine ⟨fun h0 => by omega, ?_⟩
    rintro rfl
    exact absurd hlt (List.lt_irrefl s)

theorem find_iff (hs : s.length < 2 ^ 31) {i : Nat} :
    vFindStringInDictionary (some s) = some i ↔ vDictionaryStrings[i]? = some s := by
  rw [vFindStringInDictionary, bisect_eq_some_iff (comparison_falls hs) (Nat.sub_le _ _)
    (Nat.le_refl _)]
  constructor
  · rintro ⟨-, -, v, hv, hzero⟩
    rw [(comparisonResult_eq_zero_iff hs (List.mem_of_getElem? hv)).mp hzero, hv]
  · intro hv
    obtain ⟨hlt, -⟩ := List.getElem?_eq_some_iff.mp hv
    exact ⟨Nat.zero_le i, hlt, s, hv,
      (comparisonResult_eq_zero_iff hs (List.mem_of_getElem? hv)).mpr rfl⟩

end ShellJs.V7
