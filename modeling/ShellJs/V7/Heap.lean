import ShellJs.V7.Gc

/-!
# The buffer of owned strings

`owned_strings` is one string after the other, each with its length before it; the NUL behind a
string is the mark of the next one. `Cell` is a string with the values that are threaded through
it, and `image` what the buffer holds for them.

* `Str.chunkLen_eq`: the length that the collector reads is the size of the string.
* `Threaded`: the buffer and the values during a collection.
-/

namespace ShellJs.V7

open Memory Function

/-! ## Accesses -/

namespace Mbuf

variable {a : Mbuf} {off n : Nat} {data : List UInt8}

theorem write_eq (h : off + data.length ≤ a.size) :
    a.write off data = .ok { a with buf := store a.buf off data } := if_pos h

theorem read_eq (h : off + n ≤ a.size) : a.read off n = .ok (load a.buf off n) := if_pos h

theorem before_succ (a : Mbuf) (s : Nat) : a.before (s + 1) = .ok (a.buf s) :=
  if_neg (Nat.succ_ne_zero s)

end Mbuf

/-! ## Strings -/

/-- A string that is long enough to be owned, and short enough for its length to be read. -/
structure Str where
  bytes : List UInt8
  long : 6 ≤ bytes.length
  short : bytes.length < 2 ^ 28

namespace Str

/-- `llen`. -/
def llen (s : Str) : Nat := llenLoop 10 s.bytes.length

/-- The length and the bytes. -/
def body (s : Str) : List UInt8 := encodeLoop s.llen s.bytes.length ++ s.bytes

/-- The bytes that a string takes, with its NUL. -/
def size (s : Str) : Nat := s.body.length + 1

variable {s : Str} {m : Nat → UInt8} {a : Nat}

theorem llen_le (s : Str) : s.llen ≤ 4 := llenLoop_le 10 (by decide) s.short

theorem length_body (s : Str) : s.body.length = s.llen + s.bytes.length := by
  rw [body, List.length_append, length_encodeLoop]

theorem size_eq (s : Str) : s.size = s.bytes.length + s.llen + 1 := by
  rw [size, length_body, Nat.add_comm s.llen]

theorem decodeVarint_eq (h : Holds m a (encodeLoop s.llen s.bytes.length)) :
    decodeVarint (fun i => m (a + i)) = .ok (s.bytes.length, s.llen) :=
  decodeVarint_encodeLoop (Nat.lt_trans s.short (by decide)) (holds_shift.mpr h)

theorem chunkLen_eq (h : Holds m a (encodeLoop s.llen s.bytes.length)) :
    chunkLen (fun i => m (a + i)) = .ok s.size := by
  rw [chunkLen, decodeVarint_eq h, size_eq]
  rfl

end Str

/-! ## Cells -/

/-- A string, and the addresses of the values that are threaded through it, the last one first. -/
structure Cell where
  str : Str
  refs : List Nat

namespace Cell

/-- The byte before a string. -/
def mark (c : Cell) : UInt8 := if c.refs = [] then 0 else 1

/-- The first six bytes of a string. -/
def first (c : Cell) : List UInt8 :=
  match c.refs with
  | [] => c.str.body.take 6
  | a :: _ => leBytes 6 a

/-- The bytes from the mark of a string to before its NUL. -/
def image (c : Cell) : List UInt8 := c.mark :: (c.first ++ c.str.body.drop 6)

@[simp] theorem length_first (c : Cell) : c.first.length = 6 := by
  have hlong := c.str.long
  have hbody := c.str.length_body
  unfold first
  split
  · rw [List.length_take]
    omega
  · exact length_leBytes

theorem length_image (c : Cell) : c.image.length = c.str.size := by
  have hlong := c.str.long
  have hbody := c.str.length_body
  rw [image, List.length_cons, List.length_append, length_first, List.length_drop, Str.size]
  omega

theorem image_of_nil {c : Cell} (h : c.refs = []) : c.image = 0 :: c.str.body := by
  rw [image, mark, if_pos h, first, h, List.take_append_drop]

end Cell

def image (cs : List Cell) : List UInt8 := cs.flatMap Cell.image

def total (strs : List Str) : Nat := (strs.map Str.size).sum

theorem image_append (cs ds : List Cell) : image (cs ++ ds) = image cs ++ image ds :=
  List.flatMap_append

theorem image_cons (c : Cell) (cs : List Cell) : image (c :: cs) = c.image ++ image cs := rfl

theorem total_append (l r : List Str) : total (l ++ r) = total l + total r := by
  rw [total, total, total, List.map_append, List.sum_append]

theorem total_cons (s : Str) (l : List Str) : total (s :: l) = s.size + total l := by
  rw [total, total, List.map_cons, List.sum_cons]

theorem length_image (cs : List Cell) : (image cs).length = total (cs.map Cell.str) := by
  induction cs with
  | nil => rfl
  | cons c cs ih =>
    rw [image_cons, List.length_append, c.length_image, ih, List.map_cons, total_cons]

/-! ## Threads -/

/-- The word that refers to a thread: the address of its first value, or the six bytes at its
end. -/
def linkWord (s : Str) : List Nat → Val
  | [] => chunk (s.body.take 6) ||| tagStringC
  | a :: _ => chunk (leBytes 6 a) ||| tagForeign

/-- Every value of the thread holds the word for the values behind it. -/
def Linked (vals : Vals) (s : Str) : List Nat → Prop
  | [] => True
  | a :: l => vals a = linkWord s l ∧ Linked vals s l

/-- The word for a thread is what its string holds, with a tag. -/
theorem linkWord_eq (c : Cell) :
    linkWord c.str c.refs = chunk c.first ||| if c.mark = 0 then tagStringC else tagForeign := by
  unfold Cell.mark Cell.first
  cases c.refs with
  | nil => rfl
  | cons a l => rfl

theorem chunk_lt {l : List UInt8} (h : l.length = 6) : (chunk l).toNat < 2 ^ 48 := by
  have hlt := leVal_lt l
  rw [h] at hlt
  rw [chunk, UInt64.toNat_ofNat', Nat.mod_eq_of_lt (Nat.lt_trans hlt (by decide))]
  exact hlt

theorem toNat_chunk {l : List UInt8} (h : l.length = 6) : (chunk l).toNat = leVal l := by
  have hlt := leVal_lt l
  rw [h] at hlt
  rw [chunk, UInt64.toNat_ofNat', Nat.mod_eq_of_lt (Nat.lt_trans hlt (by decide))]

theorem Linked.congr {vals vals' : Vals} {s : Str} {l : List Nat} (h : Linked vals s l)
    (hv : ∀ a ∈ l, vals' a = vals a) : Linked vals' s l := by
  induction l with
  | nil => trivial
  | cons a l ih =>
    exact ⟨(hv a List.mem_cons_self).trans h.1,
      ih h.2 fun b hb => hv b (List.mem_cons_of_mem a hb)⟩

theorem length_take_body (s : Str) : (s.body.take 6).length = 6 := by
  have hlong := s.long
  have hbody := s.length_body
  rw [List.length_take]
  omega

/-- A value of a thread is not a string. -/
theorem Linked.tag_ne {vals : Vals} {s : Str} {l : List Nat} (h : Linked vals s l) {a : Nat}
    (ha : a ∈ l) : tag (vals a) ≠ tagStringO := by
  induction l with
  | nil => cases ha
  | cons b l ih =>
    rcases List.mem_cons.mp ha with rfl | ha
    · rw [h.1]
      cases l with
      | nil =>
        rw [linkWord, tag_or (chunk_lt (length_take_body s)) tag_stringC]
        decide
      | cons b l =>
        rw [linkWord, tag_or (chunk_lt length_leBytes) tag_foreign]
        decide
    · exact ih h.2 ha

/-- The buffer and the values, when the values of `vals₀` that the threads hold are marked. -/
structure Threaded (m : Mbuf) (vals vals₀ : Vals) (cs : List Cell) : Prop where
  image : Holds m.buf 0 (image cs ++ [0])
  len : m.len = total (cs.map Cell.str) + 1
  size : m.len ≤ m.size
  linked : ∀ c ∈ cs, Linked vals c.str c.refs
  nodup : (cs.flatMap Cell.refs).Nodup
  small : ∀ a ∈ cs.flatMap Cell.refs, a < 2 ^ 48
  others : ∀ a, a ∉ cs.flatMap Cell.refs → vals a = vals₀ a

end ShellJs.V7
