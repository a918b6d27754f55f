import ShellJs.Lib.Sentinel
import ShellJs.File.Lifecycle

/-!
# What `writestring` writes

V7 converts an argument into a buffer, with its length apart. `fprintf(.., "%s", ..)` measures the
buffer again, as a C string: of a text with a NUL it writes the part before the NUL.

* `toStringOf`: the text of a value. `conversions` are those of the arguments after the handle.
* `writeArgs_writes`: the loop writes the cut texts in order and frees the blocks of V7.
* `writestring_full_iff`: when it writes all texts in full.
* `writestring_cuts`: a string with a NUL.
-/

namespace ShellJs

open Runs Sentinel

/-! ## The texts of the arguments -/

/-- `to_string` of V7. A finite number is formatted by `number`, and the `toString` of an array or
of another object returns `object`. -/
def toStringOf (number : Rat → Bytes) (object : Bytes) : Val → Bytes
  | .undefined => [117, 110, 100, 101, 102, 105, 110, 101, 100]
  | .null => [110, 117, 108, 108]
  | .boolean true => [116, 114, 117, 101]
  | .boolean false => [102, 97, 108, 115, 101]
  | .number (.finite x) => number x
  | .number (.infinite false) => [73, 110, 102, 105, 110, 105, 116, 121]
  | .number (.infinite true) => [45, 73, 110, 102, 105, 110, 105, 116, 121]
  | .number .nan => [78, 97, 78]
  | .string s => s
  | .array _ => object
  | .object => object

/-- The conversion of `v7_arg(v7, i)`. If the argument is an object, `objects i` is its text, and if
the text is long, V7 is given the block at `mem i`. -/
def conversion (number : Rat → Bytes) (objects : Nat → Bytes) (mem : Nat → Addr) (args : List Val)
    (i : Nat) : Libc.Conversion :=
  ⟨toStringOf number (objects i) ((args[i]?).getD .undefined), mem i⟩

/-- The conversions of the arguments after the handle. -/
def conversions (number : Rat → Bytes) (objects : Nat → Bytes) (mem : Nat → Addr)
    (args : List Val) : List Libc.Conversion :=
  (List.range' 1 (args.length - 1)).map (conversion number objects mem args)

theorem Stream.append_append (stream : Stream) (text text' : Bytes) :
    (stream.append text).append text' = stream.append (text ++ text') := by
  unfold Stream.append
  rw [List.append_assoc]

theorem Stream.append_inj {stream : Stream} {text text' : Bytes}
    (h : stream.append text = stream.append text') : text = text' :=
  List.append_cancel_left (congrArg Stream.written h)

namespace FileLib

variable {wild : JsNumber → CInt} {s s' s'' : FileLib} {args : List Val} {id : CInt} {hdl fp : Ptr}
  {res : Res FileHandle} {stream : Stream} {convs : Nat → Libc.Conversion} {l : List Nat}

/-! ## The loop -/

theorem Writes.refl (hstream : s.libc.streams.deref fp = some stream) :
    Writes s s fp stream [] 0 := by
  refine ⟨rfl, fun q => ?_, .refl _, .refl _⟩
  split
  · next hq =>
    rw [hq, hstream]
    exact congrArg (fun text => some { stream with written := text }) (List.append_nil _).symm
  · rfl

theorem Writes.deref_self {text : Bytes} {n : Nat} (h : Writes s s' fp stream text n) :
    s'.libc.streams.deref fp = some (stream.append text) := by
  rw [h.deref, if_pos rfl]

theorem Writes.trans {text text' : Bytes} {m n : Nat} (h : Writes s s' fp stream text m)
    (h' : Writes s' s'' fp (stream.append text) text' n) :
    Writes s s'' fp stream (text ++ text') (m + n) := by
  refine ⟨h'.openedFiles.trans h.openedFiles, fun q => ?_, h.same.trans h'.same,
    h.buffers.trans h'.buffers⟩
  rw [h'.deref, h.deref, Stream.append_append]
  split <;> rfl

/-- The blocks of V7 are where they were, so the same allocations succeed. -/
theorem Writes.fits {text : Bytes} {n : Nat} (h : Writes s s' fp stream text n)
    {conv : Libc.Conversion} : s'.libc.Fits conv ↔ s.libc.Fits conv := by
  unfold Libc.Fits
  rw [h.buffers.cells]

/-- Every text is cut at its first NUL. -/
theorem writeArgs_writes (hd : s.openedFiles.table.heap.deref hdl = some res)
    (hfile : res.data.file = some fp) (hstream : s.libc.streams.deref fp = some stream)
    (hf : ∀ conv ∈ l.map convs, s.libc.Fits conv) :
    ∃ s', l.foldlM (fun s i => writeArg hdl (convs i) s) s = .ok s' ∧
      Writes s s' fp stream (((l.map convs).map Libc.Conversion.text).flatMap (cut 0))
        ((l.map convs).map Libc.Conversion.blocks).sum := by
  induction l generalizing s stream with
  | nil => exact ⟨s, rfl, .refl hstream⟩
  | cons i l ih =>
    obtain ⟨hfi, hfl⟩ := List.forall_mem_cons.mp hf
    obtain ⟨s₁, hs₁, hw₁⟩ := writeArg_writes hd hfile hstream hfi
    obtain ⟨s', hs', hw'⟩ := ih (hw₁.openedFiles.symm ▸ hd) hw₁.deref_self
      fun conv hconv => hw₁.fits.mpr (hfl conv hconv)
    refine ⟨s', ?_, hw₁.trans hw'⟩
    rw [List.foldlM_cons, hs₁, ok_bind, hs']

/-- A loop that comes to its end has found memory for every conversion. -/
theorem fits_of_writeArgs (h : l.foldlM (fun s i => writeArg hdl (convs i) s) s = .ok s')
    (hd : s.openedFiles.table.heap.deref hdl = some res) (hfile : res.data.file = some fp)
    (hstream : s.libc.streams.deref fp = some stream) :
    ∀ conv ∈ l.map convs, s.libc.Fits conv := by
  induction l generalizing s stream with
  | nil => exact fun _ hconv => nomatch hconv
  | cons i l ih =>
    rw [List.foldlM_cons] at h
    obtain ⟨s₁, hs₁, h⟩ := bind_eq_ok.mp h
    have hfi : s.libc.Fits (convs i) := by
      by_contra hnot
      rw [writeArg_error hnot] at hs₁
      cases hs₁
    obtain ⟨s₂, hs₂, hw⟩ := writeArg_writes hd hfile hstream hfi
    rw [hs₁] at hs₂
    cases hs₂
    have hrest := ih h (hw.openedFiles.symm ▸ hd) hw.deref_self
    exact List.forall_mem_cons.mpr ⟨hfi, fun conv hconv => hw.fits.mp (hrest conv hconv)⟩

/-! ## One call -/

/-- `writestring` on a live handle appends the texts of its arguments to the stream, in full and in
order, and frees the blocks that V7 has allocated for them, exactly when no text has a NUL and
these allocations succeed. -/
theorem writestring_full_iff (calls : List Call)
    (hs : exec (step wild) (installFileLib .init) calls = .ok s) (args : List Val)
    (ht : s.target wild args = some (id, hdl, res)) (number : Rat → Bytes) (objects : Nat → Bytes)
    (mem : Nat → Addr) :
    ∃ fp stream, res.data.file = some fp ∧ s.libc.streams.deref fp = some stream ∧
      ((∃ s', jscWritestring wild args (conversion number objects mem args) s =
            .ok (s', .undefined) ∧
          Writes s s' fp stream
            ((conversions number objects mem args).map Libc.Conversion.text).flatten
            ((conversions number objects mem args).map Libc.Conversion.blocks).sum) ↔
        ∀ conv ∈ conversions number objects mem args, 0 ∉ conv.text ∧ s.libc.Fits conv) := by
  have hinv := inv_exec hs
  obtain ⟨-, fp, kind, hg, rfl, hopen⟩ := hinv.target ht
  obtain ⟨stream, hstream, -⟩ := Libc.kindOf_eq_some.mp hopen
  have hd := ResMgn.deref_of_get hg
  refine ⟨fp, stream, rfl, hstream, ?_⟩
  rw [jscWritestring_some hinv ht]
  constructor
  · rintro ⟨s', hrun, hw⟩
    obtain ⟨s₁, hloop, heq⟩ := bind_eq_ok.mp hrun
    cases heq
    have hfits := fits_of_writeArgs hloop hd rfl hstream
    obtain ⟨s₂, hs₂, hw₂⟩ := writeArgs_writes hd rfl hstream hfits
    rw [hloop] at hs₂
    cases hs₂
    -- what was written is the cut texts, so cutting has lost nothing
    have hsome := hw₂.deref_self.symm.trans hw.deref_self
    have hfull := (flatMap_cut_eq_iff _).mp (Stream.append_inj (Option.some.inj hsome))
    exact fun conv hconv => ⟨hfull conv.text (List.mem_map_of_mem hconv), hfits conv hconv⟩
  · intro h
    obtain ⟨s', hs', hw⟩ := writeArgs_writes hd rfl hstream fun conv hconv => (h conv hconv).2
    have hfull : ∀ text ∈ (conversions number objects mem args).map Libc.Conversion.text,
        0 ∉ text := by
      intro text htext
      obtain ⟨conv, hconv, rfl⟩ := List.mem_map.mp htext
      exact (h conv hconv).1
    refine ⟨s', by rw [hs', ok_bind], ?_⟩
    rw [← (flatMap_cut_eq_iff _).mpr hfull]
    exact hw

/-- `h = fopen("a", "w")`, then `writestring(h, "a\0b")`: the stream gets one of three bytes. -/
theorem writestring_cuts : ∃ s s',
    exec (step fun _ => 0) (installFileLib .init)
      [.fopen [.string [97], .string [119]] ⟨16, [], 16⟩] = .ok s ∧
    jscWritestring (fun _ => 0) [.number (.finite 0), .string [97, 0, 98]]
      (conversion (fun _ => []) (fun _ => []) (fun _ => NULL)
        [.number (.finite 0), .string [97, 0, 98]]) s = .ok (s', .undefined) ∧
    s.libc.streams.deref ⟨16, 0⟩ = some ⟨.file, [], []⟩ ∧
    s'.libc.streams.deref ⟨16, 0⟩ = some ⟨.file, [], [97]⟩ ∧
    ((conversions (fun _ => []) (fun _ => []) (fun _ => NULL)
      [.number (.finite 0), .string [97, 0, 98]]).map Libc.Conversion.text).flatten =
        [97, 0, 98] :=
  ⟨_, _, rfl, rfl, rfl, rfl, rfl⟩

/-- `writestring(h, "a", null)` on the same handle. -/
theorem writestring_full_iff_null : ∃ s s',
    exec (step fun _ => 0) (installFileLib .init)
      [.fopen [.string [97], .string [119]] ⟨16, [], 16⟩] = .ok s ∧
    jscWritestring (fun _ => 0) [.number (.finite 0), .string [97], .null]
      (conversion (fun _ => []) (fun _ => []) (fun _ => NULL)
        [.number (.finite 0), .string [97], .null]) s = .ok (s', .undefined) ∧
    Writes s s' ⟨16, 0⟩ ⟨.file, [], []⟩ [97, 110, 117, 108, 108] 0 := by
  obtain ⟨s, hs, id, hdl, res, ht, hfile, hstream⟩ : ∃ s,
      exec (step fun _ => 0) (installFileLib .init)
        [.fopen [.string [97], .string [119]] ⟨16, [], 16⟩] = .ok s ∧ ∃ id hdl res,
      s.target (fun _ => 0) [.number (.finite 0), .string [97], .null] = some (id, hdl, res) ∧
        res.data.file = some ⟨16, 0⟩ ∧ s.libc.streams.deref ⟨16, 0⟩ = some ⟨.file, [], []⟩ :=
    ⟨_, rfl, _, _, _, rfl, rfl, rfl⟩
  obtain ⟨fp, stream, hfp, hd, hiff⟩ :=
    writestring_full_iff _ hs _ ht (fun _ => []) (fun _ => []) fun _ => NULL
  obtain rfl : ⟨16, 0⟩ = fp := Option.some.inj (hfile.symm.trans hfp)
  obtain rfl : ⟨.file, [], []⟩ = stream := Option.some.inj (hstream.symm.trans hd)
  obtain ⟨s', hrun, hw⟩ := hiff.mpr fun conv hconv => by
    rcases List.mem_cons.mp hconv with rfl | hconv
    · exact ⟨by decide, .inl (by decide)⟩
    · rw [List.mem_singleton.mp hconv]
      exact ⟨by decide, .inl (by decide)⟩
  exact ⟨s, s', hs, hrun, hw⟩

end FileLib

end ShellJs
