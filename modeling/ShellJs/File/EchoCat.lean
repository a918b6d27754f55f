import ShellJs.File.Readers

/-!
# What `cat` reads of what `echo` wrote

`_read_text_file` compares the answer of `fread(data, *size, 1, fp)`, a number of items of
`*size` bytes each, with `*size`. The answer is 1 when the whole file was read, and 0 for
an empty file, so the two agree for contents of at most one byte.

* `readTextFile_short`, `readTextFile_long`: reading in full, on either side of the bound.
* `jscEcho_ok`: the string is on the disk.
* `echo_cat_iff`: `cat` returns what `echo` wrote exactly when it has at most one byte.
-/

namespace ShellJs

namespace Libc

variable {libc libc' : Libc} {fp : Ptr} {stream : Stream}

theorem fwrite_ok (data : Bytes) (hd : libc.streams.deref fp = some stream) :
    libc.fwrite data (some fp) = .ok (libc.store fp (stream.append data)) := by
  simp only [fwrite, orFault, hd, ok_bind]
  rfl

theorem kindOf_of_deref (hd : libc.streams.deref fp = some stream) :
    libc.kindOf fp = some stream.kind := by
  rw [kindOf, hd, Option.map_some]

end Libc

variable {libc : Libc} {path s : Bytes} {env : ReadEnv}

/-! ## Reading in full -/

/-- The open, the seek, the allocation and the read succeed: the stream delivers as many
bytes as `ftell` has measured. -/
structure ReadsFull (env : ReadEnv) (libc : Libc) : Prop where
  opens : env.file ≠ NULL ∧ libc.streams.cells env.file = none
  seekEnd : env.seekEnd = true
  tell : env.tell.toNat = env.content.length
  allocated : env.allocated = true

theorem ReadsFull.reads (h : ReadsFull env libc) : Reads env libc :=
  ⟨h.opens, h.seekEnd, h.allocated⟩

theorem readTextFile_short (h : ReadsFull env libc) (hlen : env.content.length ≤ 1) :
    ∃ libc' data, readTextFile path env libc = .ok (libc', some (data, env.tell)) ∧
      data.take env.tell.toNat = env.content := by
  obtain ⟨r, heffect, hread⟩ := readText_effect path env libc
  have htell := h.tell
  have hroom : env.tell.toNat < (zeroBytes (env.tell + 1)).length := by
    rw [length_zeroBytes, platMemSize_succ (by omega)]
    omega
  -- one item of `size` bytes, or none: the count is the size only up to one
  have hitems : Libc.itemsOf env.tell 1 env.content = env.tell := by
    rw [itemsOf_text_iff]
    by_cases hz : env.tell = 0
    · exact .inl hz
    · have hne : env.tell.toNat ≠ 0 := fun heq => hz (UInt64.toNat_inj.mp heq)
      refine .inr ⟨UInt64.toNat_inj.mp ?_, List.ne_nil_of_length_pos (by omega)⟩
      rw [UInt64.toNat_one]
      omega
  obtain ⟨libc', hr, -⟩ := heffect.full_of h.reads hitems hroom
  rw [hr] at hread
  refine ⟨libc', _, hread, ?_⟩
  rw [filled, List.take_set_of_le (Nat.le_refl _), htell, List.take_length, List.take_left]

/-- A longer file is refused, or does not fit into a block of 2^32 bytes. -/
theorem readTextFile_long (h : ReadsFull env libc) (hlen : 2 ≤ env.content.length) :
    readTextFile path env libc = .error .outOfBounds ∨
      ∃ libc', readTextFile path env libc = .ok (libc', none) := by
  obtain ⟨r, heffect, hread⟩ := readText_effect path env libc
  have htell := h.tell
  have hitems : Libc.itemsOf env.tell 1 env.content ≠ env.tell := by
    rw [Ne, itemsOf_text_iff]
    rintro (hz | ⟨h1, -⟩)
    · rw [hz, UInt64.toNat_zero] at htell
      omega
    · rw [h1, UInt64.toNat_one] at htell
      omega
  rw [hread]
  rcases heffect.refused_of h.reads hitems with rfl | ⟨libc', rfl⟩
  · exact .inl rfl
  · exact .inr ⟨libc', rfl⟩

/-! ## `cat` of one file -/

theorem jscCat_one {envs : Nat → ReadEnv} (hp : 0 ∉ path) :
    jscCat [.string path] envs libc =
      readTextFile path (envs 0) libc >>= fun r => .ok (r.1, arrayGet (pushFile r.2 []) 0) := by
  simp only [jscCat, List.foldlM_cons, List.foldlM_nil, catArg, catItem, toCString, if_neg hp]
  cases readTextFile path (envs 0) libc <;> rfl

/-- A file that is read in full comes back when it has at most one byte, and only then. -/
theorem cat_full_iff (hp : 0 ∉ path) (h : ReadsFull env libc) :
    (∃ libc', jscCat [.string path] (fun _ => env) libc = .ok (libc', .string env.content)) ↔
      env.content.length ≤ 1 := by
  rw [jscCat_one hp]
  constructor
  · rintro ⟨libc', hcat⟩
    by_contra hlen
    rcases @readTextFile_long libc path env h (by omega) with hread | ⟨libc₁, hread⟩
    · rw [hread] at hcat
      cases hcat
    · rw [hread] at hcat
      cases hcat
  · intro hlen
    obtain ⟨libc', data, hread, hdata⟩ := @readTextFile_short libc path env h hlen
    refine ⟨libc', ?_⟩
    rw [hread, ok_bind, ← hdata]
    rfl

/-! ## `echo` -/

theorem jscEcho_ok {wenv : WriteEnv} {w : Files} (hs : 0 ∉ s) (hp : 0 ∉ path)
    (ha : wenv.file ≠ NULL ∧ w.libc.streams.cells wenv.file = none)
    (hroom : s.length ≤ wenv.room) :
    ∃ w', jscEcho [.string s, .string path] wenv w = .ok (w', .undefined) ∧
      w'.disk path = some s ∧ w'.libc.streams.cells = w.libc.streams.cells := by
  have hd := @Libc.deref_afterOpen w.libc .file wenv.file [] ha
  have hwrite := Libc.fwrite_ok (s.take wenv.room) hd
  have hopen := Libc.deref_store_self hd
    (Stream.append (s.take wenv.room) ⟨.file, [], []⟩)
  obtain ⟨libc', hclose, hclosed⟩ := Libc.close_ok .file (Libc.kindOf_of_deref hopen)
  refine ⟨⟨Function.update w.disk path (some s), libc'⟩, ?_, Function.update_self .., ?_⟩
  · simp only [jscEcho, toCString, if_neg hs, if_neg hp, Libc.openStream_ok ha, ok_bind, hwrite,
      hopen, hclose, orFault]
    rw [List.take_of_length_le hroom]
    rfl
  · funext a
    rw [hclosed.cells]
    by_cases haddr : a = wenv.file
    · rw [haddr, Function.update_self, ha.2]
    · rw [Function.update_of_ne haddr]
      exact (Heap.cells_write_of_ne haddr).trans (Heap.cells_put_of_ne ha haddr)

/-- After `echo(s, path)` that writes in full, `cat(path)` that reads in full returns `s`
exactly when `s` has at most one byte. -/
theorem echo_cat_iff (s path : Bytes) (hs : 0 ∉ s) (hp : 0 ∉ path) (wenv : WriteEnv) (w : Files)
    (ha : wenv.file ≠ NULL ∧ w.libc.streams.cells wenv.file = none)
    (hroom : s.length ≤ wenv.room) :
    ∃ w', jscEcho [.string s, .string path] wenv w = .ok (w', .undefined) ∧
      w'.disk path = some s ∧ w'.libc.streams.cells = w.libc.streams.cells ∧
      ∀ env : ReadEnv, w'.disk path = some env.content → ReadsFull env w'.libc →
        ((∃ libc, jscCat [.string path] (fun _ => env) w'.libc = .ok (libc, .string s)) ↔
          s.length ≤ 1) := by
  obtain ⟨w', hecho, hdisk, hcells⟩ := @jscEcho_ok path s wenv w hs hp ha hroom
  refine ⟨w', hecho, hdisk, hcells, fun env hcontent hfull => ?_⟩
  rw [hdisk] at hcontent
  rw [Option.some.inj hcontent]
  exact cat_full_iff hp hfull

/-- `echo("x", "p")`, then `cat("p")`. -/
theorem echo_cat_iff_one_byte : ∃ w',
    jscEcho [.string [120], .string [112]] ⟨16, 1⟩ ⟨fun _ => none, .init⟩ =
      .ok (w', .undefined) ∧
    ∃ libc, jscCat [.string [112]] (fun _ => ⟨16, [120], true, 1, true⟩) w'.libc =
      .ok (libc, .string [120]) := by
  obtain ⟨w', hecho, hdisk, hcells, hiff⟩ :=
    echo_cat_iff [120] [112] (by decide) (by decide) ⟨16, 1⟩
    ⟨fun _ => none, .init⟩ ⟨by decide, rfl⟩ (by decide)
  refine ⟨w', hecho, ?_⟩
  refine (hiff ⟨16, [120], true, 1, true⟩ hdisk ⟨⟨?_, ?_⟩, rfl, rfl, rfl⟩).mpr (by decide)
  · exact (by decide : (16 : Addr) ≠ NULL)
  · rw [hcells]
    rfl

/-- `echo("ab", "p")` writes the file, and `cat("p")`, which reads it in full, returns
`undefined`. -/
theorem echo_cat_two_bytes : ∃ w',
    jscEcho [.string [97, 98], .string [112]] ⟨16, 2⟩ ⟨fun _ => none, .init⟩ =
      .ok (w', .undefined) ∧
    w'.disk [112] = some [97, 98] ∧ ReadsFull ⟨16, [97, 98], true, 2, true⟩ w'.libc ∧
    (∃ libc, jscCat [.string [112]] (fun _ => ⟨16, [97, 98], true, 2, true⟩) w'.libc =
      .ok (libc, .undefined)) ∧
    ¬ ∃ libc, jscCat [.string [112]] (fun _ => ⟨16, [97, 98], true, 2, true⟩) w'.libc =
      .ok (libc, .string [97, 98]) := by
  obtain ⟨w', hecho, hdisk, hcells⟩ := @jscEcho_ok [112] [97, 98] ⟨16, 2⟩
    ⟨fun _ => none, .init⟩ (by decide) (by decide) ⟨by decide, rfl⟩ (by decide)
  have hfull : ReadsFull ⟨16, [97, 98], true, 2, true⟩ w'.libc := by
    refine ⟨⟨(by decide : (16 : Addr) ≠ NULL), ?_⟩, rfl, rfl, rfl⟩
    rw [hcells]
    rfl
  obtain ⟨libc₁, hread⟩ := (@readTextFile_long w'.libc [112] _ hfull (by decide)).resolve_left
    (readTextFile_sizeSafe (by decide) [112] _ _ hfull.reads rfl).1
  have hcat : jscCat [.string [112]] (fun _ => ⟨16, [97, 98], true, 2, true⟩) w'.libc =
      .ok (libc₁, .undefined) := by
    rw [jscCat_one (by decide), hread]
    rfl
  refine ⟨w', hecho, hdisk, hfull, ⟨libc₁, hcat⟩, ?_⟩
  rintro ⟨libc, hcat'⟩
  rw [hcat] at hcat'
  cases hcat'

end ShellJs
