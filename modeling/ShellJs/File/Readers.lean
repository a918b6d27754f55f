import ShellJs.File.Spec
import ShellJs.File.TextFile

/-!
# The readers of whole files

`_read_text_file` (`js-clib/jsc_file.c`), `read_file` (`main.c`) and `plat_io_get_resource`
(`platform/plat_io.h`) open a file, take its size from `ftell`, and read that many bytes into
a block of their own. The first two are one body with another allocator and the other
order of `fread`'s arguments.

* `ReadEffect`: what this body does, one case for each exit. `readWhole_effect` is the only
  place where it is unfolded.
* `itemsOf_text_iff`, `itemsOf_file_iff`: when `fread` answers what the body compares with.
* `reader_sizes_iff`: the sizes for which each reader stays within its block and hands
  the size of the file back.
-/

namespace ShellJs

/-- The body that `_read_text_file` and `read_file` share: the `*size` that is left, and the
block or `NULL`. The members differ in the block, and in the size and the number of the items
of `fread`. -/
def readWhole (block : UInt64 → Bytes) (item count : UInt64 → UInt64) (path : Bytes)
    (env : ReadEnv) (size : UInt64) (libc : Libc) :
    Except Fault (Libc × UInt64 × Option Bytes) := do
  let (libc, fp) ← libc.openStream .file env.file env.content (some path) (some [114, 98])
  match fp with
  | none => return (libc, size, none)
  | some fp =>
    if env.seekEnd = false then do
      let libc ← libc.close .file (some fp)
      return (libc, size, none)
    else
      let size := env.tell
      if env.allocated = false then do
        let libc ← libc.close .file (some fp)
        return (libc, size, none)
      else do
        let block := block size
        let (libc, stored, items) ← libc.fread (item size) (count size) (some fp)
        if block.length < stored.length then .error .outOfBounds
        -- the early return: the block is released, the stream stays open
        else if items ≠ size then return (libc, size, none)
        else if block.length ≤ size.toNat then .error .outOfBounds
        else do
          let data := (stored ++ block.drop stored.length).set size.toNat 0
          let libc ← libc.close .file (some fp)
          return (libc, size, some data)

/-- `read_file(path, size)`. `malloc` takes a `size_t` and does not clear the block, but every
byte of a block that is handed out has been stored. -/
def readFile : Bytes → ReadEnv → UInt64 → Libc → Except Fault (Libc × UInt64 × Option Bytes) :=
  readWhole (fun size => List.replicate (size + 1).toNat 0) (fun _ => 1) fun size => size

/-- The two results of `plat_io_get_resource`. -/
structure Resource where
  contentMemory : Option Bytes
  size : UInt32

/-- `plat_io_get_resource(resource_name, content_memory, size)`: the answer of `fread` is not
looked at. `old` is what the block of `malloc` holds before. -/
def platIoGetResource (resourceName : Bytes) (env : ReadEnv) (old : Nat → UInt8)
    (out : Resource) (libc : Libc) : Except Fault (Libc × CInt × Resource) := do
  let (libc, f) ←
    libc.openStream .file env.file env.content (some resourceName) (some [114, 98])
  match f with
  | none => return (libc, -1, out)
  | some f =>
    let size := env.tell.toUInt32
    if size = 0 then do
      let libc ← libc.close .file (some f)
      return (libc, 0, ⟨none, size⟩)
    else if env.allocated = false then do
      let libc ← libc.close .file (some f)
      return (libc, -1, ⟨none, size⟩)
    else do
      let block := (List.range size.toNat).map old
      let (libc, stored, _) ← libc.fread size.toUInt64 1 (some f)
      if block.length < stored.length then .error .outOfBounds
      else do
        let libc ← libc.close .file (some f)
        return (libc, 0, ⟨some (stored ++ block.drop stored.length), size⟩)

/-! ## Streams -/

namespace Libc

/-- One stream has been opened, and the same has been closed. -/
structure Visited (libc libc' : Libc) : Prop where
  cells : libc'.streams.cells = libc.streams.cells
  next : libc'.streams.next = libc.streams.next + 1
  opened : libc'.opened = (libc.streams.next, .file) :: libc.opened
  closed : libc'.closed = (libc.streams.next, .file) :: libc.closed

/-- No stream was opened, or one was and the same has been closed. -/
def Balanced (libc libc' : Libc) : Prop := libc' = libc ∨ libc.Visited libc'

/-- One stream has been opened at `file`, and is open. -/
structure LeftOpen (file : Addr) (libc libc' : Libc) : Prop where
  wasFree : libc.streams.cells file = none
  next : libc'.streams.next = libc.streams.next + 1
  cells : ∀ a, a ≠ file → libc'.streams.cells a = libc.streams.cells a
  isOpen : libc'.kindOf ⟨file, libc.streams.next⟩ = some .file
  opened : libc'.opened = (libc.streams.next, .file) :: libc.opened
  closed : libc'.closed = libc.closed

variable {libc libc₁ libc' : Libc} {file : Addr} {content : Bytes} {stream : Stream} {fp : Ptr}

theorem Balanced.cells (h : Balanced libc libc') : libc'.streams.cells = libc.streams.cells := by
  rcases h with rfl | hv
  · rfl
  · exact hv.cells

theorem leftOpen_afterOpen (ha) :
    LeftOpen file libc (libc.afterOpen .file file content ha) :=
  ⟨ha.2, rfl, fun _ hne => Heap.cells_put_of_ne ha hne, (kindOf_afterOpen ha _).trans (if_pos rfl),
    rfl, rfl⟩

theorem LeftOpen.store (h : LeftOpen file libc libc')
    (hd : libc'.streams.deref ⟨file, libc.streams.next⟩ = some stream) (input : Bytes) :
    LeftOpen file libc (libc'.store ⟨file, libc.streams.next⟩ (stream.setInput input)) := by
  have hsame : Same libc' (libc'.store ⟨file, libc.streams.next⟩ (stream.setInput input)) :=
    same_store hd rfl
  exact ⟨h.wasFree, h.next, fun a hne => (Heap.cells_write_of_ne hne).trans (h.cells a hne),
    (hsame.kindOf _).trans h.isOpen, h.opened, h.closed⟩

/-- The stream that was left open can be closed. -/
theorem LeftOpen.close (h : LeftOpen file libc libc₁) :
    ∃ libc', libc₁.close .file (some ⟨file, libc.streams.next⟩) = .ok libc' ∧
      Visited libc libc' := by
  obtain ⟨libc', hclose, hc⟩ := close_ok .file h.isOpen
  refine ⟨libc', hclose, ?_, hc.next.trans h.next, hc.opened.trans h.opened,
    hc.closed.trans (by rw [h.closed])⟩
  funext a
  rw [hc.cells]
  by_cases haddr : a = file
  · rw [haddr, Function.update_self, h.wasFree]
  · rw [Function.update_of_ne haddr, h.cells a haddr]

/-- The answer of `fread` for a stream that delivers the bytes of `input`. -/
def itemsOf (size nitems : UInt64) (input : Bytes) : UInt64 :=
  if size = 0 then 0
  else UInt64.ofNat ((input.take (size * nitems).toNat).length / size.toNat)

theorem fread_ok (size nitems : UInt64) (hd : libc.streams.deref fp = some stream) :
    libc.fread size nitems (some fp) =
      .ok (libc.store fp (stream.setInput (stream.input.drop (size * nitems).toNat)),
        stream.input.take (size * nitems).toNat, itemsOf size nitems stream.input) := by
  simp only [fread, orFault, hd, ok_bind]
  rfl

end Libc

/-! ## What the shared body does -/

/-- `fopen` succeeds. -/
def Opens (env : ReadEnv) (libc : Libc) : Prop :=
  env.file ≠ NULL ∧ libc.streams.cells env.file = none

/-- The body gets to `fread`. -/
structure Reads (env : ReadEnv) (libc : Libc) : Prop where
  opens : Opens env libc
  seekEnd : env.seekEnd = true
  allocated : env.allocated = true

/-- What is in a block after all that was delivered and the NUL at `size`. -/
def filled (block content : Bytes) (size : Nat) : Bytes :=
  (content.take size ++ block.drop (min size content.length)).set size 0

/-- One case for each exit. `size` is the number that `*size` holds before, and `items` the
answer of `fread`. -/
inductive ReadEffect (block : Bytes) (items : UInt64) (env : ReadEnv) (size : UInt64)
    (libc : Libc) : Except Fault (Libc × UInt64 × Option Bytes) → Prop
  | notOpened (h : ¬ Opens env libc) :
      ReadEffect block items env size libc (.ok (libc, size, none))
  | notSought {libc' : Libc} (hopen : Opens env libc) (h : env.seekEnd = false)
      (hv : libc.Visited libc') :
      ReadEffect block items env size libc (.ok (libc', size, none))
  | noBlock {libc' : Libc} (hopen : Opens env libc) (hseek : env.seekEnd = true)
      (h : env.allocated = false) (hv : libc.Visited libc') :
      ReadEffect block items env size libc (.ok (libc', env.tell, none))
  | overrun (hr : Reads env libc) (h : block.length < min env.tell.toNat env.content.length) :
      ReadEffect block items env size libc (.error .outOfBounds)
  | short {libc' : Libc} (hr : Reads env libc)
      (hroom : min env.tell.toNat env.content.length ≤ block.length) (h : items ≠ env.tell)
      (hl : libc.LeftOpen env.file libc') :
      ReadEffect block items env size libc (.ok (libc', env.tell, none))
  | noRoom (hr : Reads env libc) (hitems : items = env.tell)
      (h : block.length ≤ env.tell.toNat) :
      ReadEffect block items env size libc (.error .outOfBounds)
  | full {libc' : Libc} (hr : Reads env libc) (hitems : items = env.tell)
      (hroom : env.tell.toNat < block.length) (hv : libc.Visited libc') :
      ReadEffect block items env size libc
        (.ok (libc', env.tell, some (filled block env.content env.tell.toNat)))

variable {path : Bytes} {env : ReadEnv} {size : UInt64} {libc libc' : Libc}

theorem readWhole_effect (block : UInt64 → Bytes) (item count : UInt64 → UInt64) (path : Bytes)
    (env : ReadEnv) (size : UInt64) (libc : Libc)
    (hbytes : (item env.tell * count env.tell).toNat = env.tell.toNat) :
    ReadEffect (block env.tell) (Libc.itemsOf (item env.tell) (count env.tell) env.content)
      env size libc (readWhole block item count path env size libc) := by
  unfold readWhole
  by_cases hopen : Opens env libc
  · have hleft : libc.LeftOpen env.file (libc.afterOpen .file env.file env.content hopen) :=
      Libc.leftOpen_afterOpen hopen
    obtain ⟨libc₁, hclose, hv⟩ := hleft.close
    rw [Libc.openStream_ok hopen]
    simp only [ok_bind]
    by_cases hseek : env.seekEnd = false
    · rw [if_pos hseek, hclose]
      exact .notSought hopen hseek hv
    rw [if_neg hseek]
    have hseek : env.seekEnd = true := eq_true_of_ne_false hseek
    by_cases halloc : env.allocated = false
    · rw [if_pos halloc, hclose]
      exact .noBlock hopen hseek halloc hv
    rw [if_neg halloc]
    have hr : Reads env libc := ⟨hopen, hseek, eq_true_of_ne_false halloc⟩
    have hd : (libc.afterOpen .file env.file env.content hopen).streams.deref
        ⟨env.file, libc.streams.next⟩ = some ⟨.file, env.content, []⟩ :=
      Libc.deref_afterOpen hopen
    have hleft₂ := hleft.store hd (env.content.drop env.tell.toNat)
    obtain ⟨libc₂, hclose₂, hv₂⟩ := hleft₂.close
    rw [Libc.fread_ok _ _ hd]
    simp only [ok_bind, hbytes, List.length_take]
    by_cases hover : (block env.tell).length < min env.tell.toNat env.content.length
    · rw [if_pos hover]
      exact .overrun hr hover
    rw [if_neg hover]
    by_cases hitems : Libc.itemsOf (item env.tell) (count env.tell) env.content = env.tell
    · rw [if_neg (not_not.mpr hitems)]
      by_cases hroom : (block env.tell).length ≤ env.tell.toNat
      · rw [if_pos hroom]
        exact .noRoom hr hitems hroom
      · rw [if_neg hroom, hclose₂]
        exact .full hr hitems (Nat.not_le.mp hroom) hv₂
    · rw [if_pos hitems]
      exact .short hr (Nat.not_lt.mp hover) hitems hleft₂
  · rw [Libc.openStream_null hopen]
    exact .notOpened hopen

/-- A read that returns has closed its stream, or left it open. -/
theorem ReadEffect.returned {block : Bytes} {items size' : UInt64} {data : Option Bytes}
    (h : ReadEffect block items env size libc (.ok (libc', size', data))) :
    libc.Balanced libc' ∨ libc.LeftOpen env.file libc' := by
  cases h with
  | notOpened => exact .inl (.inl rfl)
  | notSought _ _ hv => exact .inl (.inr hv)
  | noBlock _ _ _ hv => exact .inl (.inr hv)
  | short _ _ _ hl => exact .inr hl
  | full _ _ _ hv => exact .inl (.inr hv)

theorem ReadEffect.read {block data : Bytes} {items size' : UInt64}
    (h : ReadEffect block items env size libc (.ok (libc', size', some data))) :
    Reads env libc ∧ items = env.tell ∧ env.tell.toNat < block.length ∧ size' = env.tell := by
  cases h with
  | full hr hitems hroom => exact ⟨hr, hitems, hroom, rfl⟩

/-- When `fread` answers the size and the block has room for the NUL, the file is read. -/
theorem ReadEffect.full_of {block : Bytes} {items : UInt64}
    {r : Except Fault (Libc × UInt64 × Option Bytes)} (h : ReadEffect block items env size libc r)
    (hr : Reads env libc) (hitems : items = env.tell) (hroom : env.tell.toNat < block.length) :
    ∃ libc', r = .ok (libc', env.tell, some (filled block env.content env.tell.toNat)) ∧
      libc.Visited libc' := by
  cases h with
  | notOpened h => exact absurd hr.opens h
  | notSought _ h =>
    rw [hr.seekEnd] at h
    cases h
  | noBlock _ _ h =>
    rw [hr.allocated] at h
    cases h
  | overrun _ h => omega
  | short _ _ h => exact absurd hitems h
  | noRoom _ _ h => omega
  | full _ _ _ hv => exact ⟨_, rfl, hv⟩

/-- When `fread` answers another number, there is no block, if the delivered bytes fit at all. -/
theorem ReadEffect.refused_of {block : Bytes} {items : UInt64}
    {r : Except Fault (Libc × UInt64 × Option Bytes)} (h : ReadEffect block items env size libc r)
    (hr : Reads env libc) (hitems : items ≠ env.tell) :
    r = .error .outOfBounds ∨ ∃ libc', r = .ok (libc', env.tell, none) := by
  cases h with
  | notOpened h => exact absurd hr.opens h
  | notSought _ h =>
    rw [hr.seekEnd] at h
    cases h
  | noBlock _ _ h =>
    rw [hr.allocated] at h
    cases h
  | overrun => exact .inl rfl
  | short => exact .inr ⟨_, rfl⟩
  | noRoom _ h => exact absurd h hitems
  | full _ h => exact absurd h hitems

/-! ## The two members -/

theorem readTextFile_eq (size : UInt64) :
    readTextFile path env libc =
      readWhole (fun size => zeroBytes (size + 1)) (fun size => size) (fun _ => 1) path env size
        libc >>= fun r => .ok (r.1, r.2.2.map fun data => (data, r.2.1)) := by
  unfold readTextFile readWhole
  cases libc.openStream .file env.file env.content (some path) (some [114, 98]) with
  | error e => rfl
  | ok r =>
    obtain ⟨libc₁, fp⟩ := r
    cases fp with
    | none => rfl
    | some fp =>
      simp only [ok_bind]
      split
      · cases libc₁.close .file (some fp) <;> rfl
      split
      · cases libc₁.close .file (some fp) <;> rfl
      cases libc₁.fread env.tell 1 (some fp) with
      | error e => rfl
      | ok r =>
        simp only [ok_bind]
        split
        · rfl
        split
        · rfl
        split
        · rfl
        cases r.1.close .file (some fp) <;> rfl

/-- One item of the size of the file: the count is the size only up to one. -/
theorem itemsOf_text_iff (size : UInt64) (content : Bytes) :
    Libc.itemsOf size 1 content = size ↔ size = 0 ∨ size = 1 ∧ content ≠ [] := by
  have hone : size = 1 ↔ size.toNat = 1 := by rw [← UInt64.toNat_inj, UInt64.toNat_one]
  have hnil : content ≠ [] ↔ 0 < content.length := List.length_pos_iff.symm
  by_cases hz : size = 0
  · rw [hz]
    exact iff_of_true rfl (.inl rfl)
  have hpos : 0 < size.toNat := Nat.pos_of_ne_zero fun h => hz (UInt64.toNat_inj.mp h)
  rw [Libc.itemsOf, if_neg hz, UInt64.mul_one, List.length_take, ← UInt64.toNat_inj, hone, hnil]
  by_cases hlen : size.toNat ≤ content.length
  · rw [Nat.min_eq_left hlen, Nat.div_self hpos]
    constructor
    · intro h
      exact .inr ⟨h.symm, by omega⟩
    · rintro (h | ⟨h, -⟩)
      · exact absurd h hz
      · exact h.symm
  · rw [Nat.min_eq_right (by omega), Nat.div_eq_of_lt (by omega)]
    constructor
    · intro h
      exact absurd h.symm (Nat.ne_of_gt hpos)
    · rintro (h | ⟨h, hc⟩)
      · exact absurd h hz
      · omega

/-- As many items as the file has bytes. -/
theorem itemsOf_file_iff (size : UInt64) (content : Bytes) :
    Libc.itemsOf 1 size content = size ↔ size.toNat ≤ content.length := by
  have hsize := size.toNat_lt
  rw [Libc.itemsOf, if_neg (by decide), UInt64.one_mul, UInt64.toNat_one, Nat.div_one,
    List.length_take, ← UInt64.toNat_inj, UInt64.toNat_ofNat', Nat.mod_eq_of_lt (by omega)]
  omega

theorem readFile_effect (path : Bytes) (env : ReadEnv) (size : UInt64) (libc : Libc) :
    ReadEffect (List.replicate (env.tell + 1).toNat 0) (Libc.itemsOf 1 env.tell env.content) env
      size libc (readFile path env size libc) := by
  refine readWhole_effect (fun size => List.replicate (size + 1).toNat 0) (fun _ => 1)
    (fun size => size) path env size libc ?_
  rw [UInt64.one_mul]

theorem readText_effect (path : Bytes) (env : ReadEnv) (libc : Libc) :
    ∃ r, ReadEffect (zeroBytes (env.tell + 1)) (Libc.itemsOf env.tell 1 env.content) env 0 libc r ∧
      readTextFile path env libc =
        r >>= fun r => .ok (r.1, r.2.2.map fun data => (data, r.2.1)) := by
  refine ⟨_, readWhole_effect (fun size => zeroBytes (size + 1)) (fun size => size) (fun _ => 1)
    path env 0 libc ?_, readTextFile_eq 0⟩
  rw [UInt64.mul_one]

/-! ## Sizes -/

/-- With an open file and a block, and `n` as the answer of `ftell`: whatever `fread` delivers,
nothing is stored outside of the block, and the size that is handed back with a block is
`n`. -/
def SizeSafe {ρ : Type} (read : Bytes → ReadEnv → Libc → Except Fault ρ) (handed : ρ → Option Nat)
    (n : Nat) : Prop :=
  ∀ path env libc, Reads env libc → env.tell.toNat = n →
    read path env libc ≠ .error .outOfBounds ∧
      ∀ r m, read path env libc = .ok r → handed r = some m → m = n

/-- The size that `_read_text_file` hands back with a block. -/
def handedText (r : Libc × Option (Bytes × UInt64)) : Option Nat := r.2.map fun b => b.2.toNat

/-- The size that `read_file` hands back with a block. -/
def handedFile (r : Libc × UInt64 × Option Bytes) : Option Nat := r.2.2.map fun _ => r.2.1.toNat

/-- The size that `plat_io_get_resource` hands back when it answers 0. -/
def handedResource (r : Libc × CInt × Resource) : Option Nat :=
  if r.2.1 = 0 then some r.2.2.size.toNat else none

theorem ReadEffect.inBounds {block : Bytes} {items : UInt64}
    {r : Except Fault (Libc × UInt64 × Option Bytes)} (h : ReadEffect block items env size libc r)
    (hroom : env.tell.toNat < block.length) : r ≠ .error .outOfBounds := by
  cases h with
  | overrun hr h => omega
  | noRoom hr hitems h => omega
  | _ => exact fun h => nomatch h

theorem readFile_sizeSafe {n : Nat} (hn : n < 2 ^ 63) (size : UInt64) :
    SizeSafe (fun path env => readFile path env size) handedFile n := by
  intro path env libc hr htell
  have heffect := readFile_effect path env size libc
  have hroom : (env.tell + 1).toNat = n + 1 := by
    rw [UInt64.toNat_add, UInt64.toNat_one, htell, Nat.mod_eq_of_lt (by omega)]
  refine ⟨heffect.inBounds ?_, fun r m hread hm => ?_⟩
  · rw [List.length_replicate, hroom, htell]
    exact Nat.lt_succ_self n
  · obtain ⟨libc', size', _ | data⟩ := r
    · cases hm
    · have hread' : readFile path env size libc = .ok (libc', size', some data) := hread
      rw [hread'] at heffect
      rw [← htell, ← heffect.read.2.2.2]
      exact (Option.some.inj hm).symm

theorem platMemSize_succ {tell : UInt64} (htell : tell.toNat < 2 ^ 63) :
    platMemSize (tell + 1) = (tell.toNat + 1) % 2 ^ 32 := by
  rw [platMemSize, UInt64.toNat_toUInt32, UInt64.toNat_add, UInt64.toNat_one,
    Nat.mod_eq_of_lt (Nat.lt_of_lt_of_le (Nat.succ_lt_succ htell) (by decide))]

theorem readTextFile_sizeSafe {n : Nat} (hn : n + 1 < 2 ^ 32) :
    SizeSafe readTextFile handedText n := by
  intro path env libc hr htell
  obtain ⟨r, heffect, hread⟩ := readText_effect path env libc
  have hroom : platMemSize (env.tell + 1) = n + 1 := by
    rw [platMemSize_succ (by omega), htell, Nat.mod_eq_of_lt hn]
  have hin : r ≠ .error .outOfBounds := by
    refine heffect.inBounds ?_
    rw [length_zeroBytes, hroom, htell]
    exact Nat.lt_succ_self n
  rw [hread]
  cases r with
  | error e =>
    refine ⟨fun h => ?_, fun _ _ h => nomatch h⟩
    cases h
    exact hin rfl
  | ok r =>
    refine ⟨(fun h => nomatch h), fun r' m hr' hm => ?_⟩
    obtain ⟨libc', size', _ | data⟩ := r
    · cases hr'
      cases hm
    · cases hr'
      rw [← htell, ← heffect.read.2.2.2]
      exact (Option.some.inj hm).symm

/-- The block of `plat_mem_allocate` is smaller than the file. -/
theorem readTextFile_overrun {n : Nat} (hn : n < 2 ^ 63) (hbig : 2 ^ 32 ≤ n + 1)
    (hr : Reads env libc) (htell : env.tell.toNat = n) (hlen : n ≤ env.content.length) :
    readTextFile path env libc = .error .outOfBounds := by
  obtain ⟨r, heffect, hread⟩ := readText_effect path env libc
  have hroom : platMemSize (env.tell + 1) < n := by
    rw [platMemSize_succ (by omega), htell]
    omega
  rw [hread]
  cases heffect with
  | overrun => rfl
  | noRoom => rfl
  | notOpened h => exact absurd hr.opens h
  | notSought _ h => rw [hr.seekEnd] at h; cases h
  | noBlock _ _ h => rw [hr.allocated] at h; cases h
  | short _ h =>
    rw [length_zeroBytes] at h
    omega
  | full _ _ h =>
    rw [length_zeroBytes] at h
    omega

/-- With an open stream `plat_io_get_resource` closes it, and the size is 32 bits of the answer
of `ftell`. -/
theorem platIoGetResource_opened {old : Nat → UInt8} {out : Resource} (hopen : Opens env libc) :
    ∃ libc' code content, platIoGetResource path env old out libc =
        .ok (libc', code, ⟨content, env.tell.toUInt32⟩) ∧
      libc.Visited libc' ∧ (env.allocated = true → code = 0) := by
  have hleft : libc.LeftOpen env.file (libc.afterOpen .file env.file env.content hopen) :=
    Libc.leftOpen_afterOpen hopen
  obtain ⟨libc₁, hclose, hv⟩ := hleft.close
  unfold platIoGetResource
  rw [Libc.openStream_ok hopen]
  simp only [ok_bind]
  by_cases hz : env.tell.toUInt32 = 0
  · rw [if_pos hz, hclose]
    exact ⟨libc₁, 0, none, rfl, hv, fun _ => rfl⟩
  rw [if_neg hz]
  by_cases halloc : env.allocated = false
  · rw [if_pos halloc, hclose]
    exact ⟨libc₁, -1, none, rfl, hv, fun h => absurd (h.symm.trans halloc) (by decide)⟩
  rw [if_neg halloc]
  have hd : (libc.afterOpen .file env.file env.content hopen).streams.deref
      ⟨env.file, libc.streams.next⟩ = some ⟨.file, env.content, []⟩ :=
    Libc.deref_afterOpen hopen
  have hleft₂ := hleft.store hd (env.content.drop env.tell.toUInt32.toNat)
  obtain ⟨libc₂, hclose₂, hv₂⟩ := hleft₂.close
  have hbytes : (env.tell.toUInt32.toUInt64 * 1).toNat = env.tell.toUInt32.toNat := by
    rw [UInt64.mul_one, UInt32.toNat_toUInt64]
  rw [Libc.fread_ok _ _ hd]
  simp only [ok_bind, hbytes, List.length_map, List.length_range, List.length_take]
  rw [if_neg (Nat.not_lt.mpr (Nat.min_le_left _ _)), hclose₂]
  exact ⟨libc₂, 0, _, rfl, hv₂, fun _ => rfl⟩

theorem platIoGetResource_sizeSafe_iff {n : Nat} (hn : n < 2 ^ 63) (old : Nat → UInt8)
    (out : Resource) :
    SizeSafe (fun path env => platIoGetResource path env old out) handedResource n ↔
      n < 2 ^ 32 := by
  have hsize : ∀ env : ReadEnv, env.tell.toNat = n → env.tell.toUInt32.toNat = n % 2 ^ 32 := by
    intro env htell
    rw [UInt64.toNat_toUInt32, htell]
  constructor
  · intro h
    -- an empty file at the first address that `malloc` gives
    let env : ReadEnv := ⟨16, [], true, UInt64.ofNat n, true⟩
    have hr : Reads env .init := ⟨⟨(by decide : (16 : Addr) ≠ NULL), rfl⟩, rfl, rfl⟩
    have htell : env.tell.toNat = n := UInt64.toNat_ofNat_of_lt' (Nat.lt_trans hn (by decide))
    obtain ⟨libc', code, content, hread, -, hcode⟩ :=
      @platIoGetResource_opened [] env .init old out hr.opens
    have hhanded := (h [] env .init hr htell).2 _ env.tell.toUInt32.toNat hread
      (if_pos (hcode rfl))
    rw [hsize env htell] at hhanded
    omega
  · intro hlt path env libc hr htell
    obtain ⟨libc', code, content, hread, -, -⟩ :=
      @platIoGetResource_opened path env libc old out hr.opens
    have hread' : (fun path env => platIoGetResource path env old out) path env libc =
        .ok (libc', code, ⟨content, env.tell.toUInt32⟩) := hread
    rw [hread']
    refine ⟨(fun h => nomatch h), fun r m hok hm => ?_⟩
    cases hok
    unfold handedResource at hm
    split at hm
    · rw [← Option.some.inj hm, hsize env htell, Nat.mod_eq_of_lt hlt]
    · cases hm

theorem readTextFile_sizeSafe_iff {n : Nat} (hn : n < 2 ^ 63) :
    SizeSafe readTextFile handedText n ↔ n + 1 < 2 ^ 32 := by
  refine ⟨fun h => ?_, readTextFile_sizeSafe⟩
  by_contra hbig
  let env : ReadEnv := ⟨16, List.replicate n 0, true, UInt64.ofNat n, true⟩
  have hr : Reads env .init := ⟨⟨(by decide : (16 : Addr) ≠ NULL), rfl⟩, rfl, rfl⟩
  have htell : env.tell.toNat = n := UInt64.toNat_ofNat_of_lt' (Nat.lt_trans hn (by decide))
  refine (h [] env .init hr htell).1 (readTextFile_overrun hn (by omega) hr htell ?_)
  exact Nat.le_of_eq List.length_replicate.symm

/-- Of the sizes that `ftell` can answer, `read_file` handles all, `_read_text_file` those
whose block has less than 2^32 bytes, and `plat_io_get_resource` those below 2^32. -/
theorem reader_sizes_iff (n : Nat) (hn : n < 2 ^ 63) :
    (∀ size, SizeSafe (fun path env => readFile path env size) handedFile n) ∧
      (SizeSafe readTextFile handedText n ↔ n + 1 < 2 ^ 32) ∧
      ∀ old out, SizeSafe (fun path env => platIoGetResource path env old out) handedResource n ↔
        n < 2 ^ 32 :=
  ⟨readFile_sizeSafe hn, readTextFile_sizeSafe_iff hn, platIoGetResource_sizeSafe_iff hn⟩

/-- The largest file that all three handle. -/
theorem reader_sizes_iff_largest :
    (∀ size, SizeSafe (fun path env => readFile path env size) handedFile 4294967294) ∧
      SizeSafe readTextFile handedText 4294967294 ∧
      ∀ old out, SizeSafe (fun path env => platIoGetResource path env old out) handedResource
        4294967294 := by
  obtain ⟨hfile, htext, hresource⟩ := reader_sizes_iff 4294967294 (by decide)
  exact ⟨hfile, htext.mpr (by decide), fun old out => (hresource old out).mpr (by decide)⟩

/-- A file of 2^32 - 1 bytes is read into a block of no bytes, and of one of 2^32 bytes the
size that is handed back is 0. -/
theorem reader_sizes_fail :
    readTextFile [112] ⟨16, List.replicate 4294967295 0, true, 4294967295, true⟩ .init =
        .error .outOfBounds ∧
      ∃ libc', platIoGetResource [112] ⟨16, List.replicate 4294967296 0, true, 4294967296, true⟩
        (fun _ => 0) ⟨none, 0⟩ .init = .ok (libc', 0, ⟨none, 0⟩) := by
  refine ⟨readTextFile_overrun (by decide) (by decide)
    ⟨⟨(by decide : (16 : Addr) ≠ NULL), rfl⟩, rfl, rfl⟩ rfl ?_, ?_⟩
  · exact Nat.le_of_eq List.length_replicate.symm
  · exact ⟨_, rfl⟩

end ShellJs
