import ShellJs.File.Model

/-!
# What each function of the file library does

* `Libc.kindOf`: the open streams as a map from pointers to kinds. `close_ok`,
  `getline_ok`, `fprintf_ok` are the libc functions on an open stream.
* `Inv`: records and streams fit together: a record with a non-negative id holds an open
  stream of the kind that its type says, and no two records hold the same stream.
* `Same`, `Opens`, `Closes`: the three things that a call can do to handles and streams.
  `call_cases` says that it does one of them, `call_error` how it can fail, `call_ok` when
  it returns.
* `Writes`: what `writestring` does to one stream and to the blocks of V7, for one argument
  (`writeArg_writes`) or several.
-/

namespace ShellJs

namespace Libc

variable {libc libc' : Libc} {fp q : Ptr} {how kind : StreamKind} {stream : Stream}

/-- The kind of the stream at `fp`, if it is open. -/
def kindOf (libc : Libc) (fp : Ptr) : Option StreamKind :=
  (libc.streams.deref fp).map Stream.kind

theorem kindOf_eq_some : libc.kindOf fp = some kind ↔
    ∃ stream, libc.streams.deref fp = some stream ∧ stream.kind = kind :=
  Option.map_eq_some_iff

/-- Reading and writing change what is in the streams, no more. -/
structure Same (libc libc' : Libc) : Prop where
  kindOf : ∀ q, libc'.kindOf q = libc.kindOf q
  next : libc'.streams.next = libc.streams.next
  frees : libc'.streams.frees = libc.streams.frees
  opened : libc'.opened = libc.opened
  closed : libc'.closed = libc.closed

theorem Same.refl (libc : Libc) : Same libc libc := ⟨fun _ => rfl, rfl, rfl, rfl, rfl⟩

theorem Same.trans {libc'' : Libc} (h : Same libc libc') (h' : Same libc' libc'') :
    Same libc libc'' :=
  ⟨fun q => (h'.kindOf q).trans (h.kindOf q), h'.next.trans h.next, h'.frees.trans h.frees,
    h'.opened.trans h.opened, h'.closed.trans h.closed⟩

theorem same_setBuffers (buffers : Heap Bytes) : Same libc (libc.setBuffers buffers) :=
  ⟨fun _ => rfl, rfl, rfl, rfl, rfl⟩

theorem deref_store {stream' : Stream} (hd : libc.streams.deref fp = some stream) (q : Ptr) :
    (libc.store fp stream').streams.deref q =
      if q = fp then some stream' else libc.streams.deref q :=
  Heap.deref_write hd

theorem deref_store_self (hd : libc.streams.deref fp = some stream) (stream' : Stream) :
    (libc.store fp stream').streams.deref fp = some stream' :=
  (deref_store hd fp).trans (if_pos rfl)

/-- A store that leaves the stream's kind. -/
theorem same_store {stream' : Stream} (hd : libc.streams.deref fp = some stream)
    (hk : stream'.kind = stream.kind) : Same libc (libc.store fp stream') := by
  refine ⟨fun q => ?_, rfl, rfl, rfl, rfl⟩
  rw [kindOf, deref_store hd]
  split
  · next hq => rw [kindOf, hq, hd, Option.map_some, Option.map_some, hk]
  · rfl

/-! ## Opening and closing -/

/-- The state after a successful open. -/
def afterOpen (libc : Libc) (kind : StreamKind) (file : Addr) (input : Bytes)
    (ha : file ≠ NULL ∧ libc.streams.cells file = none) : Libc :=
  { libc with streams := libc.streams.put file ⟨kind, input, []⟩ ha
              opened := (libc.streams.next, kind) :: libc.opened }

theorem openStream_ok {file : Addr} {input path mode : Bytes} (ha) :
    libc.openStream kind file input (some path) (some mode) =
      .ok (libc.afterOpen kind file input ha, some ⟨file, libc.streams.next⟩) :=
  dif_pos ha

theorem openStream_null {file : Addr} {input path mode : Bytes}
    (ha : ¬ (file ≠ NULL ∧ libc.streams.cells file = none)) :
    libc.openStream kind file input (some path) (some mode) = .ok (libc, none) :=
  dif_neg ha

theorem kindOf_afterOpen {file : Addr} {input : Bytes} (ha) (q : Ptr) :
    (libc.afterOpen kind file input ha).kindOf q =
      if q = ⟨file, libc.streams.next⟩ then some kind else libc.kindOf q := by
  rw [Libc.kindOf, afterOpen, Heap.deref_put]
  split <;> rfl

/-- The stream that an open has just given. -/
theorem deref_afterOpen {file : Addr} {input : Bytes} (ha) :
    (libc.afterOpen kind file input ha).streams.deref ⟨file, libc.streams.next⟩ =
      some ⟨kind, input, []⟩ :=
  (Heap.deref_put ha).trans (if_pos rfl)

/-- One stream has been closed. -/
structure ClosedOne (libc libc' : Libc) (how : StreamKind) (fp : Ptr) : Prop where
  cells : libc'.streams.cells = Function.update libc.streams.cells fp.addr none
  kindOf : ∀ q, libc'.kindOf q = if q = fp then none else libc.kindOf q
  next : libc'.streams.next = libc.streams.next
  frees : libc'.streams.frees = fp.birth :: libc.streams.frees
  opened : libc'.opened = libc.opened
  closed : libc'.closed = (fp.birth, how) :: libc.closed

theorem close_ok (how : StreamKind) (hk : libc.kindOf fp = some kind) :
    ∃ libc', libc.close how (some fp) = .ok libc' ∧ ClosedOne libc libc' how fp := by
  obtain ⟨stream, hd, -⟩ := kindOf_eq_some.mp hk
  have hc := Heap.cells_of_deref hd
  have hfree : libc.streams.free fp.addr = some (libc.streams.drop fp.addr _ hc) :=
    Heap.free_eq_some.mpr ⟨_, hc, rfl⟩
  refine ⟨{ libc with streams := libc.streams.drop fp.addr _ hc
                      closed := (fp.birth, how) :: libc.closed },
    ?_, rfl, fun q => ?_, rfl, rfl, rfl, rfl⟩
  · simp only [close, orFault, hd, hfree, ok_bind]
    rfl
  · show ((libc.streams.drop fp.addr _ hc).deref q).map Stream.kind = _
    rw [Heap.deref_drop hc rfl]
    split <;> rfl

/-! ## Reading and writing -/

/-- What `getline` answers and leaves, given what the stream delivers. -/
def lineOf (env : GetlineEnv) (input : Bytes) : Option Bytes × Bytes :=
  if env.fails ∨ input = [] then (none, input)
  else (some ((cutLine input).1 ++ 0 :: env.spare), (cutLine input).2)

theorem getline_ok (env : GetlineEnv) (hd : libc.streams.deref fp = some stream) :
    libc.getline env (some fp) =
      .ok (libc.store fp (stream.setInput (lineOf env (stream.input ++ env.arrived)).2),
        (lineOf env (stream.input ++ env.arrived)).1) := by
  simp only [getline, orFault, hd, ok_bind, lineOf]
  split <;> rfl

theorem fprintf_ok (text : Bytes) (hd : libc.streams.deref fp = some stream) :
    libc.fprintf text (some fp) =
      .ok (libc.store fp (stream.append (text.takeWhile (· ≠ 0)))) := by
  simp only [fprintf, orFault, hd, ok_bind]
  rfl

/-- The conversion's text fits into `buf`, or the allocation for it succeeds. -/
def Fits (libc : Libc) (conv : Conversion) : Prop :=
  conv.text.length < bufSize ∨ (conv.mem ≠ NULL ∧ libc.buffers.cells conv.mem = none)

theorem releaseBuffer_ok {buffers : Heap Bytes} {p : Addr} {b : Block Bytes}
    (h : libc.buffers = buffers) (hc : buffers.cells p = some b) :
    libc.releaseBuffer (some p) = .ok (libc.setBuffers (buffers.drop p b hc)) := by
  subst h
  simp only [releaseBuffer, Heap.free_eq_some.mpr ⟨b, hc, rfl⟩, orFault, ok_bind]
  rfl

/-- The blocks that a conversion allocates. -/
def Conversion.blocks (conv : Conversion) : Nat := if conv.text.length < bufSize then 0 else 1

/-- A conversion leaves the streams alone, and releasing its result afterwards frees the block
that it has allocated, if it has allocated one. -/
theorem stringify_ok {conv : Conversion} (hf : libc.Fits conv) :
    ∃ buffers p, libc.stringify conv = .ok (libc.setBuffers buffers, p) ∧
      ∀ libc₁ : Libc, libc₁.buffers = buffers →
        ∃ buffers', libc₁.releaseBuffer p = .ok (libc₁.setBuffers buffers') ∧
          libc.buffers.Recycled buffers' conv.blocks := by
  unfold Conversion.blocks
  by_cases hlen : conv.text.length < bufSize
  · refine ⟨libc.buffers, none, if_pos hlen, fun libc₁ h => ⟨libc₁.buffers, rfl, ?_⟩⟩
    rw [h, if_pos hlen]
    exact .refl libc.buffers
  · have ha := hf.resolve_left hlen
    refine ⟨libc.buffers.put conv.mem conv.text ha, some conv.mem, ?_, fun libc₁ h => ?_⟩
    · rw [stringify, if_neg hlen, Heap.malloc_of_free ha]
      exact if_neg ha.1
    · have hc : (libc.buffers.put conv.mem conv.text ha).cells conv.mem =
          some ⟨libc.buffers.next, conv.text⟩ := Heap.cells_put_self ha
      refine ⟨_, releaseBuffer_ok h hc, ?_⟩
      rw [if_neg hlen]
      exact Heap.recycled_drop_put ha hc

theorem stringify_error {conv : Conversion} (hf : ¬ libc.Fits conv) :
    libc.stringify conv = .error .outOfMemory := by
  obtain ⟨hlen, ha⟩ := not_or.mp hf
  rw [stringify, if_neg hlen, Heap.malloc_of_not_free ha]
  rfl

end Libc

/-- The type that `jsc_fopen` and `jsc_popen` give the handle of a stream. -/
def typeOf : StreamKind → HandleType
  | .file => .file
  | .pipe => .pfile

namespace FileLib

open ResMgn

variable {wild : JsNumber → CInt} {s s' : FileLib} {args : List Val} {id : CInt} {p fp : Ptr}
  {res : Res FileHandle} {kind : StreamKind}

/-! ## Records and streams -/

/-- What a record holds: an open stream of the kind that its type says. A record with a
negative id was never filled in. -/
def Recorded (libc : Libc) (id : CInt) (hdl : FileHandle) : Prop :=
  if 0 ≤ id.toInt then ∃ fp kind, hdl = ⟨typeOf kind, some fp⟩ ∧ libc.kindOf fp = some kind
  else hdl = FileHandle.zero

structure Inv (s : FileLib) : Prop where
  mgn : s.openedFiles.Inv
  recorded : ∀ id p res, s.openedFiles.get id = some (p, res) → Recorded s.libc id res.data
  distinct : ∀ id id' p p' res res' fp, s.openedFiles.get id = some (p, res) →
    s.openedFiles.get id' = some (p', res') → res.data.file = some fp →
    res'.data.file = some fp → id = id'

theorem inv_install (libc : Libc) : (installFileLib libc).Inv :=
  ⟨inv_create, (fun _ _ _ h => nomatch h), (fun _ _ _ _ _ _ _ h => nomatch h)⟩

/-- The calls that neither open nor close a stream. -/
structure Same (s s' : FileLib) : Prop where
  openedFiles : s'.openedFiles = s.openedFiles
  libc : s.libc.Same s'.libc

theorem Same.refl (s : FileLib) : Same s s := ⟨rfl, .refl s.libc⟩

theorem Same.trans {s'' : FileLib} (h : Same s s') (h' : Same s' s'') : Same s s'' :=
  ⟨h'.openedFiles.trans h.openedFiles, h.libc.trans h'.libc⟩

/-- A stream has been opened and recorded under `id`. -/
structure Opens (s s' : FileLib) (id : CInt) (p fp : Ptr) (kind : StreamKind) : Prop where
  mgn : s'.openedFiles.Inv
  first : s.openedFiles.FirstFree id
  get : ∀ i, s'.openedFiles.get i =
    if i = id then some (p, ⟨id, if 0 ≤ id.toInt then ⟨typeOf kind, some fp⟩ else .zero⟩)
    else s.openedFiles.get i
  lastId : s'.openedFiles.lastId = id + 1
  record : p.birth = s.openedFiles.table.heap.next
  records : s'.openedFiles.table.heap.next = s.openedFiles.table.heap.next + 1
  stream : fp.birth = s.libc.streams.next
  kindOf : ∀ q, s'.libc.kindOf q = if q = fp then some kind else s.libc.kindOf q
  next : s'.libc.streams.next = s.libc.streams.next + 1
  frees : s'.libc.streams.frees = s.libc.streams.frees
  opened : s'.libc.opened = (fp.birth, kind) :: s.libc.opened
  closed : s'.libc.closed = s.libc.closed

/-- The stream of `id` has been closed with what its type says, and its record released. -/
structure Closes (s s' : FileLib) (id : CInt) (p fp : Ptr) (kind : StreamKind) : Prop where
  mgn : s'.openedFiles.Inv
  was : s.openedFiles.get id = some (p, ⟨id, ⟨typeOf kind, some fp⟩⟩)
  get : ∀ i, s'.openedFiles.get i = if i = id then none else s.openedFiles.get i
  lastId : s'.openedFiles.lastId = s.openedFiles.lastId
  records : s'.openedFiles.table.heap.next = s.openedFiles.table.heap.next
  isOpen : s.libc.kindOf fp = some kind
  libc : s.libc.ClosedOne s'.libc kind fp

theorem Recorded.of_kind {libc libc' : Libc} {hdl : FileHandle} (h : Recorded libc id hdl)
    (hk : ∀ fp, hdl.file = some fp → libc'.kindOf fp = libc.kindOf fp) :
    Recorded libc' id hdl := by
  unfold Recorded at h ⊢
  split
  · next hnn =>
    rw [if_pos hnn] at h
    obtain ⟨fp, kind, rfl, hopen⟩ := h
    exact ⟨fp, kind, rfl, (hk fp rfl).trans hopen⟩
  · next hneg =>
    rw [if_neg hneg] at h
    exact h

theorem Recorded.isOpen {libc : Libc} {hdl : FileHandle} (h : Recorded libc id hdl)
    (hfile : hdl.file = some fp) : ∃ kind, hdl = ⟨typeOf kind, some fp⟩ ∧
      libc.kindOf fp = some kind := by
  unfold Recorded at h
  split at h
  · obtain ⟨fp', kind, rfl, hopen⟩ := h
    cases hfile
    exact ⟨kind, rfl, hopen⟩
  · rw [h] at hfile
    cases hfile

theorem Inv.same (h : s.Inv) (hs : Same s s') : s'.Inv := by
  obtain ⟨mgn, libc⟩ := s'
  obtain rfl : mgn = s.openedFiles := hs.openedFiles
  exact ⟨h.mgn, (fun id p res hg => (h.recorded id p res hg).of_kind fun fp _ => hs.libc.kindOf fp),
    h.distinct⟩

/-- A pointer of a stream that is not open yet stands in no record. -/
theorem Inv.file_ne (h : s.Inv) (hfp : fp.birth = s.libc.streams.next)
    (hg : s.openedFiles.get id = some (p, res)) : res.data.file ≠ some fp := by
  intro hfile
  obtain ⟨kind, -, hopen⟩ := (h.recorded id p res hg).isOpen hfile
  obtain ⟨stream, hd, -⟩ := Libc.kindOf_eq_some.mp hopen
  have hlt := Heap.birth_lt_of_deref hd
  rw [hfp] at hlt
  exact absurd hlt (Nat.lt_irrefl _)

theorem Inv.opens (h : s.Inv) (ho : Opens s s' id p fp kind) : s'.Inv := by
  have hold : ∀ i q r, s'.openedFiles.get i = some (q, r) → i ≠ id →
      s.openedFiles.get i = some (q, r) := by
    intro i q r hg hi
    rwa [ho.get, if_neg hi] at hg
  refine ⟨ho.mgn, fun i q r hg => ?_, fun i j q q' r r' fp' hg hg' hf hf' => ?_⟩
  · by_cases hi : i = id
    · rw [ho.get, if_pos hi] at hg
      cases hg
      subst hi
      unfold Recorded
      split
      · exact ⟨fp, kind, rfl, by rw [ho.kindOf, if_pos rfl]⟩
      · rfl
    · refine (h.recorded i q r (hold i q r hg hi)).of_kind fun fp' hf => ?_
      rw [ho.kindOf, if_neg]
      rintro rfl
      exact h.file_ne ho.stream (hold i q r hg hi) hf
  · have hnew : ∀ q r, s'.openedFiles.get id = some (q, r) → r.data.file = some fp' →
        fp' = fp := by
      intro q r hg hf
      rw [ho.get, if_pos rfl] at hg
      cases hg
      split at hf
      · exact (Option.some.inj hf).symm
      · cases hf
    by_cases hi : i = id <;> by_cases hj : j = id
    · rw [hi, hj]
    · subst hi
      rw [hnew q r hg hf] at hf'
      exact absurd hf' (h.file_ne ho.stream (hold j q' r' hg' hj))
    · subst hj
      rw [hnew q' r' hg' hf'] at hf
      exact absurd hf (h.file_ne ho.stream (hold i q r hg hi))
    · exact h.distinct i j q q' r r' fp' (hold i q r hg hi) (hold j q' r' hg' hj) hf hf'

theorem Inv.closes (h : s.Inv) (hc : Closes s s' id p fp kind) : s'.Inv := by
  have hold : ∀ i q r, s'.openedFiles.get i = some (q, r) →
      i ≠ id ∧ s.openedFiles.get i = some (q, r) := by
    intro i q r hg
    rw [hc.get] at hg
    split at hg
    · cases hg
    · next hi => exact ⟨hi, hg⟩
  refine ⟨hc.mgn, fun i q r hg => ?_, fun i j q q' r r' fp' hg hg' =>
    h.distinct i j q q' r r' fp' (hold i q r hg).2 (hold j q' r' hg').2⟩
  obtain ⟨hi, hg₀⟩ := hold i q r hg
  refine (h.recorded i q r hg₀).of_kind fun fp' hf => ?_
  rw [hc.libc.kindOf, if_neg]
  rintro rfl
  exact hi (h.distinct i id q p r _ fp' hg₀ hc.was hf rfl)

/-! ## `fopen` and `popen` -/

/-- The state after an open that got a stream and a record. -/
def afterOpen (s : FileLib) (kind : StreamKind) (env : OpenEnv) (id : CInt)
    (hf : env.file ≠ NULL ∧ s.libc.streams.cells env.file = none)
    (hm : env.mem ≠ NULL ∧ s.openedFiles.table.heap.cells env.mem = none) : FileLib where
  openedFiles := s.openedFiles.createdAndCloned id .zero
    (fun _ => ⟨typeOf kind, some ⟨env.file, s.libc.streams.next⟩⟩) env.mem hm
  libc := s.libc.afterOpen kind env.file env.input hf

theorem opens_afterOpen {env : OpenEnv} (hinv : s.Inv) (hid : s.openedFiles.FirstFree id)
    (hf hm) : Opens s (s.afterOpen kind env id hf hm) id
      ⟨env.mem, s.openedFiles.table.heap.next⟩ ⟨env.file, s.libc.streams.next⟩ kind where
  mgn := inv_createdAndCloned hinv.mgn hid hm
  first := hid
  get := get_createdAndCloned hinv.mgn hid hm
  lastId := lastId_createdAndCloned hm
  record := rfl
  records := next_createdAndCloned hm
  stream := rfl
  kindOf := Libc.kindOf_afterOpen hf
  next := rfl
  frees := rfl
  opened := rfl
  closed := rfl

section
variable {type : HandleType} {env : OpenEnv} {path mode : Bytes} {rest : List Val} {v : Val}

theorem openHandle_other (h : ∀ path mode rest, args ≠ .string path :: .string mode :: rest) :
    openHandle kind type args env s = .ok (s, .undefined) := by
  unfold openHandle
  split
  · next path mode rest => exact absurd rfl (h path mode rest)
  · rfl

theorem openHandle_nul (h : 0 ∈ path ∨ 0 ∈ mode) :
    openHandle kind type (.string path :: .string mode :: rest) env s = .error .nullString := by
  by_cases hp : 0 ∈ path
  · simp only [openHandle, toCString, if_pos hp]
    rfl
  · simp only [openHandle, toCString, if_neg hp, if_pos (h.resolve_left hp)]
    rfl

theorem openHandle_null (hp : 0 ∉ path) (hm : 0 ∉ mode)
    (hf : ¬ (env.file ≠ NULL ∧ s.libc.streams.cells env.file = none)) :
    openHandle kind type (.string path :: .string mode :: rest) env s = .ok (s, .undefined) := by
  simp only [openHandle, toCString, if_neg hp, if_neg hm, Libc.openStream_null hf, ok_bind]
  rfl

/-- With a stream, the rest is what `res_create_and_clone` makes of it. -/
theorem openHandle_stream (hp : 0 ∉ path) (hm : 0 ∉ mode)
    (hf : env.file ≠ NULL ∧ s.libc.streams.cells env.file = none) :
    openHandle kind type (.string path :: .string mode :: rest) env s =
      s.openedFiles.resCreateAndClone FileHandle.zero
        (fun _ => ⟨type, some ⟨env.file, s.libc.streams.next⟩⟩) env.mem >>= fun r =>
          .ok (⟨r.1, s.libc.afterOpen kind env.file env.input hf⟩,
            if 0 ≤ r.2.toInt then mkNumber r.2 else .undefined) := by
  simp only [openHandle, toCString, if_neg hp, if_neg hm, Libc.openStream_ok hf, ok_bind]
  congr 1
  funext r
  split <;> rfl

theorem openHandle_some (hinv : s.Inv) (hp : 0 ∉ path) (hm : 0 ∉ mode)
    (hid : s.openedFiles.FirstFree id) (hf hmem) :
    openHandle kind (typeOf kind) (.string path :: .string mode :: rest) env s =
      .ok (s.afterOpen kind env id hf hmem,
        if 0 ≤ id.toInt then mkNumber id else .undefined) := by
  rw [openHandle_stream hp hm hf, resCreateAndClone_ok hinv.mgn hid hmem]
  rfl

/-- An open does nothing, or fails on a string with a NUL or in the creation of its record,
or opens a stream and records it. -/
theorem openHandle_spec (args : List Val) (env : OpenEnv) (kind : StreamKind) (hinv : s.Inv) :
    openHandle kind (typeOf kind) args env s = .ok (s, .undefined) ∨
      (∃ e, openHandle kind (typeOf kind) args env s = .error e ∧
        (e = .nullString ∨ e = .outOfMemory ∨ e = .diverges)) ∨
      ∃ id hf hmem, s.openedFiles.FirstFree id ∧
        openHandle kind (typeOf kind) args env s =
          .ok (s.afterOpen kind env id hf hmem,
            if 0 ≤ id.toInt then mkNumber id else .undefined) := by
  by_cases hargs : ∃ path mode rest, args = .string path :: .string mode :: rest
  · obtain ⟨path, mode, rest, rfl⟩ := hargs
    by_cases hnul : 0 ∈ path ∨ 0 ∈ mode
    · exact .inr (.inl ⟨_, openHandle_nul hnul, .inl rfl⟩)
    · obtain ⟨hp, hm⟩ := not_or.mp hnul
      by_cases hf : env.file ≠ NULL ∧ s.libc.streams.cells env.file = none
      · rw [openHandle_stream hp hm hf]
        cases hc : s.openedFiles.resCreateAndClone FileHandle.zero
            (fun _ => ⟨typeOf kind, some ⟨env.file, s.libc.streams.next⟩⟩) env.mem with
        | error e =>
          exact .inr (.inl ⟨e, rfl, .inr (resCreateAndClone_error hinv.mgn hc).symm⟩)
        | ok r =>
          obtain ⟨hid, hmem, hmgn⟩ := resCreateAndClone_inv hinv.mgn hc
          refine .inr (.inr ⟨r.2, hf, hmem, hid, ?_⟩)
          rw [ok_bind, hmgn]
          rfl
      · exact .inl (openHandle_null hp hm hf)
  · exact .inl (openHandle_other fun path mode rest h => hargs ⟨path, mode, rest, h⟩)

/-- What an open does that returns. -/
theorem openHandle_inv (hinv : s.Inv)
    (h : openHandle kind (typeOf kind) args env s = .ok (s', v)) :
    (s' = s ∧ v = .undefined) ∨ ∃ id hf hmem, s.openedFiles.FirstFree id ∧
      s' = s.afterOpen kind env id hf hmem ∧
      v = if 0 ≤ id.toInt then mkNumber id else .undefined := by
  rcases openHandle_spec args env kind hinv with hs | ⟨e, hs, -⟩ | ⟨id, hf, hmem, hid, hs⟩
  · rw [hs] at h
    cases h
    exact .inl ⟨rfl, rfl⟩
  · rw [hs] at h
    cases h
  · rw [hs] at h
    cases h
    exact .inr ⟨id, hf, hmem, hid, rfl, rfl⟩

theorem openHandle_error {e : Fault} (hinv : s.Inv)
    (h : openHandle kind (typeOf kind) args env s = .error e) :
    e = .nullString ∨ e = .outOfMemory ∨ e = .diverges := by
  rcases openHandle_spec args env kind hinv with hs | ⟨e', hs, he⟩ | ⟨id, hf, hmem, hid, hs⟩
  · rw [hs] at h
    cases h
  · rw [hs] at h
    cases h
    exact he
  · rw [hs] at h
    cases h

/-- The strings of an open have no NUL, and the allocation of its record succeeds. -/
def OpenAllowed (s : FileLib) (args : List Val) (env : OpenEnv) : Prop :=
  ∀ path mode rest, args = .string path :: .string mode :: rest → 0 ∉ path ∧ 0 ∉ mode ∧
    (env.file ≠ NULL ∧ s.libc.streams.cells env.file = none →
      env.mem ≠ NULL ∧ s.openedFiles.table.heap.cells env.mem = none)

theorem openHandle_ok (hinv : s.Inv) (hid : s.openedFiles.FirstFree id)
    (ha : OpenAllowed s args env) :
    ∃ s' v, openHandle kind (typeOf kind) args env s = .ok (s', v) := by
  by_cases hargs : ∃ path mode rest, args = .string path :: .string mode :: rest
  · obtain ⟨path, mode, rest, rfl⟩ := hargs
    obtain ⟨hp, hm, hmem⟩ := ha path mode rest rfl
    by_cases hf : env.file ≠ NULL ∧ s.libc.streams.cells env.file = none
    · exact ⟨_, _, openHandle_some hinv hp hm hid hf (hmem hf)⟩
    · exact ⟨_, _, openHandle_null hp hm hf⟩
  · exact ⟨_, _, openHandle_other fun path mode rest h => hargs ⟨path, mode, rest, h⟩⟩

end

/-! ## Looking a handle up -/

/-- The record that the first argument designates. -/
def target (wild : JsNumber → CInt) (args : List Val) (s : FileLib) :
    Option (CInt × Ptr × Res FileHandle) :=
  (handleId wild args).bind fun id => (s.openedFiles.get id).map fun e => (id, e)

theorem handleId_nonneg (h : handleId wild args = some id) : 0 ≤ id.toInt := by
  unfold handleId at h
  split at h
  · split at h
    · next hnn =>
      cases h
      exact hnn
    · cases h
  · cases h

/-- The number that an open returned converts back to the id. -/
theorem toInt_intCast (id : CInt) : JsNumber.toInt wild (.finite id.toInt) = id := by
  have hlo : -2 ^ 32 ≤ 2 * id.toInt := BitVec.le_two_mul_toInt
  have hhi : 2 * id.toInt < 2 ^ 32 := BitVec.two_mul_toInt_lt
  have htrunc : ((id.toInt : Rat).num.tdiv (id.toInt : Rat).den) = id.toInt := by simp
  simp only [JsNumber.toInt, htrunc]
  rw [if_pos (by omega), BitVec.ofInt_toInt]

theorem handleId_mkNumber (hnn : 0 ≤ id.toInt) (args : List Val) :
    handleId wild (mkNumber id :: args) = some id := by
  simp only [handleId, mkNumber, toInt_intCast]
  exact if_pos hnn

theorem target_eq_some : s.target wild args = some (id, p, res) ↔
    handleId wild args = some id ∧ s.openedFiles.get id = some (p, res) := by
  unfold target
  cases handleId wild args with
  | none => simp
  | some i =>
    cases hg : s.openedFiles.get i with
    | none =>
      simp only [Option.bind_some, hg, Option.map_none, Option.some.injEq, reduceCtorEq, false_iff]
      rintro ⟨rfl, h⟩
      rw [hg] at h
      cases h
    | some e =>
      simp only [Option.bind_some, hg, Option.map_some, Option.some.injEq, Prod.mk.injEq]
      constructor
      · rintro ⟨rfl, rfl⟩
        exact ⟨rfl, hg⟩
      · rintro ⟨rfl, h⟩
        exact ⟨rfl, Option.some.inj (hg.symm.trans h)⟩

theorem getHandle_eq (hinv : s.Inv) :
    getHandle wild args s = .ok (s, (s.target wild args).map fun t => (t.1, t.2.1)) := by
  unfold getHandle target
  cases handleId wild args with
  | none => rfl
  | some id =>
    simp only [resGet_eq hinv.mgn.unlocked, ok_bind, Option.bind_some]
    rw [Option.map_map, Option.map_map]
    rfl

/-- The record of a live handle holds an open stream. -/
theorem Inv.target (h : s.Inv) (ht : s.target wild args = some (id, p, res)) :
    0 ≤ id.toInt ∧ ∃ fp kind, s.openedFiles.get id = some (p, ⟨id, ⟨typeOf kind, some fp⟩⟩) ∧
      res = ⟨id, ⟨typeOf kind, some fp⟩⟩ ∧ s.libc.kindOf fp = some kind := by
  obtain ⟨hid, hg⟩ := target_eq_some.mp ht
  have hnn := handleId_nonneg hid
  have hrec := h.recorded id p res hg
  rw [Recorded, if_pos hnn] at hrec
  obtain ⟨fp, kind, hdata, hopen⟩ := hrec
  have hres : res = ⟨id, ⟨typeOf kind, some fp⟩⟩ := by
    rw [← hdata, ← show res.id = id from Table.key_of_get hg]
  exact ⟨hnn, fp, kind, hres ▸ hg, hres, hopen⟩

/-! ## `fclose` and `pclose` -/

/-- The close function is that of the handle's type, whichever built-in asks for it. -/
theorem jscFileClose_typeOf (i : CInt) (libc : Libc) :
    jscFileClose i ⟨typeOf kind, some fp⟩ libc = libc.close kind (some fp) := by
  cases kind <;> rfl

theorem closeHandle_none (hinv : s.Inv) (ht : s.target wild args = none) :
    closeHandle wild args s = .ok (s, .undefined) := by
  rw [closeHandle, getHandle_eq hinv, ht]
  rfl

theorem closeHandle_some (hinv : s.Inv) (ht : s.target wild args = some (id, p, res)) :
    ∃ s' fp kind, closeHandle wild args s = .ok (s', .undefined) ∧ Closes s s' id p fp kind := by
  obtain ⟨hnn, fp, kind, hg, rfl, hopen⟩ := hinv.target ht
  obtain ⟨libc, hclose, hclosed⟩ := Libc.close_ok kind hopen
  obtain ⟨table, htable, hrel, hm, hget⟩ := resRelease_some hinv.mgn hg
  refine ⟨⟨{ s.openedFiles with table := table }, libc⟩, fp, kind, ?_,
    hm, hg, hget, rfl, ?_, hopen, hclosed⟩
  · rw [closeHandle, getHandle_eq hinv, ht, Option.map_some, ok_bind]
    simp only [deref_of_get hg, orFault, ok_bind, jscFileClose_typeOf, hclose, hrel]
    rfl
  · exact (Table.next_free htable : _ = (s.openedFiles.table.unlink p.addr).heap.next)

theorem closeHandle_ok (args : List Val) (hinv : s.Inv) :
    ∃ s', closeHandle wild args s = .ok (s', .undefined) := by
  cases ht : s.target wild args with
  | none => exact ⟨s, closeHandle_none hinv ht⟩
  | some t =>
    obtain ⟨s', fp, kind, hs', -⟩ := closeHandle_some hinv ht
    exact ⟨s', hs'⟩

/-! ## `readline` -/

theorem jscReadline_none {env : Libc.GetlineEnv} (hinv : s.Inv)
    (ht : s.target wild args = none) : jscReadline wild args env s = .ok (s, .undefined) := by
  rw [jscReadline, getHandle_eq hinv, ht]
  rfl

/-- The line is taken off the stream, and its value is lost. -/
theorem jscReadline_some {stream : Stream} (env : Libc.GetlineEnv) (hinv : s.Inv)
    (ht : s.target wild args = some (id, p, res)) (hfile : res.data.file = some fp)
    (hd : s.libc.streams.deref fp = some stream) :
    jscReadline wild args env s =
      .ok (⟨s.openedFiles, s.libc.store fp
        (stream.setInput (Libc.lineOf env (stream.input ++ env.arrived)).2)⟩, .undefined) := by
  rw [jscReadline, getHandle_eq hinv, ht, Option.map_some, ok_bind]
  simp only [deref_of_get (target_eq_some.mp ht).2, orFault, ok_bind, hfile,
    Libc.getline_ok env hd]
  rfl

theorem jscReadline_same (env : Libc.GetlineEnv) (hinv : s.Inv) :
    ∃ s', jscReadline wild args env s = .ok (s', .undefined) ∧ Same s s' := by
  cases ht : s.target wild args with
  | none => exact ⟨s, jscReadline_none hinv ht, .refl s⟩
  | some t =>
    obtain ⟨id, p, res⟩ := t
    obtain ⟨-, fp, kind, -, rfl, hopen⟩ := hinv.target ht
    obtain ⟨stream, hd, -⟩ := Libc.kindOf_eq_some.mp hopen
    have hk (input) : (stream.setInput input).kind = stream.kind := rfl
    exact ⟨⟨s.openedFiles, _⟩, jscReadline_some env hinv ht rfl hd, rfl,
      Libc.same_store hd (hk _)⟩

/-! ## `writestring` -/

/-- The record that `hdl` points to is allocated, and its stream is open. -/
def Held (s : FileLib) (hdl : Ptr) : Prop :=
  ∃ res fp kind, s.openedFiles.table.heap.deref hdl = some res ∧ res.data.file = some fp ∧
    s.libc.kindOf fp = some kind

section
variable {hdl : Ptr} {conv : Libc.Conversion} {convs : Nat → Libc.Conversion}

theorem Held.same (h : s.Held hdl) (hs : Same s s') : s'.Held hdl := by
  obtain ⟨res, fp, kind, hd, hfile, hopen⟩ := h
  refine ⟨res, fp, kind, ?_, hfile, (hs.libc.kindOf fp).trans hopen⟩
  rw [hs.openedFiles]
  exact hd

theorem Inv.held (h : s.Inv) (ht : s.target wild args = some (id, p, res)) : s.Held p := by
  obtain ⟨-, fp, kind, hg, -, hopen⟩ := h.target ht
  exact ⟨_, fp, kind, deref_of_get hg, rfl, hopen⟩

/-- The text has been appended to the stream at `fp`. Handles and all other streams are as they
were, and of V7's blocks `n` were allocated and the same were freed. -/
structure Writes (s s' : FileLib) (fp : Ptr) (stream : Stream) (text : Bytes) (n : Nat) :
    Prop where
  openedFiles : s'.openedFiles = s.openedFiles
  deref : ∀ q, s'.libc.streams.deref q =
    if q = fp then some (stream.append text) else s.libc.streams.deref q
  same : s.libc.Same s'.libc
  buffers : s.libc.buffers.Recycled s'.libc.buffers n

theorem writeArg_writes {stream : Stream} {res : Res FileHandle}
    (hd : s.openedFiles.table.heap.deref hdl = some res) (hfile : res.data.file = some fp)
    (hstream : s.libc.streams.deref fp = some stream) (hf : s.libc.Fits conv) :
    ∃ s', writeArg hdl conv s = .ok s' ∧
      Writes s s' fp stream (conv.text.takeWhile (· ≠ 0)) conv.blocks := by
  obtain ⟨buffers, p, hconv, hrelease⟩ := Libc.stringify_ok hf
  have hs : (s.libc.setBuffers buffers).streams.deref fp = some stream := hstream
  have hprint := Libc.fprintf_ok conv.text hs
  have hk : (stream.append (conv.text.takeWhile (· ≠ 0))).kind = stream.kind := rfl
  obtain ⟨buffers', hrel, hrecycled⟩ := hrelease ((s.libc.setBuffers buffers).store fp _) rfl
  refine ⟨{ s with libc := ((s.libc.setBuffers buffers).store fp
    (stream.append (conv.text.takeWhile (· ≠ 0)))).setBuffers buffers' }, ?_,
    rfl, Libc.deref_store hs, ?_, hrecycled⟩
  · simp only [writeArg, hconv, ok_bind, hd, orFault, hfile, hprint]
    rw [hrel, ok_bind]
    rfl
  · exact ((Libc.same_setBuffers buffers).trans (Libc.same_store hs hk)).trans
      (Libc.same_setBuffers buffers')

theorem writeArg_ok (hh : s.Held hdl) (hf : s.libc.Fits conv) :
    ∃ s', writeArg hdl conv s = .ok s' ∧ Same s s' ∧
      s'.libc.buffers.cells = s.libc.buffers.cells := by
  obtain ⟨res, fp, kind, hd, hfile, hopen⟩ := hh
  obtain ⟨stream, hstream, -⟩ := Libc.kindOf_eq_some.mp hopen
  obtain ⟨s', hs', hw⟩ := writeArg_writes hd hfile hstream hf
  exact ⟨s', hs', ⟨hw.openedFiles, hw.same⟩, hw.buffers.cells⟩

theorem writeArg_error (hf : ¬ s.libc.Fits conv) :
    writeArg hdl conv s = .error .outOfMemory := by
  rw [writeArg, Libc.stringify_error hf]
  rfl

/-- Through a handle that is gone, or whose stream is closed, nothing can be written. -/
theorem writeArg_not_held (hh : ¬ s.Held hdl) : ∃ e, writeArg hdl conv s = .error e := by
  cases h : writeArg hdl conv s with
  | error e => exact ⟨e, rfl⟩
  | ok s' =>
    obtain ⟨⟨libc, p⟩, hconv, h⟩ := bind_eq_ok.mp h
    obtain ⟨res, hres, h⟩ := bind_eq_ok.mp h
    obtain ⟨libc', hprint, -⟩ := bind_eq_ok.mp h
    obtain ⟨fp, hfile, hprint⟩ := bind_eq_ok.mp hprint
    obtain ⟨stream, hstream, -⟩ := bind_eq_ok.mp hprint
    refine absurd ⟨res, fp, stream.kind, orFault_eq_ok.mp hres, orFault_eq_ok.mp hfile, ?_⟩ hh
    have hsame : libc.streams = s.libc.streams := by
      by_cases hf : s.libc.Fits conv
      · obtain ⟨buffers, q, hq, -⟩ := Libc.stringify_ok hf
        rw [hq] at hconv
        cases hconv
        rfl
      · rw [Libc.stringify_error hf] at hconv
        cases hconv
    rw [Libc.kindOf, ← hsame, orFault_eq_ok.mp hstream]
    rfl

theorem writeArg_inv (h : writeArg hdl conv s = .ok s') : s.Held hdl ∧ Same s s' := by
  by_cases hh : s.Held hdl
  · by_cases hf : s.libc.Fits conv
    · obtain ⟨s₁, hs₁, hsame, -⟩ := writeArg_ok hh hf
      rw [hs₁] at h
      cases h
      exact ⟨hh, hsame⟩
    · rw [writeArg_error hf] at h
      cases h
  · obtain ⟨e, he⟩ := writeArg_not_held hh
    rw [he] at h
    cases h

/-- The loop of `writestring`. -/
theorem writeArgs_ok {l : List Nat} (hh : s.Held hdl) (hf : ∀ i ∈ l, s.libc.Fits (convs i)) :
    ∃ s', l.foldlM (fun s i => writeArg hdl (convs i) s) s = .ok s' ∧ Same s s' := by
  induction l generalizing s with
  | nil => exact ⟨s, rfl, .refl s⟩
  | cons i l ih =>
    obtain ⟨s₁, hs₁, hsame₁, hcells⟩ := writeArg_ok hh (hf i List.mem_cons_self)
    obtain ⟨s', hs', hsame'⟩ := ih (hh.same hsame₁) fun j hj => by
      rw [Libc.Fits, hcells]
      exact hf j (List.mem_cons_of_mem i hj)
    exact ⟨s', by rw [List.foldlM_cons, hs₁, ok_bind, hs'], hsame₁.trans hsame'⟩

theorem writeArgs_cases {l : List Nat} (hh : s.Held hdl) :
    l.foldlM (fun s i => writeArg hdl (convs i) s) s = .error .outOfMemory ∨
      ∃ s', l.foldlM (fun s i => writeArg hdl (convs i) s) s = .ok s' ∧ Same s s' := by
  induction l generalizing s with
  | nil => exact .inr ⟨s, rfl, .refl s⟩
  | cons i l ih =>
    rw [List.foldlM_cons]
    by_cases hf : s.libc.Fits (convs i)
    · obtain ⟨s₁, hs₁, hsame₁, -⟩ := writeArg_ok hh hf
      rw [hs₁, ok_bind]
      rcases ih (hh.same hsame₁) with he | ⟨s', hs', hsame'⟩
      · exact .inl he
      · exact .inr ⟨s', hs', hsame₁.trans hsame'⟩
    · rw [writeArg_error hf]
      exact .inl rfl

end

theorem jscWritestring_none {convs : Nat → Libc.Conversion} (hinv : s.Inv)
    (ht : s.target wild args = none) :
    jscWritestring wild args convs s = .ok (s, .undefined) := by
  rw [jscWritestring, getHandle_eq hinv, ht]
  rfl

theorem jscWritestring_some {convs : Nat → Libc.Conversion} (hinv : s.Inv)
    (ht : s.target wild args = some (id, p, res)) :
    jscWritestring wild args convs s =
      (List.range' 1 (args.length - 1)).foldlM (fun s i => writeArg p (convs i) s) s >>=
        fun s => .ok (s, .undefined) := by
  rw [jscWritestring, getHandle_eq hinv, ht]
  rfl

/-- `writestring` leaves handles and streams alone, or a conversion finds no memory. -/
theorem jscWritestring_cases (args : List Val) (convs : Nat → Libc.Conversion) (hinv : s.Inv) :
    jscWritestring wild args convs s = .error .outOfMemory ∨
      ∃ s', jscWritestring wild args convs s = .ok (s', .undefined) ∧ Same s s' := by
  cases ht : s.target wild args with
  | none => exact .inr ⟨s, jscWritestring_none hinv ht, .refl s⟩
  | some t =>
    obtain ⟨id, p, res⟩ := t
    rw [jscWritestring_some hinv ht]
    rcases @writeArgs_cases s p convs (List.range' 1 (args.length - 1)) (hinv.held ht) with
      he | ⟨s', hs', hsame⟩
    · rw [he]
      exact .inl rfl
    · rw [hs']
      exact .inr ⟨s', rfl, hsame⟩

theorem jscWritestring_ok {convs : Nat → Libc.Conversion} (hinv : s.Inv)
    (hf : ∀ i ∈ List.range' 1 (args.length - 1), s.libc.Fits (convs i)) :
    ∃ s', jscWritestring wild args convs s = .ok (s', .undefined) := by
  cases ht : s.target wild args with
  | none => exact ⟨s, jscWritestring_none hinv ht⟩
  | some t =>
    obtain ⟨id, p, res⟩ := t
    obtain ⟨s', hs', -⟩ := writeArgs_ok (hinv.held ht) hf
    refine ⟨s', ?_⟩
    rw [jscWritestring_some hinv ht, hs']
    rfl

/-! ## One call -/

/-- The record that a call closes. -/
def closing (wild : JsNumber → CInt) (s : FileLib) : Call → Option Ptr
  | .fclose args => (s.target wild args).map fun t => t.2.1
  | .pclose args => (s.target wild args).map fun t => t.2.1
  | _ => none

theorem closeHandle_closes (hinv : s.Inv) {v : Val}
    (ht : (s.target wild args).map (fun t => t.2.1) = some p)
    (h : closeHandle wild args s = .ok (s', v)) :
    ∃ id fp kind, Closes s s' id p fp kind := by
  obtain ⟨⟨id, q, res⟩, hfound, rfl⟩ := Option.map_eq_some_iff.mp ht
  obtain ⟨s₁, fp, kind, hs₁, hc⟩ := closeHandle_some hinv hfound
  rw [hs₁] at h
  cases h
  exact ⟨id, fp, kind, hc⟩

theorem closeHandle_same (hinv : s.Inv) {v : Val}
    (ht : (s.target wild args).map (fun t => t.2.1) = none)
    (h : closeHandle wild args s = .ok (s', v)) : Same s s' := by
  rw [closeHandle_none hinv (Option.map_eq_none_iff.mp ht)] at h
  cases h
  exact .refl _

theorem openHandle_cases {env : OpenEnv} {v : Val} (hinv : s.Inv)
    (h : openHandle kind (typeOf kind) args env s = .ok (s', v)) :
    Same s s' ∨ ∃ id p fp kind, Opens s s' id p fp kind := by
  rcases openHandle_inv hinv h with ⟨rfl, -⟩ | ⟨id, hf, hmem, hid, rfl, -⟩
  · exact .inl (.refl _)
  · exact .inr ⟨id, _, _, kind, opens_afterOpen hinv hid hf hmem⟩

theorem call_closes {c : Call} {v : Val} (hinv : s.Inv) (hp : closing wild s c = some p)
    (h : call wild s c = .ok (s', v)) : ∃ id fp kind, Closes s s' id p fp kind := by
  cases c with
  | fclose args => exact closeHandle_closes hinv hp h
  | pclose args => exact closeHandle_closes hinv hp h
  | fopen args env => cases hp
  | popen args env => cases hp
  | readline args env => cases hp
  | writestring args convs => cases hp

theorem call_keeps {c : Call} {v : Val} (hinv : s.Inv) (hp : closing wild s c = none)
    (h : call wild s c = .ok (s', v)) :
    Same s s' ∨ ∃ id p fp kind, Opens s s' id p fp kind := by
  cases c with
  | fopen args env => exact @openHandle_cases s s' args .file env v hinv h
  | popen args env => exact @openHandle_cases s s' args .pipe env v hinv h
  | fclose args => exact .inl (closeHandle_same hinv hp h)
  | pclose args => exact .inl (closeHandle_same hinv hp h)
  | readline args env =>
    obtain ⟨s₁, hs₁, hsame⟩ := @jscReadline_same wild s args env hinv
    rw [call, hs₁] at h
    cases h
    exact .inl hsame
  | writestring args convs =>
    rcases @jscWritestring_cases wild s args convs hinv with he | ⟨s₁, hs₁, hsame⟩
    · rw [call, he] at h
      cases h
    · rw [call, hs₁] at h
      cases h
      exact .inl hsame

/-- Every call that returns opens one stream, closes one, or does neither. -/
theorem call_cases {c : Call} {v : Val} (hinv : s.Inv) (h : call wild s c = .ok (s', v)) :
    Same s s' ∨ (∃ id p fp kind, Opens s s' id p fp kind) ∨
      ∃ id p fp kind, Closes s s' id p fp kind ∧ closing wild s c = some p := by
  cases hp : closing wild s c with
  | none =>
    rcases call_keeps hinv hp h with hsame | hopens
    · exact .inl hsame
    · exact .inr (.inl hopens)
  | some p =>
    obtain ⟨id, fp, kind, hc⟩ := call_closes hinv hp h
    exact .inr (.inr ⟨id, p, fp, kind, hc, rfl⟩)

/-- A call fails on a string with a NUL, in an allocation, or in the search for an id: never
in an access to a record or a stream. -/
theorem call_error {c : Call} {e : Fault} (hinv : s.Inv) (h : call wild s c = .error e) :
    e = .nullString ∨ e = .outOfMemory ∨ e = .diverges := by
  have hclose : ∀ args, closeHandle wild args s ≠ .error e := by
    intro args he
    obtain ⟨s₁, hs₁⟩ := @closeHandle_ok wild s args hinv
    rw [hs₁] at he
    cases he
  cases c with
  | fopen args env => exact @openHandle_error s args .file env e hinv h
  | popen args env => exact @openHandle_error s args .pipe env e hinv h
  | fclose args => exact absurd h (hclose args)
  | pclose args => exact absurd h (hclose args)
  | readline args env =>
    obtain ⟨s₁, hs₁, -⟩ := @jscReadline_same wild s args env hinv
    rw [call, hs₁] at h
    cases h
  | writestring args convs =>
    rcases @jscWritestring_cases wild s args convs hinv with he | ⟨s₁, hs₁, -⟩
    · rw [call, he] at h
      cases h
      exact .inr (.inl rfl)
    · rw [call, hs₁] at h
      cases h

theorem Inv.call {c : Call} {v : Val} (hinv : s.Inv) (h : call wild s c = .ok (s', v)) :
    s'.Inv := by
  rcases call_cases hinv h with hsame | ⟨id, p, fp, kind, ho⟩ | ⟨id, p, fp, kind, hc, -⟩
  · exact hinv.same hsame
  · exact hinv.opens ho
  · exact hinv.closes hc

/-- What the environment has to grant a call so that it returns: strings without NULs, and
allocations that succeed. -/
def Allowed (s : FileLib) : Call → Prop
  | .fopen args env => OpenAllowed s args env
  | .popen args env => OpenAllowed s args env
  | .fclose _ => True
  | .pclose _ => True
  | .readline _ _ => True
  | .writestring args convs =>
    ∀ i ∈ List.range' 1 (args.length - 1), s.libc.Fits (convs i)

theorem call_ok {c : Call} (hinv : s.Inv) (hid : s.openedFiles.FirstFree id)
    (ha : Allowed s c) : ∃ s' v, call wild s c = .ok (s', v) := by
  cases c with
  | fopen args env => exact @openHandle_ok s args id .file env hinv hid ha
  | popen args env => exact @openHandle_ok s args id .pipe env hinv hid ha
  | fclose args => exact (closeHandle_ok args hinv).imp fun s' hs' => ⟨_, hs'⟩
  | pclose args => exact (closeHandle_ok args hinv).imp fun s' hs' => ⟨_, hs'⟩
  | readline args env => exact (jscReadline_same env hinv).imp fun s' hs' => ⟨_, hs'.1⟩
  | writestring args convs => exact (jscWritestring_ok hinv ha).imp fun s' hs' => ⟨_, hs'⟩

end FileLib

end ShellJs
