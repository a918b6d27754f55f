import ShellJs.Lib.Runs
import ShellJs.Resource.Limits

/-!
# The resource manager is a finite map

Several threads call the manager. A critical section under the mutex is one step;
`res_create_and_clone` is two, the creation and the copy, and other threads run in
between. The data of a resource are bytes.

* `Act`, `step`: the steps of the threads. `Allowed` states what callers promise:
  allocations succeed, sizes fit `plat_mem_allocate`, a free id is left, and no id is
  released before the call that created it has returned.
* `Event`: what a step showed. The ghost history `hist` lists the events, the latest
  first, and `finMap` replays it as updates of a finite map, without looking at the
  manager.
* `inv_step`: the manager and the finite map of its history agree after every step.
* `CopiesMade`: `res_create_and_clone` gets an id that it does not take for a failure.
* `res_finite_map`: the consequences for runs, in terms of the history.
* `copy_lost`: after 2^31 creations `res_create_and_clone` copies nothing.
-/

namespace ShellJs.FiniteMap

open Runs ResMgn

abbrev Bytes := List UInt8

/-! ## The threads -/

/-- The zeroed data of the block that `res_create(size)` allocates. -/
def resBytes (size : UInt64) : Bytes := List.replicate (resRoom size) 0

/-- A thread between the two steps of `res_create_and_clone`. -/
structure CloneCall where
  id : CInt
  resource : Ptr
  source : Bytes
  size : UInt64

/-- `plat_mem_copy(resource, resource_for_clone, size)`. -/
def CloneCall.clone (c : CloneCall) (dest : Bytes) : Bytes := platMemCopy dest c.source c.size

inductive Act
  | create (t : Nat) (size : UInt64) (mem : Addr)
  | clone (t : Nat) (size : UInt64) (source : Bytes) (mem : Addr)
  | copy (t : Nat)
  | get (t : Nat) (id : CInt)
  | release (t : Nat) (id : CInt)
  | any (t : Nat)
  | releaseAll (t : Nat)

inductive Event
  | created (id : CInt) (p : Ptr) (data : Bytes)
  | copied (id : CInt) (source : Bytes)
  | got (id : CInt) (r : Option Ptr)
  | released (id : CInt)
  | any (id : CInt)
  | releasedAll (seen : List (CInt × Bytes))

structure Shared where
  mgn : ResMgn Bytes
  calls : Nat → Option CloneCall
  /-- ghost: the events so far, the latest first -/
  hist : List Event

def init : Shared := ⟨resCreateManagement, fun _ => none, []⟩

/-- The callback that `res_release_all` is given: it notes what it saw. -/
def note (id : CInt) (data : Bytes) (seen : List (CInt × Bytes)) :
    Except Fault (List (CInt × Bytes)) := .ok (seen ++ [(id, data)])

def step (s : Shared) : Act → Except Fault Shared
  | .create _ size mem => do
    let (mgn, id, p) ← s.mgn.resCreate (resBytes size) mem
    return { s with mgn := mgn, hist := .created id p (resBytes size) :: s.hist }
  | .clone t size source mem => do
    let (mgn, id, p) ← s.mgn.resCreate (resBytes size) mem
    return { mgn := mgn, calls := Function.update s.calls t (some ⟨id, p, source, size⟩),
             hist := .created id p (resBytes size) :: s.hist }
  | .copy t =>
    match s.calls t with
    | none => .ok s
    | some c => do
      let mgn ← s.mgn.cloneCopy c.clone c.id c.resource
      return { mgn := mgn, calls := Function.update s.calls t none,
               hist := .copied c.id c.source :: s.hist }
  | .get _ id => do
    let (mgn, r) ← s.mgn.resGet id
    return { s with mgn := mgn, hist := .got id r :: s.hist }
  | .release _ id => do
    let (mgn, _) ← s.mgn.resRelease id
    return { s with mgn := mgn, hist := .released id :: s.hist }
  | .any _ => do
    let (mgn, id) ← s.mgn.resAny
    return { s with mgn := mgn, hist := .any id :: s.hist }
  | .releaseAll _ => do
    let (mgn, seen) ← s.mgn.resReleaseAll note []
    return { s with mgn := mgn, hist := .releasedAll seen :: s.hist }

/-- The allocator has a block for the request, and the request fits the 32 bits of
`plat_mem_allocate`'s size. -/
def Allocates (s : Shared) (size : UInt64) (mem : Addr) : Prop :=
  (mem ≠ NULL ∧ s.mgn.table.heap.cells mem = none) ∧
    sizeofRes.toNat + size.toNat < 2 ^ 32 ∧ s.mgn.table.chain.length < 2 ^ 32

def Allowed (s : Shared) : Act → Prop
  | .create t size mem => s.calls t = none ∧ Allocates s size mem
  | .clone t size source mem =>
    s.calls t = none ∧ Allocates s size mem ∧ source.length = size.toNat
  | .copy t => s.calls t ≠ none
  | .get t _ => s.calls t = none
  | .release t id => s.calls t = none ∧ ∀ u c, s.calls u = some c → c.id ≠ id
  | .any t => s.calls t = none
  | .releaseAll _ => ∀ u, s.calls u = none

/-! ## The finite map of a history -/

abbrev FinMap := CInt → Option (Ptr × Bytes)

/-- A copy into a resource with a negative id is not made: `res_create_and_clone`
takes such an id for a failure. -/
def Event.apply : Event → FinMap → FinMap
  | .created id p data, m => Function.update m id (some (p, data))
  | .copied id source, m =>
    if 0 ≤ id.toInt then Function.update m id ((m id).map fun e => (e.1, source)) else m
  | .released id, m => Function.update m id none
  | .releasedAll _, _ => fun _ => none
  | .got _ _, m => m
  | .any _, m => m

def finMap (hist : List Event) : FinMap := hist.foldr Event.apply fun _ => none

/-- The event ends the life of the resource `id`. -/
def Event.Releases (id : CInt) : Event → Prop
  | .released i => i = id
  | .releasedAll _ => True
  | _ => False

/-- The resource `id` is live and nothing has been copied into it. -/
def uncopied (id : CInt) : List Event → Prop
  | [] => False
  | .created i _ _ :: h => i = id ∨ uncopied id h
  | .copied i _ :: h => i ≠ id ∧ uncopied id h
  | .released i :: h => i ≠ id ∧ uncopied id h
  | .releasedAll _ :: _ => False
  | .got _ _ :: h => uncopied id h
  | .any _ :: h => uncopied id h

/-- The answer in the event is the one that the history before it calls for. -/
def Event.Legal (h : List Event) : Event → Prop
  | .created id _ data => finMap h id = none ∧ ∃ size, data = resBytes size
  | .copied id _ => (finMap h id).isSome ∧ uncopied id h
  | .got id r => r = (finMap h id).map Prod.fst
  | .any id => (id = -1 ∧ ∀ i, finMap h i = none) ∨ finMap h id ≠ none
  | .released _ => True
  | .releasedAll _ => True

def LegalHist : List Event → Prop
  | [] => True
  | e :: h => e.Legal h ∧ LegalHist h

theorem finMap_cons {e : Event} {h : List Event} : finMap (e :: h) = e.apply (finMap h) := rfl

theorem LegalHist.tail {later earlier : List Event} (h : LegalHist (later ++ earlier)) :
    LegalHist earlier := by
  induction later with
  | nil => exact h
  | cons e later ih => exact ih h.2

/-- The event copies bytes into the resource `id`. -/
def Event.Copies (id : CInt) : Event → Prop
  | .copied i _ => i = id
  | _ => False

/-- Only its release takes a resource away from its id, no other creation gets the id
meanwhile, and only its own copy changes its bytes, unless the id is negative. -/
theorem live_step {e : Event} {h : List Event} {id : CInt} {p : Ptr} {data : Bytes}
    (hleg : e.Legal h) (hr : ¬ e.Releases id) (hm : finMap h id = some (p, data)) :
    ∃ data', finMap (e :: h) id = some (p, data') ∧
      (id.toInt < 0 ∨ ¬ e.Copies id → data' = data) := by
  rw [finMap_cons]
  cases e with
  | created i q d =>
    have hi : id ≠ i := by
      rintro rfl
      rw [hleg.1] at hm
      cases hm
    exact ⟨data, by rw [Event.apply, Function.update_of_ne hi, hm], fun _ => rfl⟩
  | copied i source =>
    by_cases hi : id = i
    · subst hi
      refine ⟨if 0 ≤ id.toInt then source else data, ?_, fun hc => ?_⟩
      · simp only [Event.apply]
        split
        · rw [Function.update_self, hm]
          rfl
        · exact hm
      · exact if_neg (Int.not_le.mpr (hc.resolve_right fun hc => hc rfl))
    · refine ⟨data, ?_, fun _ => rfl⟩
      simp only [Event.apply]
      split
      · rw [Function.update_of_ne hi, hm]
      · exact hm
  | released i =>
    have hi : id ≠ i := fun hi => hr hi.symm
    exact ⟨data, by rw [Event.apply, Function.update_of_ne hi, hm], fun _ => rfl⟩
  | releasedAll seen => exact absurd trivial hr
  | got i r => exact ⟨data, hm, fun _ => rfl⟩
  | any i => exact ⟨data, hm, fun _ => rfl⟩

theorem live_run {later h : List Event} {id : CInt} {p : Ptr} {data : Bytes}
    (hl : LegalHist (later ++ h)) (hr : ∀ e ∈ later, ¬ e.Releases id)
    (hm : finMap h id = some (p, data)) :
    ∃ data', finMap (later ++ h) id = some (p, data') ∧
      (id.toInt < 0 ∨ (∀ e ∈ later, ¬ e.Copies id) → data' = data) := by
  induction later with
  | nil => exact ⟨data, hm, fun _ => rfl⟩
  | cons e later ih =>
    obtain ⟨d, hd, hsame⟩ := ih hl.2 fun e he => hr e (List.mem_cons_of_mem _ he)
    obtain ⟨d', hd', hsame'⟩ := live_step hl.1 (hr e List.mem_cons_self) hd
    refine ⟨d', hd', fun hc => ?_⟩
    rw [hsame' (hc.imp_right fun hc => hc e List.mem_cons_self),
      hsame (hc.imp_right fun hc e he => hc e (List.mem_cons_of_mem _ he))]

/-- A resource is copied into once: by the call that created it. -/
theorem no_second_copy {later h : List Event} {id : CInt} (hl : LegalHist (later ++ h))
    (hr : ∀ e ∈ later, ¬ e.Releases id) (hlive : finMap h id ≠ none) (hun : ¬ uncopied id h) :
    (∀ e ∈ later, ¬ e.Copies id) ∧ ¬ uncopied id (later ++ h) := by
  induction later with
  | nil => exact ⟨fun e he => absurd he List.not_mem_nil, hun⟩
  | cons e later ih =>
    have hr' : ∀ e ∈ later, ¬ e.Releases id := fun e he => hr e (List.mem_cons_of_mem _ he)
    obtain ⟨hnc, hun'⟩ := ih hl.2 hr'
    obtain ⟨⟨p, data⟩, hm⟩ := Option.ne_none_iff_exists'.mp hlive
    obtain ⟨data', hm', -⟩ := live_run hl.2 hr' hm
    have hleg : e.Legal (later ++ h) := hl.1
    have hnce : ¬ e.Copies id := by
      intro hc
      cases e with
      | copied i source =>
        cases hc
        exact hun' hleg.2
      | _ => exact hc
    refine ⟨fun x hx => ?_, fun hu => ?_⟩
    · rcases List.mem_cons.mp hx with rfl | hx
      · exact hnce
      · exact hnc x hx
    · cases e with
      | created i q d =>
        -- a live id is not created again
        rcases hu with rfl | hu
        · rw [hleg.1] at hm'
          cases hm'
        · exact hun' hu
      | copied i source => exact hun' hu.2
      | released i => exact hun' hu.2
      | releasedAll seen => exact hu
      | got i r => exact hun' hu
      | any i => exact hun' hu

/-- The bytes of a copy stay until the resource is released. -/
theorem data_of_copied {later earlier : List Event} {id : CInt} {source : Bytes}
    (hl : LegalHist (later ++ .copied id source :: earlier)) (hid : 0 ≤ id.toInt)
    (hr : ∀ e ∈ later, ¬ e.Releases id) :
    ∃ p, finMap (later ++ .copied id source :: earlier) id = some (p, source) := by
  obtain ⟨⟨p, data⟩, hp⟩ := Option.isSome_iff_exists.mp hl.tail.1.1
  have hm : finMap (.copied id source :: earlier) id = some (p, source) := by
    rw [finMap_cons, Event.apply, if_pos hid, Function.update_self, hp]
    rfl
  -- the copy is the only one, so the bytes stay as they are
  obtain ⟨hnc, -⟩ := no_second_copy hl hr (by rw [hm]; exact Option.some_ne_none _) fun h => h.1 rfl
  obtain ⟨data', hd, hsame⟩ := live_run hl hr hm
  exact ⟨p, by rw [hd, hsame (.inr hnc)]⟩

/-- Until the copy, the bytes are the zeros of the allocation. -/
theorem zeros_of_uncopied {h : List Event} {id : CInt} {p : Ptr} {data : Bytes}
    (hl : LegalHist h) (hun : uncopied id h) (hm : finMap h id = some (p, data)) :
    ∃ size, data = resBytes size := by
  induction h with
  | nil => exact absurd hun not_false
  | cons e h ih =>
    rw [finMap_cons] at hm
    cases e with
    | created i q d =>
      by_cases hi : id = i
      · subst hi
        rw [Event.apply, Function.update_self] at hm
        cases hm
        exact hl.1.2
      · rw [Event.apply, Function.update_of_ne hi] at hm
        exact ih hl.2 (hun.resolve_left (Ne.symm hi)) hm
    | copied i source =>
      simp only [Event.apply] at hm
      split at hm
      · rw [Function.update_of_ne hun.1.symm] at hm
        exact ih hl.2 hun.2 hm
      · exact ih hl.2 hun.2 hm
    | released i =>
      rw [Event.apply, Function.update_of_ne hun.1.symm] at hm
      exact ih hl.2 hun.2 hm
    | releasedAll seen => exact absurd hun not_false
    | got i r => exact ih hl.2 hun hm
    | any i => exact ih hl.2 hun hm

/-- A copy into a resource with a negative id is not made: its bytes stay zeros. -/
theorem zeros_of_copied {later earlier : List Event} {id : CInt} {source : Bytes}
    (hl : LegalHist (later ++ .copied id source :: earlier)) (hid : id.toInt < 0)
    (hr : ∀ e ∈ later, ¬ e.Releases id) :
    ∃ p size, finMap (later ++ .copied id source :: earlier) id = some (p, resBytes size) := by
  obtain ⟨⟨hsome, hun⟩, hl'⟩ := hl.tail
  obtain ⟨⟨p, data⟩, hp⟩ := Option.isSome_iff_exists.mp hsome
  obtain ⟨size, rfl⟩ := zeros_of_uncopied hl' hun hp
  have hm : finMap (.copied id source :: earlier) id = some (p, resBytes size) := by
    rw [finMap_cons, Event.apply, if_neg (Int.not_le.mpr hid), hp]
  obtain ⟨data', hd, hsame⟩ := live_run hl hr hm
  exact ⟨p, size, by rw [hd, hsame (.inl hid)]⟩

/-- An id with no creation that outlives its releases is not in the map. -/
theorem finMap_eq_none {hist : List Event} {id : CInt}
    (h : ∀ later earlier p data, hist = later ++ .created id p data :: earlier →
      ∃ e ∈ later, e.Releases id) : finMap hist id = none := by
  induction hist with
  | nil => rfl
  | cons e hist ih =>
    rw [finMap_cons]
    by_cases hrel : e.Releases id
    · cases e with
      | released i =>
        have hi : i = id := hrel
        simp [Event.apply, hi]
      | releasedAll seen => rfl
      | created i q d => exact absurd hrel not_false
      | copied i source => exact absurd hrel not_false
      | got i r => exact absurd hrel not_false
      | any i => exact absurd hrel not_false
    · have hm : finMap hist id = none := by
        refine ih fun later earlier p data hh => ?_
        obtain ⟨x, hx, hxr⟩ := h (e :: later) earlier p data (by rw [hh]; rfl)
        rcases List.mem_cons.mp hx with rfl | hx
        · exact absurd hxr hrel
        · exact ⟨x, hx, hxr⟩
      cases e with
      | created i q d =>
        have hi : id ≠ i := by
          rintro rfl
          obtain ⟨x, hx, -⟩ := h [] hist q d rfl
          cases hx
        rw [Event.apply, Function.update_of_ne hi]
        exact hm
      | copied i source =>
        simp only [Event.apply]
        split
        · by_cases hi : id = i
          · subst hi
            rw [Function.update_self, hm]
            rfl
          · rw [Function.update_of_ne hi]
            exact hm
        · exact hm
      | released i =>
        have hi : id ≠ i := fun hi => hrel hi.symm
        rw [Event.apply, Function.update_of_ne hi]
        exact hm
      | releasedAll seen => rfl
      | got i r => exact hm
      | any i => exact hm

/-! ## The calls of `res_create_and_clone` that have not copied yet -/

/-- The pending call's block is still the one it created, zeroed, and its source fits. -/
structure CallOk (get : CInt → Option (Ptr × Res Bytes)) (hist : List Event) (c : CloneCall) :
    Prop where
  get : get c.id = some (c.resource, ⟨c.id, resBytes c.size⟩)
  uncopied : uncopied c.id hist
  length : c.source.length = c.size.toNat
  fits : sizeofRes.toNat + c.size.toNat < 2 ^ 32

structure CallsOk (get : CInt → Option (Ptr × Res Bytes)) (hist : List Event)
    (calls : Nat → Option CloneCall) : Prop where
  ok : ∀ t c, calls t = some c → CallOk get hist c
  inj : ∀ t u c d, calls t = some c → calls u = some d → c.id = d.id → t = u

section
variable {get get' : CInt → Option (Ptr × Res Bytes)} {hist hist' : List Event}
  {calls : Nat → Option CloneCall} {t : Nat} {c : CloneCall}

/-- A step that leaves the block and the history of every pending id alone. -/
theorem CallsOk.mono (h : CallsOk get hist calls)
    (hget : ∀ t c, calls t = some c → get' c.id = get c.id)
    (hun : ∀ t c, calls t = some c → ShellJs.FiniteMap.uncopied c.id hist →
      ShellJs.FiniteMap.uncopied c.id hist') :
    CallsOk get' hist' calls := by
  refine ⟨fun t c hc => ?_, h.inj⟩
  obtain ⟨hg, hu, hlen, hfit⟩ := h.ok t c hc
  exact ⟨(hget t c hc).trans hg, hun t c hc hu, hlen, hfit⟩

theorem CallsOk.add (h : CallsOk get hist calls) (hc : CallOk get hist c)
    (hne : ∀ u d, calls u = some d → d.id ≠ c.id) :
    CallsOk get hist (Function.update calls t (some c)) := by
  refine ⟨fun u d hd => ?_, fun u w d e hd he hde => ?_⟩
  · by_cases hut : u = t
    · rw [hut, Function.update_self] at hd
      cases hd
      exact hc
    · rw [Function.update_of_ne hut] at hd
      exact h.ok u d hd
  · by_cases hut : u = t <;> by_cases hwt : w = t
    · rw [hut, hwt]
    · rw [hut, Function.update_self] at hd
      rw [Function.update_of_ne hwt] at he
      cases hd
      exact absurd hde.symm (hne w e he)
    · rw [hwt, Function.update_self] at he
      rw [Function.update_of_ne hut] at hd
      cases he
      exact absurd hde (hne u d hd)
    · rw [Function.update_of_ne hut] at hd
      rw [Function.update_of_ne hwt] at he
      exact h.inj u w d e hd he hde

theorem CallsOk.remove (h : CallsOk get hist calls) :
    CallsOk get hist (Function.update calls t none) := by
  have hback : ∀ u d, Function.update calls t none u = some d → calls u = some d := by
    intro u d hd
    by_cases hut : u = t
    · rw [hut, Function.update_self] at hd
      cases hd
    · rwa [Function.update_of_ne hut] at hd
  exact ⟨fun u d hd => h.ok u d (hback u d hd),
    fun u w d e hd he => h.inj u w d e (hback u d hd) (hback w e he)⟩

end

/-! ## The manager agrees with the finite map of its history -/

structure Shared.Inv (s : Shared) : Prop where
  mgn : s.mgn.Inv
  map : ∀ id, (s.mgn.get id).map (fun e => (e.1, e.2.data)) = finMap s.hist id
  legal : LegalHist s.hist
  calls : CallsOk s.mgn.get s.hist s.calls

theorem inv_init : init.Inv :=
  ⟨inv_create, fun _ => rfl, trivial, by simp [init], by simp [init]⟩

/-- A copy that fits fills the data of the block with the source. -/
theorem clone_resBytes {c : CloneCall} (hlen : c.source.length = c.size.toNat)
    (hfit : sizeofRes.toNat + c.size.toNat < 2 ^ 32) :
    c.clone (resBytes c.size) = c.source := by
  have h64 : sizeofRes.toNat = 64 := rfl
  have hsum : (sizeofRes + c.size).toNat = 64 + c.size.toNat := by
    rw [UInt64.toNat_add, h64, Nat.mod_eq_of_lt (by omega)]
  have hn : platMemSize c.size = c.source.length := by
    rw [hlen, platMemSize_of_lt (by omega)]
  have hblock : (resBytes c.size).length = c.source.length := by
    rw [resBytes, List.length_replicate, resRoom, platMemSize_of_lt (by omega), hsum, h64, hlen]
    omega
  exact platMemCopy_all hblock hn

/-- What a creation does, for both functions that create. -/
theorem create_sim {s : Shared} (hinv : s.Inv) {size : UInt64} {mem : Addr}
    (ha : Allocates s size mem) :
    ∃ mgn id p, s.mgn.resCreate (resBytes size) mem = .ok (mgn, id, p) ∧ mgn.Inv ∧
      s.mgn.get id = none ∧ finMap s.hist id = none ∧
      ∀ i, mgn.get i = if i = id then some (p, ⟨id, resBytes size⟩) else s.mgn.get i := by
  obtain ⟨hmem, -, hlen⟩ := ha
  obtain ⟨id, hid⟩ := exists_firstFree hlen
  have hnone := get_eq_none_of_firstFree hid
  refine ⟨_, id, _, resCreate_ok hinv.mgn.unlocked hid hmem, inv_created hinv.mgn hid hmem,
    hnone, ?_, get_created hinv.mgn hid hmem⟩
  rw [← hinv.map id, hnone]
  rfl

/-- The entry of one id changes in the table and in the map. -/
theorem map_updated {s : Shared} (hinv : s.Inv) {mgn : ResMgn Bytes} {id : CInt}
    {entry : Option (Ptr × Res Bytes)}
    (hget : ∀ i, mgn.get i = if i = id then entry else s.mgn.get i) (i : CInt) :
    (mgn.get i).map (fun e => (e.1, e.2.data)) =
      Function.update (finMap s.hist) id (entry.map fun e => (e.1, e.2.data)) i := by
  rw [hget i]
  by_cases hi : i = id
  · rw [if_pos hi, hi, Function.update_self]
  · rw [if_neg hi, Function.update_of_ne hi]
    exact hinv.map i

theorem map_created {s : Shared} (hinv : s.Inv) {mgn : ResMgn Bytes} {id : CInt} {p : Ptr}
    {data : Bytes}
    (hget : ∀ i, mgn.get i = if i = id then some (p, ⟨id, data⟩) else s.mgn.get i) (i : CInt) :
    (mgn.get i).map (fun e => (e.1, e.2.data)) = finMap (.created id p data :: s.hist) i :=
  map_updated hinv hget i

theorem map_released {s : Shared} (hinv : s.Inv) {mgn : ResMgn Bytes} {id : CInt}
    (hget : ∀ i, mgn.get i = if i = id then none else s.mgn.get i) (i : CInt) :
    (mgn.get i).map (fun e => (e.1, e.2.data)) = finMap (.released id :: s.hist) i :=
  map_updated hinv hget i

theorem finMap_of_get {s : Shared} (hinv : s.Inv) {id : CInt} {p : Ptr} {res : Res Bytes}
    (h : s.mgn.get id = some (p, res)) : finMap s.hist id = some (p, res.data) := by
  rw [← hinv.map id, h]
  rfl

theorem finMap_eq_none_iff {s : Shared} (hinv : s.Inv) {id : CInt} :
    finMap s.hist id = none ↔ s.mgn.get id = none := by
  rw [← hinv.map id, Option.map_eq_none_iff]

theorem id_ne_of_get {s : Shared} (hinv : s.Inv) {id : CInt} (hnone : s.mgn.get id = none)
    (t : Nat) (c : CloneCall) (hc : s.calls t = some c) : c.id ≠ id := by
  rintro rfl
  rw [(hinv.calls.ok t c hc).get] at hnone
  cases hnone

theorem callsOk_created {s : Shared} (hinv : s.Inv) {get : CInt → Option (Ptr × Res Bytes)}
    {id : CInt} {p : Ptr} {data : Bytes} (hnone : s.mgn.get id = none)
    (hget : ∀ i, get i = if i = id then some (p, ⟨id, data⟩) else s.mgn.get i) :
    CallsOk get (.created id p data :: s.hist) s.calls := by
  refine hinv.calls.mono (fun t c hc => ?_) fun _ _ _ hu => .inr hu
  rw [hget, if_neg (id_ne_of_get hinv hnone t c hc)]

theorem inv_step_create {s : Shared} (hinv : s.Inv) {t : Nat} {size : UInt64} {mem : Addr}
    (ha : Allowed s (.create t size mem)) :
    ∃ s', step s (.create t size mem) = .ok s' ∧ s'.Inv := by
  obtain ⟨mgn, id, p, hc, hm, hnone, hfin, hget⟩ := create_sim hinv ha.2
  refine ⟨{ s with mgn := mgn, hist := .created id p (resBytes size) :: s.hist }, ?_, hm,
    map_created hinv hget, ⟨⟨hfin, size, rfl⟩, hinv.legal⟩, callsOk_created hinv hnone hget⟩
  simp only [step, hc, ok_bind]
  rfl

theorem inv_step_clone {s : Shared} (hinv : s.Inv) {t : Nat} {size : UInt64} {source : Bytes}
    {mem : Addr} (ha : Allowed s (.clone t size source mem)) :
    ∃ s', step s (.clone t size source mem) = .ok s' ∧ s'.Inv := by
  obtain ⟨-, hal, hlen⟩ := ha
  obtain ⟨mgn, id, p, hc, hm, hnone, hfin, hget⟩ := create_sim hinv hal
  refine ⟨⟨mgn, Function.update s.calls t (some ⟨id, p, source, size⟩),
    .created id p (resBytes size) :: s.hist⟩, ?_, hm, map_created hinv hget,
    ⟨⟨hfin, size, rfl⟩, hinv.legal⟩,
    (callsOk_created hinv hnone hget).add ⟨?_, .inl rfl, hlen, hal.2.1⟩
      (id_ne_of_get hinv hnone)⟩
  · simp only [step, hc, ok_bind]
    rfl
  · rw [hget, if_pos rfl]

theorem inv_step_copy {s : Shared} (hinv : s.Inv) {t : Nat} (ha : Allowed s (.copy t)) :
    ∃ s', step s (.copy t) = .ok s' ∧ s'.Inv := by
  obtain ⟨c, hc⟩ := Option.ne_none_iff_exists'.mp ha
  obtain ⟨hg, hun, hlen, hfit⟩ := hinv.calls.ok t c hc
  have hfin : finMap s.hist c.id = some (c.resource, resBytes c.size) := finMap_of_get hinv hg
  -- the calls that are left have other ids
  have hne : ∀ u d, Function.update s.calls t none u = some d → d.id ≠ c.id := by
    intro u d hd hdc
    by_cases hut : u = t
    · rw [hut, Function.update_self] at hd
      cases hd
    · rw [Function.update_of_ne hut] at hd
      exact hut (hinv.calls.inj u t d c hd hc hdc)
  have hun' : ∀ u d, Function.update s.calls t none u = some d → uncopied d.id s.hist →
      uncopied d.id (.copied c.id c.source :: s.hist) :=
    fun u d hd hu => ⟨(hne u d hd).symm, hu⟩
  have hleg : LegalHist (.copied c.id c.source :: s.hist) :=
    ⟨⟨by rw [hfin]; rfl, hun⟩, hinv.legal⟩
  have hcopy := cloneCopy_ok c.clone hg
  by_cases hid : 0 ≤ c.id.toInt
  · have hget := get_cloned c.clone hinv.mgn hg
    rw [if_pos hid] at hcopy
    refine ⟨⟨s.mgn.cloned c.clone c.resource ⟨c.id, resBytes c.size⟩,
        Function.update s.calls t none, .copied c.id c.source :: s.hist⟩,
      by simp only [step, hc, hcopy, ok_bind]; rfl, inv_cloned hinv.mgn hg, fun i => ?_, hleg,
      hinv.calls.remove.mono (fun u d hd => ?_) hun'⟩
    · rw [map_updated hinv hget i, finMap_cons, Event.apply, if_pos hid, hfin]
      simp only [Option.map_some, clone_resBytes hlen hfit]
    · rw [hget, if_neg (hne u d hd)]
  · rw [if_neg hid] at hcopy
    refine ⟨⟨s.mgn, Function.update s.calls t none, .copied c.id c.source :: s.hist⟩,
      by simp only [step, hc, hcopy, ok_bind]; rfl, hinv.mgn, fun i => ?_, hleg,
      hinv.calls.remove.mono (fun _ _ _ => rfl) hun'⟩
    rw [finMap_cons, Event.apply, if_neg hid]
    exact hinv.map i

theorem inv_step_get {s : Shared} (hinv : s.Inv) {t : Nat} {id : CInt} :
    ∃ s', step s (.get t id) = .ok s' ∧ s'.Inv := by
  refine ⟨{ s with hist := .got id ((s.mgn.get id).map Prod.fst) :: s.hist }, ?_, hinv.mgn,
    hinv.map, ⟨?_, hinv.legal⟩, hinv.calls.mono (fun _ _ _ => rfl) fun _ _ _ hu => hu⟩
  · simp only [step, resGet_eq hinv.mgn.unlocked, ok_bind]
    rfl
  · show _ = (finMap s.hist id).map Prod.fst
    rw [← hinv.map id, Option.map_map]
    rfl

theorem inv_step_release {s : Shared} (hinv : s.Inv) {t : Nat} {id : CInt}
    (ha : Allowed s (.release t id)) :
    ∃ s', step s (.release t id) = .ok s' ∧ s'.Inv := by
  have hleg : LegalHist (.released id :: s.hist) := ⟨trivial, hinv.legal⟩
  have hun : ∀ u c, s.calls u = some c → uncopied c.id s.hist →
      uncopied c.id (.released id :: s.hist) := fun u c hc hu => ⟨(ha.2 u c hc).symm, hu⟩
  obtain ⟨mgn, hrel, hm, -, hget⟩ := inv_resRelease hinv.mgn id
  refine ⟨⟨mgn, s.calls, .released id :: s.hist⟩, ?_, hm, map_released hinv hget, hleg,
    hinv.calls.mono (fun u c hc => ?_) hun⟩
  · simp only [step, hrel, ok_bind]
    rfl
  · rw [hget, if_neg (ha.2 u c hc)]

theorem inv_step_any {s : Shared} (hinv : s.Inv) {t : Nat} :
    ∃ s', step s (.any t) = .ok s' ∧ s'.Inv := by
  refine ⟨{ s with hist := .any s.mgn.newest :: s.hist }, ?_, hinv.mgn, hinv.map,
    ⟨?_, hinv.legal⟩, hinv.calls.mono (fun _ _ _ => rfl) fun _ _ _ hu => hu⟩
  · simp only [step, resAny_eq hinv.mgn, ok_bind]
    rfl
  · rcases newest_cases hinv.mgn with ⟨hnil, hn⟩ | ⟨p, res, -, hg⟩
    · exact .inl ⟨hn, fun i => (finMap_eq_none_iff hinv).mpr (get_of_nil hnil i)⟩
    · refine .inr fun hnone => ?_
      rw [finMap_of_get hinv hg] at hnone
      cases hnone

theorem callbacks_note (l : List (Res Bytes)) (seen : List (CInt × Bytes)) :
    callbacks note seen l = .ok (seen ++ l.map fun res => (res.id, res.data)) := by
  induction l generalizing seen with
  | nil => simp [callbacks, pure, Except.pure]
  | cons res l ih =>
    have hstep : callbacks note seen (res :: l) = callbacks note (seen ++ [(res.id, res.data)]) l :=
      rfl
    rw [hstep, ih, List.map_cons, List.append_assoc]
    rfl

theorem inv_step_releaseAll {s : Shared} (hinv : s.Inv) {t : Nat} (ha : Allowed s (.releaseAll t)) :
    ∃ s', step s (.releaseAll t) = .ok s' ∧ s'.Inv := by
  obtain ⟨mgn, hrel, hm, -, -, -, hget⟩ := resReleaseAll_ok hinv.mgn (callbacks_note _ [])
  refine ⟨⟨mgn, s.calls,
    .releasedAll ([] ++ s.mgn.records.map fun res => (res.id, res.data)) :: s.hist⟩,
    by simp only [step, hrel, ok_bind]; rfl, hm, fun id => ?_,
    ⟨trivial, hinv.legal⟩, fun u c hc => ?_, hinv.calls.inj⟩
  · show (mgn.get id).map _ = _
    rw [hget id]
    rfl
  · have hc' : s.calls u = some c := hc
    rw [ha u] at hc'
    cases hc'

theorem inv_step (s : Shared) (a : Act) (hinv : s.Inv) (ha : Allowed s a) :
    ∃ s', step s a = .ok s' ∧ s'.Inv := by
  cases a with
  | create t size mem => exact inv_step_create hinv ha
  | clone t size source mem => exact inv_step_clone hinv ha
  | copy t => exact inv_step_copy hinv ha
  | get t id => exact inv_step_get hinv
  | release t id => exact inv_step_release hinv ha
  | any t => exact inv_step_any hinv
  | releaseAll t => exact inv_step_releaseAll hinv ha

/-! ## Runs -/

/-- `res_get` finds what the finite map of the history has under the id. -/
theorem resGet_finMap {s : Shared} (hinv : s.Inv) (id : CInt) :
    s.mgn.resGet id = .ok (s.mgn, (finMap s.hist id).map Prod.fst) := by
  rw [resGet_eq hinv.mgn.unlocked, ← hinv.map id, Option.map_map]
  rfl

/-- The pointer that `res_get` finds leads to the bytes of the finite map. -/
theorem deref_finMap {s : Shared} (hinv : s.Inv) {id : CInt} {p : Ptr} {data : Bytes}
    (h : finMap s.hist id = some (p, data)) :
    s.mgn.table.heap.deref p = some ⟨id, data⟩ := by
  rw [← hinv.map id] at h
  obtain ⟨⟨q, res⟩, hg, he⟩ := Option.map_eq_some_iff.mp h
  cases he
  have hid : res.id = id := Table.key_of_get hg
  rw [← hid]
  exact Heap.deref_of_entry (Table.get_eq_some.mp hg).2

/-- `res_create_and_clone` copies only if its id is not negative. -/
def CopiesMade (s : Shared) : Act → Prop
  | .clone _ _ _ _ => s.mgn.NonnegFirst
  | _ => True

/-- The copies so far and those still to come are into resources with non-negative ids. -/
structure CopiesNonneg (s : Shared) : Prop where
  copied : ∀ id source, Event.copied id source ∈ s.hist → 0 ≤ id.toInt
  pending : ∀ t c, s.calls t = some c → 0 ≤ c.id.toInt

theorem copiesNonneg_init : CopiesNonneg init :=
  ⟨fun _ _ h => absurd h List.not_mem_nil, fun _ _ h => by cases h⟩

theorem CopiesNonneg.add {s : Shared} (h : CopiesNonneg s) {mgn : ResMgn Bytes}
    {calls : Nat → Option CloneCall} {e : Event}
    (he : ∀ id source, e = .copied id source → 0 ≤ id.toInt)
    (hcalls : ∀ t c, calls t = some c → 0 ≤ c.id.toInt) :
    CopiesNonneg ⟨mgn, calls, e :: s.hist⟩ := by
  refine ⟨fun id source hm => ?_, hcalls⟩
  rcases List.mem_cons.mp hm with hm | hm
  · exact he id source hm.symm
  · exact h.copied id source hm

theorem copiesNonneg_step {s s' : Shared} {a : Act} (h : CopiesNonneg s) (ha : CopiesMade s a)
    (hs : step s a = .ok s') : CopiesNonneg s' := by
  cases a with
  | create t size mem =>
    obtain ⟨⟨mgn, id, p⟩, -, hs⟩ := bind_eq_ok.mp hs
    cases hs
    exact h.add (fun _ _ he => by cases he) h.pending
  | clone t size source mem =>
    obtain ⟨⟨mgn, id, p⟩, hc, hs⟩ := bind_eq_ok.mp hs
    cases hs
    refine h.add (fun _ _ he => by cases he) fun u c hu => ?_
    by_cases hut : u = t
    · -- the new call has the first free id
      rw [hut, Function.update_self] at hu
      cases hu
      obtain ⟨id', hid', hnn⟩ := nonnegFirst_iff.mp ha
      obtain ⟨hid, -⟩ := resCreate_inv hc
      rw [firstFree_unique hid hid']
      exact hnn
    · rw [Function.update_of_ne hut] at hu
      exact h.pending u c hu
  | copy t =>
    cases hc : s.calls t with
    | none =>
      simp only [step, hc] at hs
      cases hs
      exact h
    | some c =>
      simp only [step, hc] at hs
      obtain ⟨mgn, -, hs⟩ := bind_eq_ok.mp hs
      cases hs
      refine h.add (fun id source he => ?_) fun u d hu => ?_
      · cases he
        exact h.pending t c hc
      · by_cases hut : u = t
        · rw [hut, Function.update_self] at hu
          cases hu
        · rw [Function.update_of_ne hut] at hu
          exact h.pending u d hu
  | get t id =>
    obtain ⟨⟨mgn, r⟩, -, hs⟩ := bind_eq_ok.mp hs
    cases hs
    exact h.add (fun _ _ he => by cases he) h.pending
  | release t id =>
    obtain ⟨⟨mgn, r⟩, -, hs⟩ := bind_eq_ok.mp hs
    cases hs
    exact h.add (fun _ _ he => by cases he) h.pending
  | any t =>
    obtain ⟨⟨mgn, r⟩, -, hs⟩ := bind_eq_ok.mp hs
    cases hs
    exact h.add (fun _ _ he => by cases he) h.pending
  | releaseAll t =>
    obtain ⟨⟨mgn, r⟩, -, hs⟩ := bind_eq_ok.mp hs
    cases hs
    exact h.add (fun _ _ he => by cases he) h.pending

/-- Every allowed run, of any length and interleaving, ends without a fault: no block is
freed twice, none is used after its release, and no call hangs. At its end

* no two allocated blocks hold resources with one id, and no creation of the run was
  given an id that was live;
* `res_get` finds the block of the creation that returned the id, up to the id's next
  release, with the zeros of the creation until the creator's copy;
* after the copy it holds the source if the id is not negative, and still the zeros if it is;
* `res_get` finds `nil` when every creation that returned the id has been released;
* every block was freed at most once, and is free or the block of a linked resource.

In runs whose calls of `res_create_and_clone` all find a non-negative id first, every copied
resource holds its source until it is released. -/
theorem res_finite_map (acts : List Act) (hallowed : Along step Allowed init acts) :
    ∃ s, exec step init acts = .ok s ∧
      (∀ a b ra rb, s.mgn.table.heap.read a = some ra → s.mgn.table.heap.read b = some rb →
        ra.id = rb.id → a = b) ∧
      (∀ later earlier id p data, s.hist = later ++ .created id p data :: earlier →
        finMap earlier id = none) ∧
      (∀ later earlier id p data, s.hist = later ++ .created id p data :: earlier →
        (∀ e ∈ later, ¬ e.Releases id) →
        s.mgn.resGet id = .ok (s.mgn, some p) ∧ (∃ size, data = resBytes size) ∧
        ((∀ e ∈ later, ¬ e.Copies id) → s.mgn.table.heap.deref p = some ⟨id, data⟩)) ∧
      (∀ later earlier id source, s.hist = later ++ .copied id source :: earlier →
        (∀ e ∈ later, ¬ e.Releases id) →
        ∃ p size, s.mgn.resGet id = .ok (s.mgn, some p) ∧
          s.mgn.table.heap.deref p =
            some ⟨id, if 0 ≤ id.toInt then source else resBytes size⟩) ∧
      (∀ id, (∀ later earlier p data, s.hist = later ++ .created id p data :: earlier →
          ∃ e ∈ later, e.Releases id) →
        s.mgn.resGet id = .ok (s.mgn, none)) ∧
      s.mgn.table.heap.frees.Nodup ∧
      (∀ a res, s.mgn.table.heap.read a = some res → a ∈ s.mgn.table.chain) ∧
      (Along step CopiesMade init acts →
        ∀ later earlier id source, s.hist = later ++ .copied id source :: earlier →
          (∀ e ∈ later, ¬ e.Releases id) →
          ∃ p, s.mgn.resGet id = .ok (s.mgn, some p) ∧
            s.mgn.table.heap.deref p = some ⟨id, source⟩) := by
  obtain ⟨s, hs, hinv⟩ := exec_progress inv_step inv_init hallowed
  -- the bytes of a copied resource, by the sign of its id
  have hcopied : ∀ later earlier id source, s.hist = later ++ .copied id source :: earlier →
      (∀ e ∈ later, ¬ e.Releases id) →
      ∃ p size, s.mgn.resGet id = .ok (s.mgn, some p) ∧
        s.mgn.table.heap.deref p =
          some ⟨id, if 0 ≤ id.toInt then source else resBytes size⟩ := by
    intro later earlier id source hh hr
    have hl := hinv.legal
    rw [hh] at hl
    rcases Int.lt_or_le id.toInt 0 with hid | hid
    · obtain ⟨p, size, hp⟩ := zeros_of_copied hl hid hr
      rw [← hh] at hp
      refine ⟨p, size, by rw [resGet_finMap hinv, hp]; rfl, ?_⟩
      rw [if_neg (Int.not_le.mpr hid)]
      exact deref_finMap hinv hp
    · obtain ⟨p, hp⟩ := data_of_copied hl hid hr
      rw [← hh] at hp
      refine ⟨p, 0, by rw [resGet_finMap hinv, hp]; rfl, ?_⟩
      rw [if_pos hid]
      exact deref_finMap hinv hp
  refine ⟨s, hs, fun a b ra rb hra hrb hid => ?_, fun later earlier id p data hh => ?_,
    fun later earlier id p data hh hr => ?_, hcopied, fun id hid => ?_,
    s.mgn.table.heap.frees_nodup, hinv.mgn.owned, fun hmade later earlier id source hh hr => ?_⟩
  · refine hinv.mgn.wf.keys a (hinv.mgn.owned a ra hra) b (hinv.mgn.owned b rb hrb) ?_
    rw [Table.keyAt_of_read hra, Table.keyAt_of_read hrb, hid]
  · have hl := hinv.legal
    rw [hh] at hl
    exact hl.tail.1.1
  · have hl := hinv.legal
    rw [hh] at hl
    have hm : finMap (.created id p data :: earlier) id = some (p, data) := by
      rw [finMap_cons, Event.apply, Function.update_self]
    obtain ⟨data', hd, hsame⟩ := live_run hl hr hm
    rw [← hh] at hd
    refine ⟨by rw [resGet_finMap hinv, hd]; rfl, hl.tail.1.2, fun hc => ?_⟩
    rw [hsame (.inr hc)] at hd
    exact deref_finMap hinv hd
  · rw [resGet_finMap hinv, finMap_eq_none hid]
    rfl
  · have hnn : CopiesNonneg s := exec_invariant (fun _ _ _ h ha hs => copiesNonneg_step h ha hs)
      copiesNonneg_init hmade hs
    have hid : 0 ≤ id.toInt := hnn.copied id source (by rw [hh]; simp)
    obtain ⟨p, size, hget, hd⟩ := hcopied later earlier id source hh hr
    rw [if_pos hid] at hd
    exact ⟨p, hget, hd⟩

/-- Two threads: the second creates a resource and releases it between the two steps of
the first one's `res_create_and_clone`. -/
theorem res_finite_map_two_threads :
    ∃ s p, exec step init [.clone 0 3 [7, 8, 9] 16, .create 1 8 32, .release 1 1, .copy 0]
        = .ok s ∧ s.mgn.resGet 0 = .ok (s.mgn, some p) ∧
      s.mgn.table.heap.deref p = some ⟨0, [7, 8, 9]⟩ := by
  obtain ⟨s, hs, -, -, -, -, -, -, -, hmade⟩ := res_finite_map
    [.clone 0 3 [7, 8, 9] 16, .create 1 8 32, .release 1 1, .copy 0] (by
      refine ⟨⟨rfl, ⟨⟨by decide, rfl⟩, by decide, by decide⟩, rfl⟩, fun s₁ h₁ => ?_⟩
      cases h₁
      refine ⟨⟨rfl, ⟨by decide, rfl⟩, by decide, by decide⟩, fun s₂ h₂ => ?_⟩
      cases h₂
      refine ⟨⟨rfl, fun u c hc => ?_⟩, fun s₃ h₃ => ?_⟩
      · by_cases hu : u = 0
        · subst hu
          cases hc
          decide
        · have hc' := (Function.update_of_ne hu _ _).symm.trans hc
          cases hc'
      · cases h₃
        exact ⟨Option.some_ne_none _, fun _ _ => trivial⟩)
  have hfirst : init.mgn.NonnegFirst :=
    nonnegFirst_iff.mpr ⟨0, firstFree_of_nil rfl, by decide⟩
  obtain ⟨p, hget, hd⟩ := hmade ⟨hfirst, fun _ _ => ⟨trivial, fun _ _ => ⟨trivial, fun _ _ =>
    ⟨trivial, fun _ _ => trivial⟩⟩⟩⟩ [] [.released 1, .created 1 ⟨32, 1⟩ (resBytes 8),
      .created 0 ⟨16, 0⟩ (resBytes 3)] 0 [7, 8, 9] (by cases hs; rfl) (by simp)
  exact ⟨s, p, hs, hget, hd⟩

/-! ## Past `INT_MAX` -/

/-- `n` times a creation and a release of everything. -/
def cycles : Nat → List Act
  | 0 => []
  | n + 1 => .create 0 8 16 :: .releaseAll 0 :: cycles n

theorem exec_cycles (n : Nat) {s : Shared} (hinv : s.mgn.Inv) (hc : s.mgn.table.chain = [])
    (hcalls : s.calls = fun _ => none) :
    Along step Allowed s (cycles n) ∧ ∃ s', exec step s (cycles n) = .ok s' ∧ s'.mgn.Inv ∧
      s'.mgn.table.chain = [] ∧ s'.calls = (fun _ => none) ∧
      s'.mgn.lastId = s.mgn.lastId + BitVec.ofNat 32 n := by
  induction n generalizing s with
  | zero => exact ⟨trivial, s, rfl, hinv, hc, hcalls, (BitVec.add_zero s.mgn.lastId).symm⟩
  | succ n ih =>
    obtain ⟨c, p, m, hcreate, hrel, -, hm, hlast, hc'⟩ :=
      cycle_ok (resBytes 8) (by decide : (16 : Addr) ≠ NULL) note [] hinv hc rfl
    have hs₁ : step s (.create 0 8 16) =
        .ok ⟨c, s.calls, .created s.mgn.lastId p (resBytes 8) :: s.hist⟩ := by
      simp only [step, hcreate, ok_bind]
      rfl
    obtain ⟨s₂, hs₂, hm₂, hcalls₂⟩ : ∃ s₂,
        step ⟨c, s.calls, .created s.mgn.lastId p (resBytes 8) :: s.hist⟩ (.releaseAll 0) = .ok s₂ ∧
        s₂.mgn = m ∧ s₂.calls = s.calls := by
      refine ⟨⟨m, s.calls, .releasedAll ([] ++ [(s.mgn.lastId, resBytes 8)]) ::
        .created s.mgn.lastId p (resBytes 8) :: s.hist⟩, ?_, rfl, rfl⟩
      simp only [step, hrel, ok_bind]
      rfl
    obtain ⟨hall, s', hs', hinv', hc'', hcalls', hlast'⟩ :=
      @ih s₂ (hm₂ ▸ hm) (hm₂ ▸ hc') (hcalls₂.trans hcalls)
    refine ⟨⟨⟨by rw [hcalls], ⟨by decide, cells_of_nil hinv hc 16⟩, by decide,
      by rw [hc]; decide⟩, fun s₁ h₁ => ?_⟩, s', ?_, hinv', hc'', hcalls', ?_⟩
    · rw [hs₁] at h₁
      cases h₁
      refine ⟨fun u => congrFun hcalls u, fun t ht => ?_⟩
      rw [hs₂] at ht
      cases ht
      exact hall
    · rw [cycles, exec_cons_ok hs₁, exec_cons_ok hs₂]
      exact hs'
    · rw [hlast', hm₂, hlast, BitVec.add_assoc, BitVec.ofNat_add, BitVec.add_comm 1]
      rfl

/-- A negative id is taken for a failure: the resource is there, but holds zeros and not the
source. -/
theorem copy_lost_step {s : Shared} (hinv : s.mgn.Inv) (hc : s.mgn.table.chain = [])
    (hcalls : s.calls = fun _ => none) (hneg : s.mgn.lastId.toInt < 0) :
    Along step Allowed s [.clone 0 3 [7, 8, 9] 16, .copy 0] ∧
      ∃ s' p, exec step s [.clone 0 3 [7, 8, 9] 16, .copy 0] = .ok s' ∧
        s'.hist = .copied s.mgn.lastId [7, 8, 9] ::
          .created s.mgn.lastId p [0, 0, 0] :: s.hist ∧
        s'.mgn.resGet s.mgn.lastId = .ok (s'.mgn, some p) ∧
        s'.mgn.table.heap.deref p = some ⟨s.mgn.lastId, [0, 0, 0]⟩ := by
  have hzero : resBytes 3 = [0, 0, 0] := by decide
  have ha : (16 : Addr) ≠ NULL ∧ s.mgn.table.heap.cells 16 = none :=
    ⟨by decide, cells_of_nil hinv hc 16⟩
  have hid := firstFree_of_nil hc
  obtain ⟨mgn, p, hcreate, hget, hinv'⟩ : ∃ mgn p,
      s.mgn.resCreate [0, 0, 0] 16 = .ok (mgn, s.mgn.lastId, p) ∧
      mgn.get s.mgn.lastId = some (p, ⟨s.mgn.lastId, [0, 0, 0]⟩) ∧ mgn.Inv :=
    ⟨_, _, resCreate_ok hinv.unlocked hid ha, get_created_self hinv hid ha,
      inv_created hinv hid ha⟩
  have hs₁ : step s (.clone 0 3 [7, 8, 9] 16) =
      .ok ⟨mgn, Function.update s.calls 0 (some ⟨s.mgn.lastId, p, [7, 8, 9], 3⟩),
        .created s.mgn.lastId p [0, 0, 0] :: s.hist⟩ := by
    simp only [step, hzero, hcreate, ok_bind]
    rfl
  refine ⟨⟨⟨by rw [hcalls], ⟨ha, by decide, by rw [hc]; decide⟩, rfl⟩, fun s₁ h₁ => ?_⟩,
    ⟨mgn,
      Function.update (Function.update s.calls 0 (some ⟨s.mgn.lastId, p, [7, 8, 9], 3⟩)) 0 none,
      .copied s.mgn.lastId [7, 8, 9] :: .created s.mgn.lastId p [0, 0, 0] :: s.hist⟩, p, ?_, rfl, ?_,
    deref_of_get hget⟩
  · rw [hs₁] at h₁
    cases h₁
    have hcall : Function.update s.calls 0
        (some (⟨s.mgn.lastId, p, [7, 8, 9], 3⟩ : CloneCall)) 0 ≠ none := by
      rw [Function.update_self]
      exact Option.some_ne_none _
    exact ⟨hcall, fun _ _ => trivial⟩
  · rw [exec_cons_ok hs₁]
    simp only [exec, step, Function.update_self, cloneCopy, if_neg (Int.not_le.mpr hneg), ok_bind]
    rfl
  · rw [resGet_eq hinv'.unlocked, hget]
    rfl

/-- After 2^31 creations, all released, the bytes are not copied. -/
theorem copy_lost :
    Along step Allowed init (cycles (2 ^ 31) ++ [.clone 0 3 [7, 8, 9] 16, .copy 0]) ∧
      ∃ s id p earlier, exec step init
          (cycles (2 ^ 31) ++ [.clone 0 3 [7, 8, 9] 16, .copy 0]) = .ok s ∧
        s.hist = .copied id [7, 8, 9] :: .created id p [0, 0, 0] :: earlier ∧ id.toInt < 0 ∧
        s.mgn.resGet id = .ok (s.mgn, some p) ∧
        s.mgn.table.heap.deref p = some ⟨id, [0, 0, 0]⟩ := by
  obtain ⟨hall, s, hs, hinv, hc, hcalls, hlast⟩ :=
    @exec_cycles (2 ^ 31) init inv_create rfl rfl
  have hneg : s.mgn.lastId.toInt < 0 := by
    rw [hlast]
    decide
  obtain ⟨hall', s', p, hs', hhist, hget, hd⟩ := copy_lost_step hinv hc hcalls hneg
  refine ⟨along_append.mpr ⟨hall, fun t ht => ?_⟩, s', s.mgn.lastId, p, s.hist,
    exec_append.mpr ⟨s, hs, hs'⟩, hhist, hneg, hget, hd⟩
  rw [hs] at ht
  cases ht
  exact hall'

end ShellJs.FiniteMap
