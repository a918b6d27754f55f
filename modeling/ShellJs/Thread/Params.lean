import ShellJs.Thread.Validity

/-!
# The record of a thread and its parameters

`run` stores the parameters at `_param`. `run_thread` then zeroes the record with the first slot
of `_param`, whose address the thread is given.

* `run_params_iff`: the thread finds the bytes that `run` was given exactly when those that
  were zeroed or not copied were zero.
* `run_record_room`: the record never fits in its block, and only without parameters are all
  stores within it, for a `param_size` that happens to cover the record.
-/

namespace ShellJs

namespace RunState

open Runs ResMgn

variable {paramSize : UInt64} {param : Option (List UInt8)} {src : List UInt8}

/-! ## The bytes that a thread is given -/

theorem getElem?_runRecord (hsrc : src.length = paramSize.toNat) (inst : Addr) {i : Nat}
    (hi : i < src.length) :
    (runRecord paramSize (some src) inst).param[i]? =
      if sizeofPtr.toNat ≤ i ∧ i < platMemSize paramSize then src[i]? else some 0 := by
  have h8 : platMemSize sizeofPtr = 8 := rfl
  have h8' : sizeofPtr.toNat = 8 := rfl
  simp only [runRecord, cleared, storeParam, newThread, getElem?_platMemCopy, length_platMemCopy,
    length_zeroBytes, List.length_replicate, h8, h8']
  by_cases hlow : i < 8
  · rw [if_pos (by omega), if_neg (by omega)]
    exact List.getElem?_replicate_of_lt hlow
  · rw [if_neg (by omega)]
    by_cases hcopied : i < platMemSize paramSize
    · rw [if_pos (by omega), if_pos (by omega)]
    · rw [if_neg (by omega), if_neg (by omega)]
      exact List.getElem?_replicate_of_lt (by omega)

/-- The bytes that are zeroed, and those that the copy does not reach. -/
def Dropped (paramSize : UInt64) (i : Nat) : Prop :=
  i < sizeofPtr.toNat ∨ platMemSize paramSize ≤ i

theorem param_intact_iff (hsrc : src.length = paramSize.toNat) (inst : Addr) :
    (runRecord paramSize (some src) inst).param.take paramSize.toNat = src ↔
      ∀ i (hi : i < src.length), Dropped paramSize i → src[i] = 0 := by
  have hget : ∀ i (hi : i < src.length),
      ((runRecord paramSize (some src) inst).param.take paramSize.toNat)[i]? =
        if sizeofPtr.toNat ≤ i ∧ i < platMemSize paramSize then src[i]? else some 0 := by
    intro i hi
    rw [List.getElem?_take_of_lt (hsrc ▸ hi), getElem?_runRecord hsrc inst hi]
  constructor
  · intro heq i hi hdropped
    have h := hget i hi
    rw [heq, if_neg (by unfold Dropped at hdropped; omega), List.getElem?_eq_getElem hi] at h
    exact Option.some.inj h
  · intro hzero
    refine List.ext_getElem? fun i => ?_
    by_cases hi : i < src.length
    · rw [hget i hi]
      split
      · rfl
      · next hn =>
        rw [List.getElem?_eq_getElem hi, hzero i hi (by unfold Dropped; omega)]
    · rw [List.getElem?_eq_none (Nat.not_lt.mp hi), List.getElem?_eq_none]
      rw [List.length_take]
      omega

/-- In every state that any calls reach, the thread that `run` creates is given a buffer that
holds the parameters exactly when the first `sizeof(void*)` bytes of them, and those that the
32-bit size of the copy leaves out, are zero. -/
theorem run_params_iff (acts : List Act) (s : RunState) (hreach : exec step init acts = .ok s)
    (paramSize : UInt64) (src : List UInt8) (hsrc : src.length = paramSize.toNat)
    (mem inst : Addr) (s' : RunState) (rid : CInt)
    (hrun : s.run paramSize (some src) mem inst true = .ok (s', rid)) :
    ∃ buffer, s'.threads.log = .started s.threads.started buffer :: s.threads.log ∧
      (buffer.take paramSize.toNat = src ↔
        ∀ i (hi : i < src.length), Dropped paramSize i → src[i] = 0) := by
  have hinv : s.Inv := exec_keeps RunState.Inv inv_step inv_init hreach
  have hmgn := (held_getD hinv).inv
  obtain ⟨hid, ha, hinst⟩ := run_inv hmgn rfl hrun
  obtain ⟨mgn', hok, -⟩ := run_ok paramSize (some src) true hmgn rfl hid ha hinst
  rw [hok] at hrun
  cases hrun
  exact ⟨_, (log_threadsAfter hinst).trans (if_pos rfl), param_intact_iff hsrc inst⟩

/-- Bytes that start with the `nil` that `run_thread` stores arrive. -/
theorem run_params_iff_zeroSlot : ∃ s' rid buffer,
    init.run 9 (some [0, 0, 0, 0, 0, 0, 0, 0, 5]) 16 48 true = .ok (s', rid) ∧
      s'.threads.log = [.started 0 buffer] ∧ buffer.take 9 = [0, 0, 0, 0, 0, 0, 0, 0, 5] := by
  obtain ⟨s', rid, hrun⟩ : ∃ s' rid,
      init.run 9 (some [0, 0, 0, 0, 0, 0, 0, 0, 5]) 16 48 true = .ok (s', rid) := ⟨_, _, rfl⟩
  obtain ⟨buffer, hlog, hiff⟩ := run_params_iff [] init rfl 9 [0, 0, 0, 0, 0, 0, 0, 0, 5] rfl
    16 48 s' rid hrun
  refine ⟨s', rid, buffer, hrun, hlog, hiff.mpr ?_⟩
  unfold Dropped
  decide

/-- One byte that is not zero does not. -/
theorem run_params_lost : ∃ s' rid buffer,
    init.run 1 (some [7]) 16 48 true = .ok (s', rid) ∧
      s'.threads.log = [.started 0 buffer] ∧ buffer.take 1 ≠ [7] := by
  refine ⟨_, _, _, rfl, rfl, ?_⟩
  decide

/-! ## The room of a record -/

/-- In every state that any calls reach, the block of the record that `run` creates has no
room for the header and `max(param_size, sizeof(void*))` bytes of parameters, whatever
`param_size` is. The stores of `run` and `run_thread` are all in the block exactly when there
are no parameters and the block has room for `sizeof(thread)`. -/
theorem run_record_room (acts : List Act) (s : RunState) (hreach : exec step init acts = .ok s)
    (paramSize : UInt64) (param : Option (List UInt8)) (mem inst : Addr) (created : Bool)
    (s' : RunState) (rid : CInt) (hrun : s.run paramSize param mem inst created = .ok (s', rid)) :
    ∃ mgn p res, s'.runResMgn = some mgn ∧ mgn.get rid = some (p, res) ∧
      res.data.room = resRoom (runSize paramSize) ∧
      res.data.room < offsetParam + max paramSize.toNat sizeofPtr.toNat ∧
      ((∀ st ∈ runStores paramSize param, st.Within res.data.room) ↔
        param = none ∧ sizeofThread.toNat ≤ res.data.room) := by
  have hinv : s.Inv := exec_keeps RunState.Inv inv_step inv_init hreach
  have hmgn := (held_getD hinv).inv
  obtain ⟨hid, ha, hinst⟩ := run_inv hmgn rfl hrun
  obtain ⟨mgn', hok, hup⟩ := run_ok paramSize param created hmgn rfl hid ha hinst
  rw [hok] at hrun
  cases hrun
  have hroom : (runRecord paramSize param inst).room = resRoom (runSize paramSize) := by
    cases param <;> rfl
  refine ⟨mgn', _, _, rfl, hup.self, hroom, ?_, ?_⟩
  · rw [hroom]
    exact room_lt paramSize
  · rw [hroom]
    exact stores_within_iff paramSize param

/-- Eight bytes of parameters: the block has room for these eight only, and the stores of
the copy and of `run_thread` go past it. -/
theorem run_record_overrun : ∃ s' rid mgn p res,
    init.run 8 (some [1, 2, 3, 4, 5, 6, 7, 8]) 16 48 true = .ok (s', rid) ∧
      s'.runResMgn = some mgn ∧ mgn.get rid = some (p, res) ∧ res.data.room = 8 ∧
      ¬ Store.Within res.data.room ⟨offsetParam, 8⟩ ∧
      ¬ Store.Within res.data.room ⟨0, sizeofThread.toNat⟩ := by
  refine ⟨_, _, _, _, _, rfl, rfl, rfl, rfl, fun h => ?_, fun h => ?_⟩
  · exact absurd (h 0 (by decide)) (by decide)
  · exact absurd (h 8 (by decide)) (by decide)

/-- No parameters, and a `param_size` of 24 bytes: every store is within the block. -/
theorem run_record_room_none : ∃ s' rid mgn p res,
    init.run 24 none 16 48 true = .ok (s', rid) ∧ s'.runResMgn = some mgn ∧
      mgn.get rid = some (p, res) ∧ res.data.room < 40 ∧
      ∀ st ∈ runStores 24 none, st.Within res.data.room := by
  obtain ⟨s', rid, hrun⟩ : ∃ s' rid, init.run 24 none 16 48 true = .ok (s', rid) := ⟨_, _, rfl⟩
  obtain ⟨mgn, p, res, hm, hg, hroom, hlt, hiff⟩ :=
    run_record_room [] init rfl 24 none 16 48 true s' rid hrun
  refine ⟨s', rid, mgn, p, res, hrun, hm, hg, hlt, hiff.mpr ⟨rfl, ?_⟩⟩
  rw [hroom]
  decide

end RunState

end ShellJs
