import ShellJs.Thread.Spec

/-!
# The record of a thread and its block

`run` asks `res_create` for `param_size` bytes, not for the record and `param_size` bytes, and
stores the parameters at `_param`.

* `runStores`: the stores of `run` and `run_thread` into the record.
* `stores_within_iff`: only without parameters are they within the block, for a `param_size`
  that happens to cover the record.
* `recorded_iff`: when `run` gets a record to store into.
-/

namespace ShellJs

/-- The offset of `_param` in `struct thread_struct`. -/
def offsetParam : Nat := 16

/-- A store into the data of a resource. -/
structure Store where
  offset : Nat
  size : Nat

/-- Every byte of the store is in a block of `room` bytes. -/
def Store.Within (room : Nat) (st : Store) : Prop := ∀ i < st.size, st.offset + i < room

instance (room : Nat) (st : Store) : Decidable (st.Within room) :=
  decidable_of_iff (st.size = 0 ∨ st.offset + st.size ≤ room)
    ⟨fun h i hi => by omega, fun h => by
      by_cases hz : st.size = 0
      · exact Or.inl hz
      · have hlast := h (st.size - 1) (by omega)
        exact Or.inr (by omega)⟩

/-- The stores into the record, in order. In `run` the parameters, or the `nil` slot; in
`run_thread` the `plat_mem_set` of `sizeof(*thrd)` and `inst`. -/
def runStores (paramSize : UInt64) (param : Option (List UInt8)) : List Store :=
  [⟨offsetParam, match param with
      | some _ => platMemSize paramSize
      | none => sizeofPtr.toNat⟩,
    ⟨0, sizeofThread.toNat⟩, ⟨0, sizeofPtr.toNat⟩]

/-! ## The block of a resource -/

theorem resRoom_le (size : UInt64) : resRoom size ≤ platMemSize size := by
  have hadd : (sizeofRes + size).toNat = (64 + size.toNat) % 2 ^ 64 := UInt64.toNat_add _ _
  have h64 : sizeofRes.toNat = 64 := rfl
  rw [resRoom, platMemSize, platMemSize, UInt64.toNat_toUInt32, UInt64.toNat_toUInt32, hadd, h64]
  omega

namespace RunState

open ResMgn

variable {mgn : ResMgn Thread} {mem : Addr} {zero : Thread} {paramSize : UInt64}
  {param : Option (List UInt8)} {s : RunState}

theorem runSize_cases (paramSize : UInt64) :
    runSize paramSize = paramSize ∨ runSize paramSize = sizeofPtr := by
  unfold runSize
  split
  · exact .inl rfl
  · exact .inr rfl

/-- A block with room for the `plat_mem_set` was asked for with `param_size`. -/
theorem room_le (h : sizeofThread.toNat ≤ resRoom (runSize paramSize)) :
    resRoom (runSize paramSize) ≤ platMemSize paramSize := by
  rcases runSize_cases paramSize with heq | heq
  · rw [heq]
    exact resRoom_le paramSize
  · rw [heq] at h
    exact absurd h (by decide)

theorem room_lt (paramSize : UInt64) :
    resRoom (runSize paramSize) < offsetParam + max paramSize.toNat sizeofPtr.toNat := by
  have hle : resRoom (runSize paramSize) ≤ (runSize paramSize).toNat :=
    Nat.le_trans (resRoom_le _) (platMemSize_le _)
  have h16 : offsetParam = 16 := rfl
  rcases runSize_cases paramSize with heq | heq
  · rw [heq] at hle ⊢
    omega
  · rw [heq] at hle ⊢
    omega

theorem stores_within_iff (paramSize : UInt64) (param : Option (List UInt8)) :
    (∀ st ∈ runStores paramSize param, st.Within (resRoom (runSize paramSize))) ↔
      param = none ∧ sizeofThread.toNat ≤ resRoom (runSize paramSize) := by
  have h16 : offsetParam = 16 := rfl
  have h24 : sizeofThread.toNat = 24 := rfl
  have h8 : sizeofPtr.toNat = 8 := rfl
  constructor
  · intro h
    have hset : sizeofThread.toNat ≤ resRoom (runSize paramSize) := by
      have := h ⟨0, sizeofThread.toNat⟩ (by simp [runStores]) 23 (by decide)
      simp only at this
      omega
    refine ⟨?_, hset⟩
    cases param with
    | none => rfl
    | some src =>
      -- the copy ends 16 bytes after a block that is at most as large as the copy
      have hle := room_le hset
      have := h ⟨offsetParam, platMemSize paramSize⟩ (by simp [runStores])
        (platMemSize paramSize - 1) (by simp only; omega)
      simp only at this
      omega
  · rintro ⟨rfl, hset⟩ st hst
    simp only [runStores, List.mem_cons, List.not_mem_nil, or_false] at hst
    rcases hst with rfl | rfl | rfl
    all_goals
      intro i hi
      simp only at hi ⊢
      omega

/-! ## The creation of a record -/

/-- `res_create` has an id and a block for the record. -/
def Recorded (s : RunState) (mem : Addr) : Prop :=
  (∃ id, (s.runResMgn.getD resCreateManagement).FirstFree id) ∧ mem ≠ NULL ∧
    (s.runResMgn.getD resCreateManagement).table.heap.cells mem = none

theorem recorded_iff (hmgn : mgn.locked = false)
    (hm : s.runResMgn.getD resCreateManagement = mgn) :
    (∃ r, mgn.resCreate zero mem = .ok r) ↔ s.Recorded mem := by
  rw [Recorded, hm]
  constructor
  · rintro ⟨⟨m, id, p⟩, h⟩
    obtain ⟨hid, ha, -, -⟩ := resCreate_inv h
    exact ⟨⟨id, hid⟩, ha⟩
  · rintro ⟨⟨id, hid⟩, ha⟩
    exact ⟨_, resCreate_ok hmgn hid ha⟩

end RunState

end ShellJs
