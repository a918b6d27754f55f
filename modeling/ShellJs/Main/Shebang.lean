import ShellJs.Lib.Sentinel
import ShellJs.Main.Model

/-!
# The first line of a script

`main` looks for a first line that starts with `#!` in the block of `read_file`, where a NUL stands
behind the content. Two loops move its cursor to the next line.

* `stripShebang`: what V7 is to get of a C string.
* `findLineTail_eq`, `findLineHead_eq`: the loops are scans that the NUL stops.
* `skipShebang_spec`: the cursor stays at the NUL or before it, and stands before what V7 is to get.
* `shebang_stripped`: what `main` does with a script that was read.
-/

namespace ShellJs

open Sentinel

variable {σ : Type} {l : Bytes}

/-! ## What V7 is to get -/

def isLineEnd (c : UInt8) : Bool := c = 10 ∨ c = 13

/-- A C string without the first two bytes, the bytes up to a line end and the line ends after them,
if it starts with `#!`. -/
def stripShebang (d : Bytes) : Bytes :=
  if d.take 2 = [35, 33] then ((d.drop 2).dropWhile fun c => !isLineEnd c).dropWhile isLineEnd
  else d

/-- What `main` does with the C string that it hands to `v7_exec`. -/
def execCode (v7Exec : V7Exec σ) (code : Bytes) (m : Main σ) : Except Fault (Main σ) :=
  match v7Exec m.v7 code with
  | (v7, err, result) =>
    if err ≠ .ok then printErrAndRes err result { m with v7 := v7 } else .ok { m with v7 := v7 }

/-! ## The scan -/

theorem findLineTail_eq (l : Bytes) :
    findLineTail l = orFault .outOfBounds (scan 0 (fun c => !isLineEnd c) l) := by
  induction l with
  | nil => rfl
  | cons c l ih =>
    have hgo : (c ≠ 0 ∧ c ≠ 10 ∧ c ≠ 13) ↔ (c ≠ 0 ∧ (!isLineEnd c) = true) := by
      simp [isLineEnd]
    unfold findLineTail scan
    rw [if_congr hgo rfl rfl]
    split
    · exact ih
    · rfl

theorem findLineHead_eq (l : Bytes) :
    findLineHead l = orFault .outOfBounds (scan 0 isLineEnd l) := by
  induction l with
  | nil => rfl
  | cons c l ih =>
    have hgo : (c ≠ 0 ∧ (c = 10 ∨ c = 13)) ↔ (c ≠ 0 ∧ isLineEnd c = true) := by
      simp [isLineEnd]
    unfold findLineHead scan
    rw [if_congr hgo rfl rfl]
    split
    · exact ih
    · rfl

/-- Behind `#!`, the two loops skip the rest of the line and the line ends after it. -/
theorem findLine_eq (hz : 0 ∈ l) :
    ∃ k ≤ (cut 0 l).length, (findLineTail l >>= findLineHead) = .ok (l.drop k) ∧
      cut 0 (l.drop k) = ((cut 0 l).dropWhile fun c => !isLineEnd c).dropWhile isLineEnd := by
  let i := ((cut 0 l).takeWhile fun c => !isLineEnd c).length
  have hi : i ≤ (cut 0 l).length := length_takeWhile_cut_le
  have hz' : 0 ∈ l.drop i := mem_drop hz hi
  have hcut : cut 0 (l.drop i) = (cut 0 l).dropWhile fun c => !isLineEnd c := cut_scanned
  let j := ((cut 0 (l.drop i)).takeWhile isLineEnd).length
  have hj : j ≤ (cut 0 (l.drop i)).length := length_takeWhile_cut_le
  rw [cut_drop hi, List.length_drop] at hj
  refine ⟨i + j, by omega, ?_, ?_⟩
  · rw [findLineTail_eq, scan_eq _ hz, orFault, ok_bind, findLineHead_eq, scan_eq _ hz', orFault,
      List.drop_drop]
  · rw [← List.drop_drop, ← hcut]
    exact cut_scanned

theorem skipShebang_cons_cons (a b : UInt8) (l : Bytes) :
    skipShebang (a :: b :: l) =
      if a = 35 ∧ b = 33 then findLineTail l >>= findLineHead else .ok (a :: b :: l) := by
  unfold skipShebang
  show (if a = 35 then (if b = 33 then _ else _) else _) = _
  by_cases ha : a = 35
  · rw [if_pos ha]
    exact if_congr (and_iff_right ha).symm rfl rfl
  · rw [if_neg ha, if_neg fun h => ha h.1]
    rfl

/-- A script without `#!` is left as it is. -/
theorem stripShebang_of_ne {d : Bytes} (h : d.take 2 ≠ [35, 33]) : stripShebang d = d := if_neg h

/-- A NUL in the place of `#` or `!` makes the C string too short. -/
theorem take_two_cut {a b : UInt8} (h : (cut 0 (a :: b :: l)).take 2 = [35, 33]) :
    a = 35 ∧ b = 33 := by
  obtain rfl | ha := eq_or_ne a 0
  · rw [cut_cons_self] at h
    cases h
  obtain rfl | hb := eq_or_ne b 0
  · rw [cut_cons_of_ne ha, cut_cons_self] at h
    cases h
  rw [cut_cons_of_ne ha, cut_cons_of_ne hb] at h
  cases h
  exact ⟨rfl, rfl⟩

/-- In a buffer with a NUL, the cursor of `main` ends at the first NUL or before it. -/
theorem skipShebang_spec (hz : 0 ∈ l) :
    ∃ k ≤ (cut 0 l).length, skipShebang l = .ok (l.drop k) ∧
      cut 0 (l.drop k) = stripShebang (cut 0 l) := by
  -- a NUL as the first or the second byte: it is neither `#` nor `!`
  match l, hz with
  | [a], hz =>
    obtain rfl := List.mem_singleton.mp hz
    exact ⟨0, Nat.zero_le _, rfl, rfl⟩
  | a :: b :: l, hz =>
    rw [skipShebang_cons_cons]
    by_cases hab : a = 35 ∧ b = 33
    · obtain ⟨rfl, rfl⟩ := hab
      have hz' : 0 ∈ l := by simpa using hz
      have hcut : cut 0 (35 :: 33 :: l) = 35 :: 33 :: cut 0 l := by
        rw [cut_cons_of_ne (by decide), cut_cons_of_ne (by decide)]
      obtain ⟨k, hk, hloops, hleft⟩ := findLine_eq hz'
      rw [if_pos ⟨rfl, rfl⟩, hcut]
      exact ⟨k + 2, Nat.succ_le_succ (Nat.succ_le_succ hk), hloops, hleft⟩
    · rw [if_neg hab]
      exact ⟨0, Nat.zero_le _, rfl, (stripShebang_of_ne fun h => hab (take_two_cut h)).symm⟩

/-! ## A script that was read -/

/-- The block of `read_file` has the content with a NUL behind it. -/
theorem readFile_content {path : Bytes} {env : ReadEnv} {libc libc' : Libc} {size jsSize : UInt64}
    {data : Bytes} (h : readFile path env size libc = .ok (libc', jsSize, some data)) :
    ∃ c : Bytes, c = env.content.take jsSize.toNat ∧ c.length = jsSize.toNat ∧ data = c ++ [0] := by
  have heffect := readFile_effect path env size libc
  rw [h] at heffect
  cases heffect with
  | full hr hitems hroom =>
    rw [itemsOf_file_iff] at hitems
    rw [List.length_replicate, UInt64.toNat_add, UInt64.toNat_one] at hroom
    have hsize : (env.tell + 1).toNat = env.tell.toNat + 1 := by
      rw [UInt64.toNat_add, UInt64.toNat_one]
      omega
    have hlen : (env.content.take env.tell.toNat).length = env.tell.toNat := by
      rw [List.length_take, Nat.min_eq_left hitems]
    refine ⟨_, rfl, hlen, ?_⟩
    rw [filled, Nat.min_eq_left hitems, hsize, List.drop_replicate, Nat.add_sub_cancel_left]
    rw [List.set_append_right _ _ (Nat.le_of_eq hlen), hlen, Nat.sub_self]
    rfl

/-- Of a script of more than two bytes that was read, the scan of `main` uses the content and the
NUL behind it only, and V7 gets the C string in it without a first line that starts with `#!`. -/
theorem shebang_stripped (v7Exec : V7Exec σ) (m : Main σ) (s : Script) (libc' : Libc)
    (jsSize : UInt64) (data : Bytes)
    (hread : readFile s.jsPath s.env 0 m.libc = .ok (libc', jsSize, some data))
    (hsize : 2 < jsSize) :
    ∃ c : Bytes, c = s.env.content.take jsSize.toNat ∧ c.length = jsSize.toNat ∧ data = c ++ [0] ∧
      (∃ k ≤ c.length, skipShebang data = .ok (data.drop k) ∧
        (data.drop k).takeWhile (· ≠ 0) = stripShebang (c.takeWhile (· ≠ 0))) ∧
      runScript v7Exec m s =
        execCode v7Exec (stripShebang (c.takeWhile (· ≠ 0))) { m with libc := libc' } := by
  obtain ⟨c, hc, hlen, rfl⟩ := readFile_content hread
  have hz : (0 : UInt8) ∈ c ++ [0] := List.mem_append_right c List.mem_cons_self
  have hcut : cut (0 : UInt8) (c ++ [0]) = cut 0 c := cut_append_sentinel []
  obtain ⟨k, hk, hskip, hleft⟩ := skipShebang_spec hz
  rw [hcut] at hk hleft
  refine ⟨c, hc, hlen, rfl, ⟨k, Nat.le_trans hk length_cut_le, hskip, hleft⟩, ?_⟩
  unfold runScript execScript
  rw [hread, ok_bind]
  simp only [if_pos hsize, orFault, ok_bind, hskip]
  show _ = execCode v7Exec (stripShebang (cut 0 c)) _
  rw [← hleft]
  unfold execCode
  rfl

/-- `#!a`, an empty line, and `1;`. -/
theorem shebang_stripped_line : ∃ m,
    runScript (fun log code => (code :: log, .ok, 0)) (⟨.init, [], []⟩ : Main (List Bytes))
      ⟨[97], ⟨16, [35, 33, 97, 10, 13, 49, 59], true, 7, true⟩⟩ = .ok m ∧ m.v7 = [[49, 59]] := by
  obtain ⟨libc', data, hread⟩ : ∃ libc' data,
      readFile [97] ⟨16, [35, 33, 97, 10, 13, 49, 59], true, 7, true⟩ 0 .init =
        .ok (libc', 7, some data) := ⟨_, _, rfl⟩
  obtain ⟨c, rfl, -, -, -, hrun⟩ := shebang_stripped (fun log code => (code :: log, .ok, 0))
    (⟨.init, [], []⟩ : Main (List Bytes)) ⟨[97], ⟨16, _, true, 7, true⟩⟩ libc' 7 data hread
    (by decide)
  exact ⟨_, hrun, rfl⟩

end ShellJs
