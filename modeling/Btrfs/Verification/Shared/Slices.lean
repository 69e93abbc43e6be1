import Btrfs.Model.Bytes

/-! # Slices of an array under `memcpy` -/

namespace Btrfs

variable {α : Type*} {bytes new : List (BitVec 8)} {offset start len : ℕ}

section

variable (h : offset + new.length ≤ bytes.length)

include h

theorem getElem?_memcpy (i : ℕ) : (memcpy bytes offset new)[i]? =
      if offset ≤ i ∧ i < offset + new.length then new[i - offset]? else bytes[i]? := by
  have hfr : (bytes.take offset).length = offset := by
    rw [List.length_take]
    omega
  rw [memcpy]
  by_cases hlo : i < offset
  · rw [List.getElem?_append_left (by omega), List.getElem?_take, if_pos hlo, if_neg (by omega)]
  · rw [List.getElem?_append_right (by omega), hfr]
    by_cases hhi : i < offset + new.length
    · rw [List.getElem?_append_left (by omega), if_pos (by omega)]
    · rw [List.getElem?_append_right (by omega), List.getElem?_drop, if_neg (by omega)]
      congr 1
      omega

theorem slice_memcpy_of_disjoint (hdisjoint : start + len ≤ offset ∨ offset + new.length ≤ start) :
    ((memcpy bytes offset new).drop start).take len = (bytes.drop start).take len := by
  apply List.ext_getElem?
  intro i
  rw [List.getElem?_take, List.getElem?_take]
  by_cases hi : i < len
  · rw [if_pos hi, if_pos hi, List.getElem?_drop, List.getElem?_drop, getElem?_memcpy h,
      if_neg (by omega)]
  · rw [if_neg hi, if_neg hi]

theorem slice_memcpy_inside {k : ℕ} (hinside : k + len ≤ new.length) :
    ((memcpy bytes offset new).drop (offset + k)).take len = (new.drop k).take len := by
  apply List.ext_getElem?
  intro i
  rw [List.getElem?_take, List.getElem?_take]
  by_cases hi : i < len
  · rw [if_pos hi, if_pos hi, List.getElem?_drop, List.getElem?_drop, getElem?_memcpy h,
      if_pos (by omega)]
    congr 1
    omega
  · rw [if_neg hi, if_neg hi]

end

theorem take_memcpy {n : ℕ} (hn : n ≤ offset) (h : offset + new.length ≤ bytes.length) :
    (memcpy bytes offset new).take n = bytes.take n := by
  have hlen : n ≤ (bytes.take offset).length := by
    rw [List.length_take]
    omega
  rw [memcpy, List.take_append_of_le_length hlen, List.take_take, Nat.min_eq_left hn]

theorem drop_memcpy {n : ℕ} (hn : offset + new.length ≤ n)
    (h : offset + new.length ≤ bytes.length) :
    (memcpy bytes offset new).drop n = bytes.drop n := by
  have hfr : (bytes.take offset ++ new).length = offset + new.length := by
    rw [List.length_append, List.length_take]
    omega
  obtain ⟨k, rfl⟩ := Nat.exists_eq_add_of_le hn
  rw [memcpy, ← List.append_assoc, ← List.drop_drop, List.drop_left' hfr, List.drop_drop]

theorem memcpy_memcpy_behind {next : List (BitVec 8)}
    (h : offset + new.length + next.length ≤ bytes.length) :
    memcpy (memcpy bytes offset new) (offset + new.length) next =
      memcpy bytes offset (new ++ next) := by
  have hfr : (bytes.take offset ++ new).length = offset + new.length := by
    rw [List.length_append, List.length_take]
    omega
  have ht : (memcpy bytes offset new).take (offset + new.length) = bytes.take offset ++ new := by
    rw [memcpy, ← List.append_assoc]
    exact List.take_left' hfr
  rw [memcpy, ht, drop_memcpy (by omega) (by omega), memcpy, List.length_append]
  simp only [List.append_assoc, Nat.add_assoc]

theorem slice_slice (xs : List α) (start len : ℕ) {k n : ℕ} (h : k + n ≤ len) :
    ((((xs.drop start).take len).drop k).take n) = (xs.drop (start + k)).take n := by
  rw [List.drop_take, List.take_take, List.drop_drop, Nat.min_eq_left (by omega)]

theorem length_slice {xs : List α} (h : start + len ≤ xs.length) :
    ((xs.drop start).take len).length = len := by
  rw [List.length_take, List.length_drop]
  omega

theorem slice_append (xs : List α) (start m n : ℕ) :
    (xs.drop start).take m ++ (xs.drop (start + m)).take n = (xs.drop start).take (m + n) := by
  rw [List.take_add, List.drop_drop]

end Btrfs
