import Mathlib

/-! # Numbers as bytes -/

namespace Btrfs

/-- The number that bytes stand for, the lowest first. -/
def leNat : List (BitVec 8) → ℕ
  | [] => 0
  | b :: bytes => b.toNat + 256 * leNat bytes

/-- The `n` low bytes of a number, the lowest first. -/
def leBytes : ℕ → ℕ → List (BitVec 8)
  | 0, _ => []
  | n + 1, v => BitVec.ofNat 8 v :: leBytes n (v / 256)

/-- `memcpy` into an array. -/
def memcpy (bytes : List (BitVec 8)) (offset : ℕ) (new : List (BitVec 8)) : List (BitVec 8) :=
  bytes.take offset ++ (new ++ bytes.drop (offset + new.length))

theorem length_memcpy {bytes new : List (BitVec 8)} {offset : ℕ}
    (h : offset + new.length ≤ bytes.length) :
    (memcpy bytes offset new).length = bytes.length := by
  rw [memcpy, List.length_append, List.length_append, List.length_take, List.length_drop]
  omega

end Btrfs
