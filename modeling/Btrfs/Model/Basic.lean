import Mathlib

/-! Machine words, the two ways a modelled call can fail to return, and shared constants. -/

namespace Btrfs

/-- `(u64)-1`. -/
def u64Max : ℕ := 2 ^ 64 - 1

/-- Reduction of an unsigned sum to a `u64`. -/
def wrap64 (n : ℕ) : ℕ := n % 2 ^ 64

theorem wrap64_of_lt {n : ℕ} (h : n < 2 ^ 64) : wrap64 n = n :=
  Nat.mod_eq_of_lt h

/-- Subtraction of `u64`. -/
def sub64 (a b : ℕ) : ℕ := wrap64 (a + (2 ^ 64 - wrap64 b))

theorem sub64_of_le {a b : ℕ} (h : b ≤ a) (ha : a < 2 ^ 64) : sub64 a b = a - b := by
  rw [sub64, wrap64_of_lt (h.trans_lt ha), wrap64]
  omega

/-- A call that does not return: a `BUG_ON`/`BUG` was reached, or a loop used up the
rounds the model grants it. -/
inductive Fault where
  | bug
  | outOfRounds
deriving DecidableEq, Repr

/-- The result of a modelled call. -/
abbrev Call (α : Type*) := Except Fault α

/-- `BUG_ON(cond)`. -/
def bugOn (cond : Bool) : Call Unit :=
  if cond then .error .bug else .ok ()

@[simp] theorem bugOn_false : bugOn false = .ok () := rfl

@[simp] theorem bugOn_true : bugOn true = .error .bug := rfl

/-! ## Error numbers and the place of the superblock -/

def ENOENT : ℤ := 2

/-- `EIO`. -/
def eio : ℤ := 5

def EINVAL : ℤ := 22

def ENOSPC : ℤ := 28

def BTRFS_SUPER_INFO_OFFSET : ℕ := 65536

def BTRFS_SUPER_INFO_SIZE : ℕ := 4096

end Btrfs
