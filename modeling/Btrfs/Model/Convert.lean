import Btrfs.Model.CacheTree
import Btrfs.Model.Raid56

/-! # The reserved ranges of a conversion (`convert/main.c`, `convert/source-fs.c`) -/

namespace Btrfs.Convert

open CacheTree
open Raid56 (BTRFS_STRIPE_LEN)

/-- `struct simple_range`. -/
structure SimpleRange where
  start : ℕ
  len : ℕ
deriving DecidableEq, Repr

def btrfsReservedRanges : List SimpleRange :=
  [⟨0, 0x100000⟩, ⟨0x4000 <<< 12, 0x10000⟩, ⟨0x4000 <<< 24, 0x10000⟩]

/-- `wipe_one_reserved_range` with `min_stripe_size` and `ensure_size` 0: no entry is expanded. -/
def wipeOneReservedRange (tree : CacheTree) (start len : ℕ) : Call (ℤ × CacheTree) := do
  bugOn (start % BTRFS_STRIPE_LEN ≠ 0 ∨ (start + len) % BTRFS_STRIPE_LEN ≠ 0)
  match lookupCacheExtent tree start len with
  | none => return (0, tree)
  | some cache =>
    if start ≤ cache.entry.start then
      bugOn (start + len ≤ cache.entry.start)
      let size := sub64 cache.entry.size (start + len - cache.entry.start)
      if size = 0 then
        let tree ← removeCacheExtent cache
        return (0, tree)
      else return (0, (setExtent cache (start + len) size).root)
    else
      let head := (setExtent cache cache.entry.start (start - cache.entry.start)).root
      if start + len < rangeEnd cache.entry then
        addMergeCacheExtent head (start + len) (sub64 (sub64 (rangeEnd cache.entry) start) len)
      else return (0, head)

/-- The loop of `wipe_reserved_ranges`, with the last `ret`. -/
def wipeRanges : ℤ → List SimpleRange → CacheTree → Call (ℤ × CacheTree)
  | ret, [], tree => .ok (ret, tree)
  | _, range :: ranges, tree => do
      let (ret, tree) ← wipeOneReservedRange tree range.start range.len
      if ret < 0 then return (ret, tree) else wipeRanges ret ranges tree

/-- `wipe_reserved_ranges(tree, 0, 0)`. -/
def wipeReservedRanges (tree : CacheTree) : Call (ℤ × CacheTree) :=
  wipeRanges 0 btrfsReservedRanges tree

end Btrfs.Convert
