import Btrfs.Model.Basic

/-! # Range trees (`extent-cache.c`, `rbtree-utils.c`)

A `struct cache_tree` is modelled by the in-order sequence of its entries. The red-black
tree below it only fixes in which order the comparator is called. That order does not matter
while no entry ends at `2 ^ 64`, where the end wraps and the comparator is not monotone along the
sequence any more; results about this model assume so. `CacheTree` models the tree itself. -/

namespace Btrfs.ExtentCache

/-- `struct cache_extent`. -/
structure CacheExtent where
  start : ℕ
  size : ℕ
deriving DecidableEq, Repr

/-- `cache_tree_comp_range`: positive when the entry ends at or before the range, negative
when the range ends at or before the entry, zero when they overlap. -/
def cacheTreeCompRange (entry : CacheExtent) (start size : ℕ) : ℤ :=
  if wrap64 (entry.start + entry.size) ≤ start then 1
  else if wrap64 (start + size) ≤ entry.start then -1
  else 0

variable {α : Type*} (node : α → CacheExtent)

/-- The entries before and from the place where `rb_search` for a range stops. -/
def splitCacheTree (start size : ℕ) (tree : List α) : List α × List α :=
  tree.span fun e => decide (0 < cacheTreeCompRange (node e) start size)

/-- `search_cache_extent`: the entry containing `start`, else the next one, together with
its in-order context. -/
def searchCacheExtent (tree : List α) (start : ℕ) : Option (List α × α × List α) :=
  match splitCacheTree node start 1 tree with
  | (_, []) => none
  | (before, e :: after) => some (before, e, after)

/-- `insert_cache_extent`: `none` stands for `-EEXIST`. The context of the new entry is
returned so that callers can go to its neighbours. -/
def insertCacheExtent (tree : List α) (pe : α) : Option (List α × List α) :=
  match splitCacheTree node (node pe).start (node pe).size tree with
  | (before, []) => some (before, [])
  | (before, e :: after) =>
    if cacheTreeCompRange (node e) (node pe).start (node pe).size = 0 then none
    else some (before, e :: after)

end Btrfs.ExtentCache
