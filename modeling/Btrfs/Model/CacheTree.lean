import Btrfs.Model.ExtentCache
import Btrfs.Model.RbTree

/-! # The red-black tree of a `struct cache_tree` (`extent-cache.c`) -/

namespace Btrfs.CacheTree

open ExtentCache RbTree

/-- `struct cache_tree`. -/
abbrev CacheTree := RbNode CacheExtent

def cacheTreeCompNodes (node1 node2 : CacheExtent) : ℤ :=
  cacheTreeCompRange node1 node2.start node2.size

def insertCacheExtent (tree : CacheTree) (pe : CacheExtent) : Call (ℤ × CacheTree) :=
  rbInsert tree pe fun e => cacheTreeCompNodes e pe

def addCacheExtent (tree : CacheTree) (start size : ℕ) : Call (ℤ × CacheTree) :=
  insertCacheExtent tree ⟨start, size⟩

def lookupCacheExtent (tree : CacheTree) (start size : ℕ) : Option (Loc CacheExtent) :=
  (rbSearch tree fun e => cacheTreeCompRange e start size).1

def searchCacheExtent (tree : CacheTree) (start : ℕ) : Option (Loc CacheExtent) :=
  match rbSearch tree fun e => cacheTreeCompRange e start 1 with
  | (some node, _) => some node
  | (none, next) => next

def firstCacheExtent (tree : CacheTree) : Option (Loc CacheExtent) := rbFirst tree

def lastCacheExtent (tree : CacheTree) : Option (Loc CacheExtent) := rbLast tree

def prevCacheExtent (pe : Loc CacheExtent) : Option (Loc CacheExtent) := rbPrev pe

def nextCacheExtent (pe : Loc CacheExtent) : Option (Loc CacheExtent) := rbNext pe

def removeCacheExtent (pe : Loc CacheExtent) : Call CacheTree := rbErase pe

/-- A node whose range is changed in place. -/
def setExtent (pe : Loc CacheExtent) (start size : ℕ) : Loc CacheExtent :=
  { pe with entry := ⟨start, size⟩ }

/-- The locals `prev` and `next` of `add_merge_cache_extent`. -/
def mergeNeighbours (tree : CacheTree) (start : ℕ) :
    Option (Loc CacheExtent) × Option (Loc CacheExtent) :=
  match searchCacheExtent tree start with
  | none => (lastCacheExtent tree, none)
  | some cache =>
    if start ≤ cache.entry.start then (prevCacheExtent cache, some cache)
    else (some cache, nextCacheExtent cache)

/-- The end of a range, as a `u64`. -/
def rangeEnd (e : CacheExtent) : ℕ := wrap64 (e.start + e.size)

/-- `add_merge_cache_extent` once its neighbours are known not to overlap the range. -/
def mergeExtent (tree : CacheTree) (prev next : Option (Loc CacheExtent)) (start size : ℕ) :
    Call (ℤ × CacheTree) :=
  match prev.filter fun p => rangeEnd p.entry = start,
      next.filter fun n => wrap64 (start + size) = n.entry.start with
  | none, none => addCacheExtent tree start size
  | none, some n => .ok (0, (setExtent n start (sub64 (rangeEnd n.entry) start)).root)
  | some p, none =>
    .ok (0, (setExtent p p.entry.start (sub64 (wrap64 (start + size)) p.entry.start)).root)
  | some p, some n => do
      let n := setExtent n start (sub64 (rangeEnd n.entry) start)
      let n := setExtent n p.entry.start (sub64 (rangeEnd n.entry) p.entry.start)
      -- the node `prev`, in the tree with the new `next`
      match prevCacheExtent n with
      | none => .error .bug
      | some prev =>
        let tree ← removeCacheExtent prev
        return (0, tree)

/-- The checks of `add_merge_cache_extent` on the neighbours, before it merges. -/
def checkedMerge (tree : CacheTree) (prev next : Option (Loc CacheExtent)) (start size : ℕ) :
    Call (ℤ × CacheTree) := do
  bugOn (next.any fun next => next.entry.start < wrap64 (start + size))
  bugOn (prev.any fun prev => start < rangeEnd prev.entry)
  mergeExtent tree prev next start size

def addMergeCacheExtent (tree : CacheTree) (start size : ℕ) : Call (ℤ × CacheTree) :=
  match tree with
  | .nil => addCacheExtent tree start size
  | .node .. =>
    let neighbours := mergeNeighbours tree start
    checkedMerge tree neighbours.1 neighbours.2 start size

end Btrfs.CacheTree
