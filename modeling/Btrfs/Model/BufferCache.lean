import Btrfs.Model.ExtentIo
import Btrfs.Model.Raid56
import Btrfs.Model.RbTree

/-! # The cache of extent buffers (`extent_io.c`) -/

namespace Btrfs.BufferCache

open ExtentCache ExtentIo Raid56 RbTree

/-- A number stands for the pointer to an extent buffer. -/
abbrev Ptr := ℕ

/-- `struct extent_buffer`; `inTree` is whether its `tree` is not NULL. -/
structure Buffer where
  start : ℕ
  len : ℕ
  refs : ℤ
  dirty : Bool
  dummy : Bool
  inTree : Bool
  data : ℕ → Byte

/-- The `cache_node` of a buffer. -/
structure CacheNode where
  ce : CacheExtent
  eb : Ptr
deriving DecidableEq, Repr

/-- `struct extent_io_tree`, with the buffers in memory. `fresh` is the next pointer that `calloc`
returns. -/
structure Cache where
  state : StateTree
  cache : RbNode CacheNode
  lru : List Ptr
  cacheSize : ℕ
  maxCacheSize : ℕ
  buffers : Ptr → Option Buffer
  fresh : Ptr

/-- `extent_io_tree_init_cache_max`. -/
def Cache.init (maxCacheSize : ℕ) : Cache where
  state := []
  cache := .nil
  lru := []
  cacheSize := 0
  maxCacheSize := maxCacheSize
  buffers := fun _ => none
  fresh := 0

/-- The buffer behind a pointer, which must not have been freed. -/
def Cache.deref (s : Cache) (eb : Ptr) : Call Buffer :=
  match s.buffers eb with
  | none => .error .bug
  | some b => .ok b

def Cache.store (s : Cache) (eb : Ptr) (b : Buffer) : Cache :=
  { s with buffers := Function.update s.buffers eb (some b) }

/-- `free`. -/
def Cache.release (s : Cache) (eb : Ptr) : Cache :=
  { s with buffers := Function.update s.buffers eb none }

def intMax : ℤ := 2 ^ 31 - 1

/-- `extent_buffer_get`; the `int` must not overflow. -/
def extentBufferGet (s : Cache) (eb : Ptr) : Call Cache := do
  let b ← s.deref eb
  bugOn (b.refs = intMax)
  return s.store eb { b with refs := b.refs + 1 }

/-- `__alloc_extent_buffer`. -/
def allocBuffer (s : Cache) (inTree : Bool) (bytenr blocksize : ℕ) : Ptr × Cache :=
  (s.fresh, { s.store s.fresh ⟨bytenr, blocksize, 1, false, false, inTree, fun _ => 0⟩ with
    fresh := s.fresh + 1 })

def btrfsCloneExtentBuffer (s : Cache) (src : Ptr) : Call (Ptr × Cache) := do
  let b ← s.deref src
  let (eb, s) := allocBuffer s false b.start b.len
  let new ← s.deref eb
  return (eb, s.store eb { new with
    data := fun k => if k < b.len then b.data k else new.data k
    dummy := true })

/-! ## Freeing -/

/-- The node of a buffer in a tree. -/
def locate (eb : Ptr) : RbNode CacheNode → List (Frame CacheNode) → Option (Loc CacheNode)
  | .nil, _ => none
  | .node c l e r, up =>
    match locate eb l (⟨.left, c, e, r⟩ :: up) with
    | some n => some n
    | none => if e.eb = eb then some ⟨c, l, e, r, up⟩ else locate eb r (⟨.right, c, e, l⟩ :: up)

/-- The node of a buffer is removed from the tree, and its length from `cache_size`. -/
def uncache (s : Cache) (eb : Ptr) (len : ℕ) : Call Cache :=
  match locate eb s.cache [] with
  | none => .error .bug
  | some node => do
      let cache ← rbErase node
      return { s with cache := cache, cacheSize := sub64 s.cacheSize len }

/-- `free_extent_buffer_final`. The size of the cache is read from the `tree` of the buffer. -/
def freeExtentBufferFinal (s : Cache) (eb : Ptr) : Call Cache := do
  let b ← s.deref eb
  bugOn (b.refs ≠ 0)
  bugOn (!b.inTree)
  bugOn (s.cacheSize < b.len)
  let s := { s with lru := s.lru.erase eb }
  if b.dummy then return s.release eb
  else
    let s ← uncache s eb b.len
    return s.release eb

def freeExtentBufferInternal (s : Cache) (eb : Ptr) (freeNow : Bool) : Call Cache := do
  let b ← s.deref eb
  let b := { b with refs := b.refs - 1 }
  let s := s.store eb b
  bugOn (b.refs < 0)
  if b.refs = 0 then
    bugOn b.dirty
    if b.dummy || freeNow then freeExtentBufferFinal s eb else return s
  else return s

def freeExtentBuffer (s : Cache) (eb : Ptr) : Call Cache := freeExtentBufferInternal s eb false

def freeExtentBufferNocache (s : Cache) (eb : Ptr) : Call Cache := freeExtentBufferInternal s eb true

/-! ## The cache -/

/-- `lookup_cache_extent` on the tree of buffers. -/
def lookupBuffer (s : Cache) (bytenr blocksize : ℕ) : Option CacheNode :=
  (rbSearch s.cache fun n => cacheTreeCompRange n.ce bytenr blocksize).1.map Loc.entry

/-- A buffer that is found: `list_move_tail` and `refs++`. -/
def touchBuffer (s : Cache) (eb : Ptr) : Call Cache :=
  extentBufferGet { s with lru := s.lru.erase eb ++ [eb] } eb

def findExtentBuffer (s : Cache) (bytenr blocksize : ℕ) : Call (Option Ptr × Cache) :=
  match lookupBuffer s bytenr blocksize with
  | none => .ok (none, s)
  | some node =>
    if node.ce.start = bytenr ∧ node.ce.size = blocksize then do
      let s ← touchBuffer s node.eb
      return (some node.eb, s)
    else .ok (none, s)

/-- A buffer without references is freed. -/
def freeUnused (s : Cache) (eb : Ptr) : Call Cache := do
  let b ← s.deref eb
  if b.refs = 0 then freeExtentBufferFinal s eb else return s

/-- The loop of `trim_extent_buffer_cache` over the `lru` list. -/
def trimLoop : List Ptr → Cache → Call Cache
  | [], s => .ok s
  | eb :: rest, s => do
      let s ← freeUnused s eb
      if s.cacheSize ≤ wrap64 (s.maxCacheSize * 9) / 10 then return s else trimLoop rest s

def trimExtentBufferCache (s : Cache) : Call Cache := trimLoop s.lru s

/-- A full cache is trimmed. -/
def trimIfFull (s : Cache) : Call Cache :=
  if s.maxCacheSize ≤ s.cacheSize then trimExtentBufferCache s else .ok s

/-- The branch of `alloc_extent_buffer` that makes a buffer. -/
def insertBuffer (s : Cache) (bytenr blocksize : ℕ) : Call (Option Ptr × Cache) := do
  let (eb, s) := allocBuffer s true bytenr blocksize
  let (ret, cache) ← rbInsert s.cache ⟨⟨bytenr, blocksize⟩, eb⟩
    fun n => cacheTreeCompRange n.ce bytenr blocksize
  if ret ≠ 0 then return (none, s.release eb)
  else
    let s := { s with
      cache := cache
      lru := s.lru ++ [eb]
      cacheSize := wrap64 (s.cacheSize + blocksize) }
    let s ← trimIfFull s
    return (some eb, s)

def allocExtentBuffer (s : Cache) (bytenr blocksize : ℕ) : Call (Option Ptr × Cache) :=
  match lookupBuffer s bytenr blocksize with
  | none => insertBuffer s bytenr blocksize
  | some node =>
    if node.ce.start = bytenr ∧ node.ce.size = blocksize then do
      let s ← touchBuffer s node.eb
      return (some node.eb, s)
    else do
      let s ← freeExtentBuffer s node.eb
      insertBuffer s bytenr blocksize

/-! ## Dirty buffers -/

/-- The last offset of a buffer. -/
def Buffer.last (b : Buffer) : ℕ := sub64 (wrap64 (b.start + b.len)) 1

def setExtentBufferDirty (s : Cache) (eb : Ptr) : Call Cache := do
  let b ← s.deref eb
  if b.dirty then return s
  else
    let s := s.store eb { b with dirty := true }
    bugOn (!b.inTree)
    let state ← setExtentDirty s.state b.start b.last
    extentBufferGet { s with state := state } eb

def clearExtentBufferDirty (s : Cache) (eb : Ptr) : Call Cache := do
  let b ← s.deref eb
  if b.dirty then
    let s := s.store eb { b with dirty := false }
    bugOn (!b.inTree)
    let state ← clearExtentDirty s.state b.start b.last
    freeExtentBuffer { s with state := state } eb
  else return s

/-! ## Runs -/

/-- The calls on one tree. -/
inductive Op where
  | alloc (bytenr blocksize : ℕ)
  | find (bytenr blocksize : ℕ)
  | get (eb : Ptr)
  | free (eb : Ptr)
  | freeNocache (eb : Ptr)
  | setDirty (eb : Ptr)
  | clearDirty (eb : Ptr)
  | clone (eb : Ptr)
deriving DecidableEq, Repr

/-- The tree, with the number of references that the callers hold. -/
structure Users where
  cache : Cache
  held : Ptr → ℕ

/-- One more reference. -/
def take (held : Ptr → ℕ) (eb : Ptr) : Ptr → ℕ := Function.update held eb (held eb + 1)

/-- One reference less. -/
def drop (held : Ptr → ℕ) (eb : Ptr) : Ptr → ℕ := Function.update held eb (held eb - 1)

/-- A reference for the returned pointer, if it is not NULL. -/
def takeReturned (held : Ptr → ℕ) : Option Ptr → Ptr → ℕ
  | none => held
  | some eb => take held eb

def step (u : Users) : Op → Call Users
  | .alloc bytenr blocksize => do
      let (eb, s) ← allocExtentBuffer u.cache bytenr blocksize
      return ⟨s, takeReturned u.held eb⟩
  | .find bytenr blocksize => do
      let (eb, s) ← findExtentBuffer u.cache bytenr blocksize
      return ⟨s, takeReturned u.held eb⟩
  | .get eb => do
      let s ← extentBufferGet u.cache eb
      return ⟨s, take u.held eb⟩
  | .free eb => do
      let s ← freeExtentBuffer u.cache eb
      return ⟨s, drop u.held eb⟩
  | .freeNocache eb => do
      let s ← freeExtentBufferNocache u.cache eb
      return ⟨s, drop u.held eb⟩
  | .setDirty eb => do
      let s ← setExtentBufferDirty u.cache eb
      return ⟨s, u.held⟩
  | .clearDirty eb => do
      let s ← clearExtentBufferDirty u.cache eb
      return ⟨s, u.held⟩
  | .clone eb => do
      let (new, s) ← btrfsCloneExtentBuffer u.cache eb
      return ⟨s, take u.held new⟩

end Btrfs.BufferCache
