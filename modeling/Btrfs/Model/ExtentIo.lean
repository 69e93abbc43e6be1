import Btrfs.Model.ExtentCache

/-! # Extent state trees (`extent_io.c`) -/

namespace Btrfs.ExtentIo

open ExtentCache

/-- The `unsigned long` word of `EXTENT_*` flags. An `int bits` argument is its
sign extension. -/
abbrev StateBits := BitVec 64

def EXTENT_DIRTY : StateBits := 1#64 <<< 0
def EXTENT_WRITEBACK : StateBits := 1#64 <<< 1
def EXTENT_UPTODATE : StateBits := 1#64 <<< 2
def EXTENT_LOCKED : StateBits := 1#64 <<< 3
def EXTENT_IOBITS : StateBits := EXTENT_LOCKED ||| EXTENT_WRITEBACK

/-- `struct extent_state`; `last` is the inclusive `end` of the source. -/
structure ExtentState where
  start : ℕ
  last : ℕ
  state : StateBits
  xprivate : ℕ
deriving DecidableEq, Repr

/-- `update_extent_state`: the embedded range node always mirrors `[start, last]`. -/
def ExtentState.cacheNode (s : ExtentState) : CacheExtent where
  start := s.start
  size := wrap64 (s.last + 1 - s.start)

/-- The states of an `extent_io_tree` in order. -/
abbrev StateTree := List ExtentState

def allocExtentState : ExtentState := ⟨0, 0, 0, 0⟩

/-- The first half of `merge_state`: absorb the previous state. -/
def mergePrev (before : StateTree) (s : ExtentState) : StateTree × ExtentState :=
  match before.getLast? with
  | none => (before, s)
  | some other =>
    if other.last = wrap64 (s.start + u64Max) ∧ other.state = s.state then
      (before.dropLast, { s with start := other.start })
    else (before, s)

/-- The second half of `merge_state`: hand the range over to the next state. -/
def mergeNext (s : ExtentState) (after : StateTree) : StateTree :=
  match after with
  | [] => [s]
  | other :: rest =>
    if other.start = wrap64 (s.last + 1) ∧ other.state = s.state then
      { other with start := s.start } :: rest
    else s :: other :: rest

/-- `merge_state` on the state between `before` and `after`. -/
def mergeState (before : StateTree) (s : ExtentState) (after : StateTree) : StateTree :=
  if s.state &&& EXTENT_IOBITS ≠ 0 then before ++ s :: after
  else (mergePrev before s).1 ++ mergeNext (mergePrev before s).2 after

def insertState (tree : StateTree) (prealloc : ExtentState) (start last : ℕ)
    (bits : StateBits) : Call StateTree := do
  bugOn (decide (last < start))
  let s := { prealloc with state := prealloc.state ||| bits, start := start, last := last }
  match insertCacheExtent ExtentState.cacheNode tree s with
  | none => .error .bug
  | some (before, after) => .ok (mergeState before s after)

/-- The lower half that `split_state` cuts off `orig`. -/
def splitLow (orig prealloc : ExtentState) (split : ℕ) : ExtentState :=
  { prealloc with start := orig.start, last := split - 1, state := orig.state }

/-- The upper half, which stays in the node of `orig`. -/
def splitHigh (orig : ExtentState) (split : ℕ) : ExtentState :=
  { orig with start := split }

/-- `split_state`. The lower half is put directly before the upper one; the result is
the two halves with their surroundings. -/
def splitState (before : StateTree) (orig : ExtentState) (after : StateTree)
    (prealloc : ExtentState) (split : ℕ) :
    Call (StateTree × ExtentState × ExtentState × StateTree) :=
  let low := splitLow orig prealloc split
  match insertCacheExtent ExtentState.cacheNode (before ++ splitHigh orig split :: after) low with
  | some (before', high :: after') => .ok (before', low, high, after')
  | _ => .error .bug

/-- Where a round of a search loop goes: `goto out`, or `search_again` with a new start. -/
inductive Goto where
  | out (tree : StateTree)
  | searchAgain (tree : StateTree) (start : ℕ)
deriving DecidableEq, Repr

/-- `last_end == (u64)-1` ends the search, otherwise it goes on behind the state. -/
def behind (tree : StateTree) (lastEnd : ℕ) : Goto :=
  if lastEnd = u64Max then .out tree else .searchAgain tree (lastEnd + 1)

/-- The rounds granted to a search loop: two for every offset of the range. -/
def rounds (start last : ℕ) : ℕ := 2 * (last + 1 - start) + 2

/-! ## Setting bits -/

/-- One round of `set_extent_bits`, from `again` to the next jump. -/
def setExtentBitsRound (tree : StateTree) (start last : ℕ) (bits : StateBits) : Call Goto :=
  match searchCacheExtent ExtentState.cacheNode tree start with
  | none => do
      let tree ← insertState tree allocExtentState start last bits
      .ok (.out tree)
  | some (before, s, after) =>
    if s.start = start ∧ s.last ≤ last then
      .ok (behind (mergeState before { s with state := s.state ||| bits } after) s.last)
    else if s.start < start then do
      let (before, low, high, after) ← splitState before s after allocExtentState start
      if high.last ≤ last then
        .ok (behind
          (mergeState (before ++ [low]) { high with state := high.state ||| bits } after) s.last)
      else .ok (.searchAgain (before ++ low :: high :: after) high.start)
    else if start < s.start then do
      let thisEnd := if last < s.start then last else s.start - 1
      let tree ← insertState tree allocExtentState start thisEnd bits
      .ok (.searchAgain tree (thisEnd + 1))
    else do
      let (before, low, high, after) ← splitState before s after allocExtentState (last + 1)
      -- `state->state |= bits` is applied to the node of `orig`, the upper half
      .ok (.out (mergeState before low ({ high with state := high.state ||| bits } :: after)))

def setExtentBitsLoop (last : ℕ) (bits : StateBits) : ℕ → StateTree → ℕ → Call StateTree
  | 0, _, _ => .error .outOfRounds
  | n + 1, tree, start => do
      match ← setExtentBitsRound tree start last bits with
      | .out tree => .ok tree
      | .searchAgain tree start =>
        if last < start then .ok tree else setExtentBitsLoop last bits n tree start

/-- `set_extent_bits`, with every `alloc_extent_state` succeeding. -/
def setExtentBits (tree : StateTree) (start last : ℕ) (bits : StateBits) : Call StateTree :=
  setExtentBitsLoop last bits (rounds start last) tree start

/-! ## Clearing bits -/

/-- `clear_state_bit`: the bits that were set, and the tree. -/
def clearStateBit (before : StateTree) (s : ExtentState) (after : StateTree)
    (bits : StateBits) : StateBits × StateTree :=
  let s' := { s with state := s.state &&& ~~~bits }
  (s.state &&& bits, if s'.state = 0 then before ++ after else mergeState before s' after)

/-- One round of `clear_extent_bits`, with the bits it adds to `set`. -/
def clearExtentBitsRound (tree : StateTree) (start last : ℕ) (bits : StateBits) :
    Call (StateBits × Goto) :=
  match searchCacheExtent ExtentState.cacheNode tree start with
  | none => .ok (0, .out tree)
  | some (before, s, after) =>
    if last < s.start then .ok (0, .out tree)
    else if s.start < start then do
      let (before, low, high, after) ← splitState before s after allocExtentState start
      if high.last ≤ last then
        let (ret, tree) := clearStateBit (before ++ [low]) high after bits
        .ok (ret, behind tree s.last)
      else .ok (0, .searchAgain (before ++ low :: high :: after) high.start)
    else if s.start ≤ last ∧ last < s.last then do
      let (before, low, high, after) ← splitState before s after allocExtentState (last + 1)
      let (ret, tree) := clearStateBit before low (high :: after) bits
      .ok (ret, .out tree)
    else
      let (ret, tree) := clearStateBit before s after bits
      .ok (ret, behind tree s.last)

def clearExtentBitsLoop (last : ℕ) (bits : StateBits) :
    ℕ → StateBits → StateTree → ℕ → Call (StateBits × StateTree)
  | 0, _, _, _ => .error .outOfRounds
  | n + 1, set, tree, start => do
      let (ret, next) ← clearExtentBitsRound tree start last bits
      match next with
      | .out tree => .ok (set ||| ret, tree)
      | .searchAgain tree start =>
        if last < start then .ok (set ||| ret, tree)
        else clearExtentBitsLoop last bits n (set ||| ret) tree start

/-- `clear_extent_bits`, with every `alloc_extent_state` succeeding. -/
def clearExtentBits (tree : StateTree) (start last : ℕ) (bits : StateBits) :
    Call (StateBits × StateTree) :=
  clearExtentBitsLoop last bits (rounds start last) 0 tree start

/-! ## Queries -/

/-- The walk of `find_first_extent_bit` over the states from the searched one on. -/
def findFirstFrom (start : ℕ) (bits : StateBits) : StateTree → Option (ℕ × ℕ)
  | [] => none
  | s :: rest =>
    if start ≤ s.last ∧ s.state &&& bits ≠ 0 then some (s.start, s.last)
    else findFirstFrom start bits rest

/-- `find_first_extent_bit`: `none` is the return value 1. -/
def findFirstExtentBit (tree : StateTree) (start : ℕ) (bits : StateBits) : Option (ℕ × ℕ) :=
  match searchCacheExtent ExtentState.cacheNode tree start with
  | none => none
  | some (_, s, after) => findFirstFrom start bits (s :: after)

/-- The walk of `test_range_bit`, with `bitset` so far. -/
def testRangeFrom (last : ℕ) (bits : StateBits) (filled : Bool) : StateTree → ℕ → Bool → Bool
  | [], _, bitset => bitset && !filled
  | s :: rest, start, bitset =>
    if last < start then bitset
    else if filled && decide (start < s.start) then false
    else if last < s.start then bitset
    else if s.state &&& bits ≠ 0 then
      if !filled || decide (last < wrap64 (s.last + 1)) then true
      else testRangeFrom last bits filled rest (wrap64 (s.last + 1)) true
    else if filled then false
    else if last < wrap64 (s.last + 1) then bitset
    else testRangeFrom last bits filled rest (wrap64 (s.last + 1)) bitset

/-- `test_range_bit`. -/
def testRangeBit (tree : StateTree) (start last : ℕ) (bits : StateBits) (filled : Bool) : Bool :=
  match searchCacheExtent ExtentState.cacheNode tree start with
  | none => false
  | some (_, s, after) => testRangeFrom last bits filled (s :: after) start false

def setExtentDirty (tree : StateTree) (start last : ℕ) : Call StateTree :=
  setExtentBits tree start last EXTENT_DIRTY

def clearExtentDirty (tree : StateTree) (start last : ℕ) : Call StateTree := do
  let (_, tree) ← clearExtentBits tree start last EXTENT_DIRTY
  return tree

end Btrfs.ExtentIo
