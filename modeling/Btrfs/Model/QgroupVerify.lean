import Btrfs.Model.Ctree.Basic
import Btrfs.Model.RbTree

/-! # Implied references of qgroups (`qgroup-verify.c`) -/

namespace Btrfs.QgroupVerify

open RbTree

/-! ## The ref tree -/

/-- `struct ref`. -/
structure Ref where
  bytenr : ℕ
  numBytes : ℕ
  parent : ℕ
  root : ℕ
deriving DecidableEq, Repr

def compareRef (orig : Ref) (bytenr root parent : ℕ) : ℤ :=
  if bytenr < orig.bytenr then -1
  else if orig.bytenr < bytenr then 1
  else if parent < orig.parent then -1
  else if orig.parent < parent then 1
  else if root < orig.root then -1
  else if orig.root < root then 1
  else 0

def findRef (refs : RbNode Ref) (bytenr root parent : ℕ) : Option Ref :=
  treeSearch (fun orig => compareRef orig bytenr root parent) refs

def insertRef (refs : RbNode Ref) (ref : Ref) : Call (RbNode Ref) :=
  (rbInsert refs ref fun orig => compareRef orig ref.bytenr ref.root ref.parent).map Prod.snd

/-- `alloc_ref`, with `calloc` succeeding. -/
def allocRef (refs : RbNode Ref) (bytenr root parent numBytes : ℕ) : Call (RbNode Ref) :=
  if parent ≠ 0 ∧ root ≠ 0 then .error .bug
  else
    match findRef refs bytenr root parent with
    | some _ => .ok refs
    | none => insertRef refs ⟨bytenr, numBytes, parent, root⟩

/-! ## The walk down a tree -/

def BTRFS_EXTENT_DATA_KEY : ℕ := 108

def BTRFS_FILE_EXTENT_INLINE : ℕ := 0

/-- What is read of an item of a file tree. -/
structure FileItem where
  keyType : ℕ
  extentType : ℕ
  diskBytenr : ℕ
  diskNumBytes : ℕ
deriving DecidableEq, Repr

/-- A block of a file tree, with the blocks below it. -/
inductive TreeBlock where
  | unreadable (bytenr : ℕ)
  | leaf (bytenr : ℕ) (items : List FileItem)
  | node (bytenr : ℕ) (children : List TreeBlock)

def addRefsForLeafItems (refParent : ℕ) : List FileItem → RbNode Ref → Call (RbNode Ref)
  | [], refs => .ok refs
  | item :: items, refs =>
    if item.keyType ≠ BTRFS_EXTENT_DATA_KEY then addRefsForLeafItems refParent items refs
    else if item.extentType = BTRFS_FILE_EXTENT_INLINE then addRefsForLeafItems refParent items refs
    else if item.diskBytenr = 0 then addRefsForLeafItems refParent items refs
    else do
      let refs ← allocRef refs item.diskBytenr 0 refParent item.diskNumBytes
      addRefsForLeafItems refParent items refs

/-- The block that the walk starts from gets no ref on itself. -/
def addRefForBlock (bytenr numBytes refParent : ℕ) (refs : RbNode Ref) : Call (RbNode Ref) :=
  if bytenr ≠ refParent then allocRef refs bytenr 0 refParent numBytes else .ok refs

mutual

def travelTree (nodesize refParent : ℕ) : TreeBlock → ℕ → RbNode Ref → Call (ℤ × RbNode Ref)
  | .unreadable _, _, refs => .ok (-eio, refs)
  | .leaf bytenr items, numBytes, refs => do
      let refs ← addRefForBlock bytenr numBytes refParent refs
      let refs ← addRefsForLeafItems refParent items refs
      return (0, refs)
  | .node bytenr children, numBytes, refs => do
      let refs ← addRefForBlock bytenr numBytes refParent refs
      travelChildren nodesize refParent children 0 refs

/-- The loop of `travel_tree` over the pointers of a node. -/
def travelChildren (nodesize refParent : ℕ) : List TreeBlock → ℤ → RbNode Ref →
    Call (ℤ × RbNode Ref)
  | [], ret, refs => .ok (ret, refs)
  | child :: children, _, refs => do
      let (ret, refs) ← travelTree nodesize refParent child nodesize refs
      travelChildren nodesize refParent children ret refs

end

end Btrfs.QgroupVerify
