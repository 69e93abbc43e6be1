import Btrfs.Model.Basic

/-! # Red-black trees (`rbtree.c`, `rbtree_augmented.h`, `rbtree-utils.c`)

A `struct rb_node` is modelled by its place in the tree: the subtrees below it and the list of its
parents, the nearest first. The branches of the source for a left and for a right child are mirror
images of each other; here the side is a parameter. -/

namespace Btrfs.RbTree

inductive Color where
  | red
  | black
deriving DecidableEq, Repr

inductive RbNode (α : Type*) where
  | nil
  | node (color : Color) (left : RbNode α) (entry : α) (right : RbNode α)
deriving DecidableEq, Repr

inductive Side where
  | left
  | right
deriving DecidableEq, Repr

variable {α : Type*}

def Side.other : Side → Side
  | .left => .right
  | .right => .left

/-- A node whose child on the side is `near`. -/
def Side.node (side : Side) (color : Color) (near : RbNode α) (entry : α) (far : RbNode α) : RbNode α :=
  match side with
  | .left => .node color near entry far
  | .right => .node color far entry near

/-- The child on the side and the other one. -/
def Side.split (side : Side) (left right : RbNode α) : RbNode α × RbNode α :=
  match side with
  | .left => (left, right)
  | .right => (right, left)

/-- A parent without its child on the side. -/
structure Frame (α : Type*) where
  side : Side
  color : Color
  entry : α
  other : RbNode α

def Frame.fill (f : Frame α) (child : RbNode α) : RbNode α :=
  f.side.node f.color child f.entry f.other

/-- The whole tree around a subtree. -/
def unzip : List (Frame α) → RbNode α → RbNode α
  | [], t => t
  | f :: up, t => unzip up (f.fill t)

/-- A `struct rb_node` in its tree. -/
structure Loc (α : Type*) where
  color : Color
  left : RbNode α
  entry : α
  right : RbNode α
  up : List (Frame α)

/-- The root of the tree of a node. -/
def Loc.root (l : Loc α) : RbNode α := unzip l.up (.node l.color l.left l.entry l.right)

/-- The parent, with its child put back. -/
def Frame.loc (f : Frame α) (child : RbNode α) (up : List (Frame α)) : Loc α :=
  match f.side with
  | .left => ⟨f.color, child, f.entry, f.other, up⟩
  | .right => ⟨f.color, f.other, f.entry, child, up⟩

/-- `rb_set_parent_color(.., RB_BLACK)` on a child that may be missing. -/
def blacken : RbNode α → RbNode α
  | .nil => .nil
  | .node _ l e r => .node .black l e r

/-! ## Insertion -/

/-- `__rb_insert` for a red node with the children `l` and `r`. -/
def rbInsertColor : RbNode α → α → RbNode α → List (Frame α) → Call (RbNode α)
  | l, e, r, [] => .ok (.node .black l e r)
  | l, e, r, [p] =>
    match p.color with
    | .black => .ok (p.fill (.node .red l e r))
    | .red => .error .bug
  | l, e, r, p :: g :: up =>
    match p.color with
    | .black => .ok (unzip (p :: g :: up) (.node .red l e r))
    | .red =>
      match g.other with
      | .node .red ul ue ur =>
        -- case 1: color flips, one more round at the grandparent
        let parent := p.side.node .black (.node .red l e r) p.entry p.other
        let children := g.side.split parent (.node .black ul ue ur)
        rbInsertColor children.1 g.entry children.2 up
      | uncle =>
        if p.side = g.side then
          -- case 3: rotate at the grandparent
          .ok (unzip up (g.side.node g.color (.node .red l e r) p.entry
            (g.side.node .red (blacken p.other) g.entry uncle)))
        else
          -- case 2: rotate at the parent first
          let children := g.side.split l r
          .ok (unzip up (g.side.node g.color
            (g.side.node .red p.other p.entry (blacken children.1)) e
            (g.side.node .red (blacken children.2) g.entry uncle)))

/-- The loop of `rb_insert`: the place for the new node, or `none` for `-EEXIST`. -/
def findInsertPlace (comp : α → ℤ) : RbNode α → List (Frame α) → Option (List (Frame α))
  | .nil, up => some up
  | .node c l e r, up =>
    if comp e < 0 then findInsertPlace comp l (⟨.left, c, e, r⟩ :: up)
    else if 0 < comp e then findInsertPlace comp r (⟨.right, c, e, l⟩ :: up)
    else none

def EEXIST : ℤ := 17

/-- `rb_insert`, where `comp` compares a node of the tree with the new one. -/
def rbInsert (root : RbNode α) (entry : α) (comp : α → ℤ) : Call (ℤ × RbNode α) :=
  match findInsertPlace comp root [] with
  | none => .ok (-EEXIST, root)
  | some up => do
      let root ← rbInsertColor .nil entry .nil up
      return (0, root)

/-- The entries are changed in place. -/
def mapEntries (f : α → α) : RbNode α → RbNode α
  | .nil => .nil
  | .node c l e r => .node c (mapEntries f l) (f e) (mapEntries f r)

/-! ## Removal -/

/-- The cases 2 to 4 of `____rb_erase_color` at a parent with the child `t` and a black sibling.
The flag asks for another round at the parent. -/
def eraseCases (side : Side) (color : Color) (t : RbNode α) (entry : α) (near : RbNode α) (sibling : α)
    (far : RbNode α) : RbNode α × Bool :=
  match far with
  | .node .red l e r =>
    -- case 4: rotate at the parent
    (side.node color (side.node .black t entry near) sibling (.node .black l e r), false)
  | _ =>
    match near with
    | .node .red l e r =>
      -- case 3: rotate at the sibling first
      let children := side.split l r
      (side.node color (side.node .black t entry children.1) e
        (side.node .black (blacken children.2) sibling far), false)
    | _ =>
      -- case 2: color flip
      (side.node .black t entry (side.node .red near sibling far), color = .black)

/-- `____rb_erase_color` at the child `t` of the nearest parent. -/
def rbEraseColor : RbNode α → List (Frame α) → Call (RbNode α)
  | t, [] => .ok t
  | t, p :: up =>
    match p.other with
    | .nil => .error .bug
    | .node .black l s r =>
      let children := p.side.split l r
      let result := eraseCases p.side p.color t p.entry children.1 s children.2
      if result.2 then rbEraseColor result.1 up else .ok (unzip up result.1)
    | .node .red l s r =>
      -- case 1: rotate at the parent, which turns red
      let children := p.side.split l r
      match children.1 with
      | .nil => .error .bug
      | .node _ l' s' r' =>
        let children' := p.side.split l' r'
        let result := eraseCases p.side .red t p.entry children'.1 s' children'.2
        .ok (unzip up (p.side.node p.color result.1 s children.2))

/-- From a node as far to one side as it goes; `near` is the child on that side. -/
def furthest (side : Side) (color : Color) : RbNode α → α → RbNode α → List (Frame α) → Loc α
  | .nil, entry, far, up => Frame.loc ⟨side, color, entry, far⟩ .nil up
  | .node c l e r, entry, far, up =>
    match side with
    | .left => furthest .left c l e r (⟨.left, color, entry, far⟩ :: up)
    | .right => furthest .right c r e l (⟨.right, color, entry, far⟩ :: up)

/-- The color of a child that takes the place of its parent. -/
def setColor (color : Color) : RbNode α → RbNode α
  | .nil => .nil
  | .node _ l e r => .node color l e r

def rbErase (node : Loc α) : Call (RbNode α) :=
  match node.left, node.right with
  | .nil, .nil =>
    match node.color with
    | .black => rbEraseColor .nil node.up
    | .red => .ok (unzip node.up .nil)
  | .nil, child => .ok (unzip node.up (setColor node.color child))
  | child, .nil => .ok (unzip node.up (setColor node.color child))
  | left, .node c l e r =>
    let successor := furthest .left c l e r []
    let up := successor.up ++ ⟨.right, node.color, successor.entry, left⟩ :: node.up
    match successor.right with
    | .nil =>
      match successor.color with
      | .black => rbEraseColor .nil up
      | .red => .ok (unzip up .nil)
    | child => .ok (unzip up (blacken child))

/-! ## Moving through a tree -/

/-- `rb_first` and `rb_last`. -/
def rbEnd (side : Side) : RbNode α → Option (Loc α)
  | .nil => none
  | .node c l e r =>
    let children := side.split l r
    some (furthest side c children.1 e children.2 [])

def rbFirst (root : RbNode α) : Option (Loc α) := rbEnd .left root

def rbLast (root : RbNode α) : Option (Loc α) := rbEnd .right root

/-- The first parent on the way up that is not reached from its child on the side. -/
def climb (side : Side) : RbNode α → List (Frame α) → Option (Loc α)
  | _, [] => none
  | t, f :: up => if f.side = side then climb side (f.fill t) up else some (f.loc t up)

/-- `rb_next` and `rb_prev`. -/
def rbNeighbour (side : Side) (node : Loc α) : Option (Loc α) :=
  let children := side.split node.left node.right
  match children.1 with
  | .node c l e r =>
    let children' := side.other.split l r
    some (furthest side.other c children'.1 e children'.2
      (⟨side, node.color, node.entry, children.2⟩ :: node.up))
  | .nil => climb side (.node node.color node.left node.entry node.right) node.up

def rbNext (node : Loc α) : Option (Loc α) := rbNeighbour .right node

def rbPrev (node : Loc α) : Option (Loc α) := rbNeighbour .left node

/-- The loop of `rb_search`: the node found, the last node compared and its result. -/
def rbSearchLoop (comp : α → ℤ) : RbNode α → List (Frame α) → Option (Loc α) → ℤ →
    Option (Loc α) × Option (Loc α) × ℤ
  | .nil, _, parent, ret => (none, parent, ret)
  | .node c l e r, up, _, _ =>
    let n : Loc α := ⟨c, l, e, r, up⟩
    if comp e < 0 then rbSearchLoop comp l (⟨.left, c, e, r⟩ :: up) (some n) (comp e)
    else if 0 < comp e then rbSearchLoop comp r (⟨.right, c, e, l⟩ :: up) (some n) (comp e)
    else (some n, some n, comp e)

/-- `rb_search`: the node and `*next_ret`. -/
def rbSearch (root : RbNode α) (comp : α → ℤ) : Option (Loc α) × Option (Loc α) :=
  match rbSearchLoop comp root [] none 0 with
  | (some n, _, _) => (some n, none)
  | (none, none, _) => (none, none)
  | (none, some parent, ret) => (none, if 0 < ret then rbNext parent else some parent)

/-- The search that `tree_search` and others have of their own; `cmp` compares an entry with what
is searched. -/
def treeSearch (cmp : α → ℤ) : RbNode α → Option α
  | .nil => none
  | .node _ l e r =>
    if cmp e < 0 then treeSearch cmp l else if 0 < cmp e then treeSearch cmp r else some e

end Btrfs.RbTree
