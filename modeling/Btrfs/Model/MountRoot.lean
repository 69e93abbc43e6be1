import Btrfs.Model.Basic

/-! # The mount point of a path (`utils.c`) -/

namespace Btrfs.Utils

/-- The fields of a `struct mntent` that are read. -/
structure Mntent where
  mntDir : List Char
  mntType : List Char
deriving DecidableEq, Repr

/-- The loop of `find_mount_root`: the entry of `longest_match`, none for a null pointer. -/
def findMountLoop (path : List Char) (longest : Option Mntent) : List Mntent → Option Mntent
  | [] => longest
  | ent :: mnttab =>
    let matchlen := (longest.map fun e => e.mntDir.length).getD 0
    findMountLoop path
      (if ent.mntDir <+: path ∧ matchlen ≤ ent.mntDir.length then some ent else longest) mnttab

/-- `find_mount_root` for a path that can be opened: the result and `*mount_root`. -/
def findMountRoot (realpath : List Char → Except ℤ (List Char)) (mnttab : List Mntent)
    (path : List Char) : ℤ × Option (List Char) :=
  match findMountLoop path none mnttab with
  | none => (-2, none)
  | some ent =>
    if ent.mntType ≠ "btrfs".toList then (1, none)
    else
      match realpath ent.mntDir with
      | .ok dir => (0, some dir)
      | .error errno => (-errno, none)

end Btrfs.Utils
