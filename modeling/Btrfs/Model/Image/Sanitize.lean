import Btrfs.Model.Crc32c
import Btrfs.Model.RbTree

/-! # Names with the checksum of another name (`image/sanitize.c`) -/

namespace Btrfs.Sanitize

open Crc32c Raid56 RbTree

def crc32cRevTable : Array (BitVec 32) :=
  #[
    0x00000000#32, 0x05ec76f1#32, 0x0bd8ede2#32, 0x0e349b13#32, 0x17b1dbc4#32, 0x125dad35#32,
    0x1c693626#32, 0x198540d7#32, 0x2f63b788#32, 0x2a8fc179#32, 0x24bb5a6a#32, 0x21572c9b#32,
    0x38d26c4c#32, 0x3d3e1abd#32, 0x330a81ae#32, 0x36e6f75f#32, 0x5ec76f10#32, 0x5b2b19e1#32,
    0x551f82f2#32, 0x50f3f403#32, 0x4976b4d4#32, 0x4c9ac225#32, 0x42ae5936#32, 0x47422fc7#32,
    0x71a4d898#32, 0x7448ae69#32, 0x7a7c357a#32, 0x7f90438b#32, 0x6615035c#32, 0x63f975ad#32,
    0x6dcdeebe#32, 0x6821984f#32, 0xbd8ede20#32, 0xb862a8d1#32, 0xb65633c2#32, 0xb3ba4533#32,
    0xaa3f05e4#32, 0xafd37315#32, 0xa1e7e806#32, 0xa40b9ef7#32, 0x92ed69a8#32, 0x97011f59#32,
    0x9935844a#32, 0x9cd9f2bb#32, 0x855cb26c#32, 0x80b0c49d#32, 0x8e845f8e#32, 0x8b68297f#32,
    0xe349b130#32, 0xe6a5c7c1#32, 0xe8915cd2#32, 0xed7d2a23#32, 0xf4f86af4#32, 0xf1141c05#32,
    0xff208716#32, 0xfaccf1e7#32, 0xcc2a06b8#32, 0xc9c67049#32, 0xc7f2eb5a#32, 0xc21e9dab#32,
    0xdb9bdd7c#32, 0xde77ab8d#32, 0xd043309e#32, 0xd5af466f#32, 0x7ef1cab1#32, 0x7b1dbc40#32,
    0x75292753#32, 0x70c551a2#32, 0x69401175#32, 0x6cac6784#32, 0x6298fc97#32, 0x67748a66#32,
    0x51927d39#32, 0x547e0bc8#32, 0x5a4a90db#32, 0x5fa6e62a#32, 0x4623a6fd#32, 0x43cfd00c#32,
    0x4dfb4b1f#32, 0x48173dee#32, 0x2036a5a1#32, 0x25dad350#32, 0x2bee4843#32, 0x2e023eb2#32,
    0x37877e65#32, 0x326b0894#32, 0x3c5f9387#32, 0x39b3e576#32, 0x0f551229#32, 0x0ab964d8#32,
    0x048dffcb#32, 0x0161893a#32, 0x18e4c9ed#32, 0x1d08bf1c#32, 0x133c240f#32, 0x16d052fe#32,
    0xc37f1491#32, 0xc6936260#32, 0xc8a7f973#32, 0xcd4b8f82#32, 0xd4cecf55#32, 0xd122b9a4#32,
    0xdf1622b7#32, 0xdafa5446#32, 0xec1ca319#32, 0xe9f0d5e8#32, 0xe7c44efb#32, 0xe228380a#32,
    0xfbad78dd#32, 0xfe410e2c#32, 0xf075953f#32, 0xf599e3ce#32, 0x9db87b81#32, 0x98540d70#32,
    0x96609663#32, 0x938ce092#32, 0x8a09a045#32, 0x8fe5d6b4#32, 0x81d14da7#32, 0x843d3b56#32,
    0xb2dbcc09#32, 0xb737baf8#32, 0xb90321eb#32, 0xbcef571a#32, 0xa56a17cd#32, 0xa086613c#32,
    0xaeb2fa2f#32, 0xab5e8cde#32, 0xfde39562#32, 0xf80fe393#32, 0xf63b7880#32, 0xf3d70e71#32,
    0xea524ea6#32, 0xefbe3857#32, 0xe18aa344#32, 0xe466d5b5#32, 0xd28022ea#32, 0xd76c541b#32,
    0xd958cf08#32, 0xdcb4b9f9#32, 0xc531f92e#32, 0xc0dd8fdf#32, 0xcee914cc#32, 0xcb05623d#32,
    0xa324fa72#32, 0xa6c88c83#32, 0xa8fc1790#32, 0xad106161#32, 0xb49521b6#32, 0xb1795747#32,
    0xbf4dcc54#32, 0xbaa1baa5#32, 0x8c474dfa#32, 0x89ab3b0b#32, 0x879fa018#32, 0x8273d6e9#32,
    0x9bf6963e#32, 0x9e1ae0cf#32, 0x902e7bdc#32, 0x95c20d2d#32, 0x406d4b42#32, 0x45813db3#32,
    0x4bb5a6a0#32, 0x4e59d051#32, 0x57dc9086#32, 0x5230e677#32, 0x5c047d64#32, 0x59e80b95#32,
    0x6f0efcca#32, 0x6ae28a3b#32, 0x64d61128#32, 0x613a67d9#32, 0x78bf270e#32, 0x7d5351ff#32,
    0x7367caec#32, 0x768bbc1d#32, 0x1eaa2452#32, 0x1b4652a3#32, 0x1572c9b0#32, 0x109ebf41#32,
    0x091bff96#32, 0x0cf78967#32, 0x02c31274#32, 0x072f6485#32, 0x31c993da#32, 0x3425e52b#32,
    0x3a117e38#32, 0x3ffd08c9#32, 0x2678481e#32, 0x23943eef#32, 0x2da0a5fc#32, 0x284cd30d#32,
    0x83125fd3#32, 0x86fe2922#32, 0x88cab231#32, 0x8d26c4c0#32, 0x94a38417#32, 0x914ff2e6#32,
    0x9f7b69f5#32, 0x9a971f04#32, 0xac71e85b#32, 0xa99d9eaa#32, 0xa7a905b9#32, 0xa2457348#32,
    0xbbc0339f#32, 0xbe2c456e#32, 0xb018de7d#32, 0xb5f4a88c#32, 0xddd530c3#32, 0xd8394632#32,
    0xd60ddd21#32, 0xd3e1abd0#32, 0xca64eb07#32, 0xcf889df6#32, 0xc1bc06e5#32, 0xc4507014#32,
    0xf2b6874b#32, 0xf75af1ba#32, 0xf96e6aa9#32, 0xfc821c58#32, 0xe5075c8f#32, 0xe0eb2a7e#32,
    0xeedfb16d#32, 0xeb33c79c#32, 0x3e9c81f3#32, 0x3b70f702#32, 0x35446c11#32, 0x30a81ae0#32,
    0x292d5a37#32, 0x2cc12cc6#32, 0x22f5b7d5#32, 0x2719c124#32, 0x11ff367b#32, 0x1413408a#32,
    0x1a27db99#32, 0x1fcbad68#32, 0x064eedbf#32, 0x03a29b4e#32, 0x0d96005d#32, 0x087a76ac#32,
    0x605beee3#32, 0x65b79812#32, 0x6b830301#32, 0x6e6f75f0#32, 0x77ea3527#32, 0x720643d6#32,
    0x7c32d8c5#32, 0x79deae34#32, 0x4f38596b#32, 0x4ad42f9a#32, 0x44e0b489#32, 0x410cc278#32,
    0x588982af#32, 0x5d65f45e#32, 0x53516f4d#32, 0x56bd19bc#32
  ]

/-- The seed of the checksum of a name, `~1`. -/
def nameSeed : BitVec 32 := ~~~ 1#32

/-- A round of the first loop of `find_collision_calc_suffix`; an `unsigned long` has 64 bits, of
which those above the low 32 are never used. -/
def calcSuffixRound (currentCrc desiredCrc : BitVec 64) (i : ℕ) : BitVec 64 :=
  (desiredCrc <<< 8) ^^^
    (crc32cRevTable.getD (desiredCrc >>> 24 &&& 0xff#64).toNat 0).setWidth 64 ^^^
    (currentCrc >>> (i * 8) &&& 0xff#64)

/-- `find_collision_calc_suffix`: the four bytes that it writes. -/
def findCollisionCalcSuffix (currentCrc desiredCrc : BitVec 64) : List Byte :=
  let desiredCrc := [3, 2, 1, 0].foldl (calcSuffixRound currentCrc) desiredCrc
  [0, 1, 2, 3].map fun i => (desiredCrc >>> (i * 8) &&& 0xff#64).setWidth 8

/-- `find_collision_is_suffix_valid`; a `char` is signed. -/
def findCollisionIsSuffixValid (suffix : List Byte) : Bool :=
  suffix.all fun c => ¬ (c.toInt < 32 ∨ 126 < c.toInt ∨ c = 47#8)

/-- The next character of a name: `/` is left out. -/
def bumpChar (c : Byte) : Byte := if c + 1 = 47#8 then c + 1 + 1 else c + 1

/-- The step to the next prefix: the characters up to the first one that is not the last character
(126) start again with a blank, and that one goes on. `none` stands for the `break` when all are
the last one. -/
def nextSub : List Byte → Option (List Byte)
  | [] => none
  | c :: cs => if c = 126#8 then (nextSub cs).map (32#8 :: ·) else some (bumpChar c :: cs)

/-- The loop of `find_collision_reverse_crc32c` over the prefixes `sub` of the new name; the result
is `found` and the buffer `val->sub`. -/
def reverseLoop (val : List Byte) (checksum : BitVec 64) : ℕ → List Byte → Call (Bool × List Byte)
  | 0, _ => .error .outOfRounds
  | rounds + 1, sub =>
    let currentChecksum := (crc32c nameSeed sub).setWidth 64
    let suffix := findCollisionCalcSuffix currentChecksum checksum
    if findCollisionIsSuffixValid suffix ∧ sub ++ suffix ≠ val then .ok (true, sub ++ suffix)
    else
      match nextSub sub with
      | none => .ok (false, sub ++ suffix)
      | some sub => reverseLoop val checksum rounds sub

/-- `find_collision_reverse_crc32c` for the name `val`, with `sub` in the buffer `val->sub`. There
are 94 characters, so that the loop can take 94 ^ (n - 4) rounds. -/
def findCollisionReverseCrc32c (val sub : List Byte) : Call (Bool × List Byte) :=
  if val.length ≤ 4 then .ok (false, sub)
  else
    let checksum := (crc32c nameSeed val).setWidth 64
    let nameLen := val.length - 4
    reverseLoop val checksum (94 ^ nameLen) (List.replicate nameLen 32#8)

/-! ## The tree of names -/

section

variable {α : Type*} (cmp : α → ℤ)

/-- `tree_insert`: an entry that compares equal is a `BUG`. -/
def treeInsert (root : RbNode α) (ins : α) : Call (RbNode α) :=
  match findInsertPlace cmp root [] with
  | none => .error .bug
  | some up => rbInsertColor .nil ins .nil up

end

/-- `struct name`; the length is the one of both buffers. -/
structure Name where
  val : List Byte
  sub : List Byte
deriving DecidableEq, Repr

/-- `memcmp` of buffers of one length. -/
def memcmp : List Byte → List Byte → ℤ
  | a :: as, b :: bs => if a = b then memcmp as bs else (a.toNat : ℤ) - b.toNat
  | _, _ => 0

/-- `name_cmp`: the longer name is cut. -/
def nameCmp (entry ins : List Byte) : ℤ :=
  let len := min ins.length entry.length
  memcmp (ins.take len) (entry.take len)

/-- A character of a name without a collision, from what `jrand48` returns; the `%` of
`rand_range` has its sign. -/
def garbageChar (random : ℤ) : Byte :=
  let c := BitVec.ofInt 8 (random.tmod 94 + 33)
  if c = 47#8 then c + 1 else c

/-- The name tree, and how many random numbers were used. -/
structure NameState where
  tree : RbNode Name
  draws : ℕ

/-- `find_collision`; `rand` gives the random numbers in turn. -/
def findCollision (rand : ℕ → ℤ) (st : NameState) (name : List Byte) :
    Call (List Byte × NameState) :=
  match treeSearch (fun entry : Name => nameCmp entry.val name) st.tree with
  | some val => .ok (val.sub, st)
  | none => do
      let (found, sub) ← findCollisionReverseCrc32c name (List.replicate name.length 0#8)
      let (sub, draws) :=
        if found then (sub, st.draws)
        else ((List.range name.length).map fun i => garbageChar (rand (st.draws + i)),
          st.draws + name.length)
      let tree ← treeInsert (fun entry : Name => nameCmp entry.val name) st.tree ⟨name, sub⟩
      return (sub, ⟨tree, draws⟩)

/-- One call after the other, on one name tree. -/
def findCollisions (rand : ℕ → ℤ) : NameState → List (List Byte) → Call (List (List Byte))
  | _, [] => .ok []
  | st, name :: names => do
      let (sub, st) ← findCollision rand st name
      let subs ← findCollisions rand st names
      return sub :: subs

end Btrfs.Sanitize
