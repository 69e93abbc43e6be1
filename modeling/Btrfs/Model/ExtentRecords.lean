import Btrfs.Model.Basic

/-! # Choosing among extent records (`check/main.c`) -/

namespace Btrfs.Check

/-! ## Entries that disagree -/

/-- A `struct extent_entry`: a range, and how many references and broken ones have it. -/
structure ExtentEntry where
  bytenr : ℕ
  bytes : ℕ
  count : ℕ
  broken : ℕ
deriving DecidableEq, Repr

/-- The loop of `find_most_right_entry`. -/
def findMostRightLoop : Option ExtentEntry → Option ExtentEntry → List ExtentEntry →
    Option ExtentEntry
  | best, _, [] => best
  | best, prev, entry :: entries =>
    if entry.broken = entry.count then findMostRightLoop best prev entries
    else
      match prev with
      | none => findMostRightLoop (some entry) (some entry) entries
      | some before =>
        match best with
        | none =>
          if before.broken = 0 ∧ before.count = entry.count then
            findMostRightLoop none prev entries
          else
            findMostRightLoop (some (if before.count > entry.count then before else entry))
              (some entry) entries
        | some top =>
          if top.count = entry.count then findMostRightLoop none (some entry) entries
          else if before.broken = 0 ∧ before.count = entry.count then
            findMostRightLoop best prev entries
          else findMostRightLoop (some (if top.count < entry.count then entry else top)) (some entry)
            entries

def findMostRightEntry (entries : List ExtentEntry) : Option ExtentEntry :=
  findMostRightLoop none none entries

/-- The fields of a `struct extent_record` that are read here. -/
structure ExtentRecord where
  start : ℕ
  nr : ℕ
  foundRec : Bool
  metadata : Bool
deriving DecidableEq, Repr

/-- A `struct extent_backref`, with the fields of a `struct data_backref`. -/
structure Backref where
  fullBackref : Bool
  isData : Bool
  broken : Bool
  foundRef : ℕ
  diskBytenr : ℕ
  bytes : ℕ
deriving DecidableEq, Repr

/-- The references that `verify_backrefs` looks at. -/
def Backref.considered (back : Backref) : Bool :=
  !back.fullBackref && back.isData && back.foundRef != 0

def findEntry (entries : List ExtentEntry) (bytenr bytes : ℕ) : Option ExtentEntry :=
  entries.find? fun entry => entry.bytenr = bytenr ∧ entry.bytes = bytes

/-- One more for the entry of a range, which is added behind the others if there is none. -/
def countEntry (bytenr bytes broken : ℕ) : List ExtentEntry → List ExtentEntry
  | [] => [⟨bytenr, bytes, 1, broken⟩]
  | entry :: entries =>
    if entry.bytenr = bytenr ∧ entry.bytes = bytes then
      { entry with count := entry.count + 1, broken := entry.broken + broken } :: entries
    else entry :: countEntry bytenr bytes broken entries

/-- The first loop of `verify_backrefs`. -/
def collectEntries (refs : List Backref) : List ExtentEntry :=
  refs.foldl (fun entries back => countEntry back.diskBytenr back.bytes back.broken.toNat entries) []

/-- `best` of `verify_backrefs`: where the references do not decide, the record counts as one more. -/
def chooseEntry (record : ExtentRecord) (refs : List Backref) : Option ExtentEntry :=
  match findMostRightEntry (collectEntries refs) with
  | some best => some best
  | none =>
    if findEntry (collectEntries refs) record.start record.nr = none ∧
        (refs.all (fun back => !back.broken) ∨ record.foundRec = false) then none
    else findMostRightEntry (countEntry record.start record.nr 0 (collectEntries refs))

/-- The last loop of `verify_backrefs`: the result, and the references that are rewritten or tried. -/
def repairRefs (repairRef : Backref → ℤ) (best : ExtentEntry) : List Backref → ℤ × List Backref
  | [] => (-11, [])
  | back :: refs =>
    if back.bytes = best.bytes ∧ back.diskBytenr = best.bytenr then repairRefs repairRef best refs
    else if repairRef back ≠ 0 then (repairRef back, [back])
    else
      let (ret, repaired) := repairRefs repairRef best refs
      (ret, back :: repaired)

/-- `verify_backrefs` with the results of `repair_ref`: the result, and the references that are
rewritten with the entry that they get. -/
def verifyBackrefs (repairRef : ExtentEntry → Backref → ℤ) (record : ExtentRecord)
    (backrefs : List Backref) : ℤ × List (Backref × ExtentEntry) :=
  let refs := backrefs.filter Backref.considered
  let mismatch := refs.any fun back =>
    back.diskBytenr ≠ record.start ∨ back.bytes ≠ record.nr ∨ back.broken
  if record.metadata then (0, [])
  else if (collectEntries refs).length ≤ 1 ∧ !mismatch then (0, [])
  else
    match chooseEntry record refs with
    | none => (-22, [])
    | some best =>
      if best.bytenr ≠ record.start then (-22, [])
      else
        let (ret, repaired) := repairRefs (repairRef best) best refs
        (ret, repaired.map (·, best))

/-! ## Duplicate records -/

/-- The scan for the record that covers the duplicates: the records in front of the candidate, the
candidate and those behind it. -/
def findGood (front : List ExtentRecord) (good : ExtentRecord) (behind : List ExtentRecord) :
    List ExtentRecord → Call (List ExtentRecord × ExtentRecord × List ExtentRecord)
  | [] => .ok (front, good, behind)
  | tmp :: dups =>
    if good.start < tmp.start ∨ good.nr > tmp.nr then findGood front good (behind ++ [tmp]) dups
    else if wrap64 (tmp.start + tmp.nr) < wrap64 (good.start + good.nr) then .error .bug
    else findGood (front ++ good :: behind) tmp [] dups

/-- The records whose items are deleted, and the last result of a search or a deletion, if no `abort`
comes before. -/
def deleteRecords (outcome : ExtentRecord → ℤ) : List ExtentRecord → List ExtentRecord × Call ℤ
  | [] => ([], .ok 0)
  | tmp :: rest =>
    if tmp.foundRec = false then deleteRecords outcome rest
    else if tmp.metadata then ([], .error .bug)
    else if outcome tmp ≠ 0 then ([], .ok (outcome tmp))
    else (tmp :: (deleteRecords outcome rest).1, (deleteRecords outcome rest).2)

/-- `delete_duplicate_records` with the results of the start and the commit of the transaction: the
deleted records, and the record that is kept with the result. An `abort` is a fault. -/
def deleteDuplicateRecords (started commit : ℤ) (outcome : ExtentRecord → ℤ) (record : ExtentRecord)
    (dups : List ExtentRecord) : List ExtentRecord × Call (ExtentRecord × ℤ) :=
  match findGood [] record [] dups with
  | .error fault => ([], .error fault)
  | .ok (front, good, behind) =>
    if started ≠ 0 then ([], .ok (good, started))
    else
      let (deleted, result) := deleteRecords outcome (front ++ behind)
      (deleted, result.map fun ret =>
        let ret := if ret = 0 then commit else ret
        (good, if ret ≠ 0 then ret else deleted.length))

end Btrfs.Check
