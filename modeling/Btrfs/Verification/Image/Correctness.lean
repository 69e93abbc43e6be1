import Btrfs.Verification.Image.Writer

/-! # The container of a metadump, from the extents to the restored work -/

namespace Btrfs.Image

variable {zlib : Zlib} {src : Source} {level : ℕ} {extents : List Extent}
  {runs : List (List Extent)} {parts : List (ℕ × Bytes)}

/-! ## Looking into superblocks -/

def SUPER_CAPACITY : ℕ := MAX_PENDING_SIZE * 2

/-- The reader can look into the superblocks that it has to. It takes the first one with a
`nodesize`. -/
def Looks (level : ℕ) : ℕ → List (ℕ × Bytes) → Prop
  | _, [] => True
  | nodesize, (start, bytes) :: parts =>
    if start = BTRFS_SUPER_INFO_OFFSET ∧ nodesize = 0 then
      (0 < level → bytes.length ≤ SUPER_CAPACITY) ∧ superFieldsEnd ≤ bytes.length ∧
        Looks level (superInfo bytes).nodesize parts
    else Looks level nodesize parts

def pack (zlib : Zlib) (level : ℕ) (part : ℕ × Bytes) : AsyncWork :=
  ⟨part.1, dumpWorker zlib level part.2⟩

theorem superBuffer_dumpWorker (zlib : Zlib) (level : ℕ) (bytes : Bytes) :
    superBuffer zlib (compressMethod level) (dumpWorker zlib level bytes) =
      if 0 < level → bytes.length ≤ SUPER_CAPACITY then .ok bytes else .error (.failed (-eio)) := by
  unfold superBuffer compressMethod dumpWorker
  by_cases hlevel : 0 < level
  · have huncompress := zlib.uncompress_compress2 SUPER_CAPACITY level bytes
    rw [SUPER_CAPACITY] at huncompress
    rw [if_pos hlevel, if_pos rfl, if_pos hlevel, huncompress]
    by_cases hlen : bytes.length ≤ MAX_PENDING_SIZE * 2
    · have hyes : 0 < level → bytes.length ≤ SUPER_CAPACITY := fun _ => hlen
      rw [if_pos hyes, if_pos hlen]
    · have hno : ¬ (0 < level → bytes.length ≤ SUPER_CAPACITY) := fun h => hlen (h hlevel)
      rw [if_neg hno, if_neg hlen]
  · have hyes : 0 < level → bytes.length ≤ SUPER_CAPACITY := fun h => absurd h hlevel
    rw [if_neg hlevel, if_neg hlevel, if_pos hyes]
    rfl

theorem foldlM_enqueue_pack {mdres : Mdrestore} (hmth : mdres.compressMethod = compressMethod level)
    (parts : List (ℕ × Bytes)) :
    (∃ mdres', (parts.map (pack zlib level)).foldlM (enqueue zlib) mdres = .ok mdres') ↔
      Looks level mdres.info.nodesize parts := by
  induction parts generalizing mdres with
  | nil => exact ⟨fun _ => trivial, fun _ => ⟨mdres, rfl⟩⟩
  | cons part parts ih =>
    obtain ⟨start, bytes⟩ := part
    rw [List.map_cons, List.foldlM_cons, Looks]
    by_cases hlook : start = BTRFS_SUPER_INFO_OFFSET ∧ mdres.info.nodesize = 0
    · obtain ⟨hst, hz⟩ := hlook
      rw [if_pos ⟨hst, hz⟩, enqueue, lookInto, pack, if_pos hst, fillMdresInfo,
        if_neg (not_not.mpr hz), hmth, superBuffer_dumpWorker]
      by_cases hcapacity : 0 < level → bytes.length ≤ SUPER_CAPACITY
      · rw [if_pos hcapacity]
        by_cases hsh : bytes.length < superFieldsEnd
        · simp only [bind, Except.bind, if_pos hsh, reduceCtorEq, exists_false, false_iff]
          omega
        · have hr := @ih ⟨mdres.list ++ [pack zlib level (start, bytes)], mdres.numItems + 1,
            mdres.compressMethod, superInfo bytes⟩ hmth
          simp only [hmth] at hr
          simp only [bind, Except.bind, if_neg hsh]
          rw [and_iff_right hcapacity, and_iff_right (Nat.le_of_not_lt hsh)]
          exact hr
      · rw [if_neg hcapacity]
        simp only [bind, Except.bind, reduceCtorEq, exists_false, false_iff]
        exact fun h => hcapacity h.1
    · have hs : lookInto zlib mdres (pack zlib level (start, bytes)) = .ok mdres := by
        by_cases hst : start = BTRFS_SUPER_INFO_OFFSET
        · have hne : mdres.info.nodesize ≠ 0 := fun hz => hlook ⟨hst, hz⟩
          exact (if_pos hst).trans (if_pos hne)
        · exact if_neg hst
      rw [if_neg hlook, enqueue, hs]
      exact @ih ⟨mdres.list ++ [pack zlib level (start, bytes)], mdres.numItems + 1,
        mdres.compressMethod, mdres.info⟩ hmth

theorem dumpWorker_injective (zlib : Zlib) (level : ℕ) {xs ys : Bytes}
    (h : dumpWorker zlib level xs = dumpWorker zlib level ys) : xs = ys := by
  unfold dumpWorker at h
  split_ifs at h
  · have hxs := zlib.uncompress_compress2 (max xs.length ys.length) level xs
    have hys := zlib.uncompress_compress2 (max xs.length ys.length) level ys
    rw [if_pos (le_max_left _ _)] at hxs
    rw [if_pos (le_max_right _ _)] at hys
    rw [h, hys] at hxs
    exact (Option.some.inj hxs).symm
  · exact h

theorem pack_injective (zlib : Zlib) (level : ℕ) : Function.Injective (pack zlib level) := by
  rintro ⟨start, bytes⟩ ⟨start', bytes'⟩ h
  obtain ⟨hst, hbuf⟩ := AsyncWork.mk.inj h
  cases hst
  cases dumpWorker_injective zlib level hbuf
  rfl

/-! ## Round trip -/

/-- The image is a sequence of clusters that the reader accepts and consumes, and the work it
queues are the extents with their contents. -/
def Restores (zlib : Zlib) (src : Source) (level : ℕ) (extents : List Extent) (written : Bytes) :
    Prop :=
  ∃ (mdres : Mdrestore) (clusters : List (List AsyncWork)) (next : ℕ) (parts : List (ℕ × Bytes)),
    restoreMetadump zlib written = .ok (mdres, []) ∧
    IsStream (compressMethod level) 0 clusters written next ∧ mdres.list = clusters.flatten ∧
    mdres.list = parts.map (pack zlib level) ∧
    (parts.flatMap fun part => addressed part.1 part.2) = ranges src extents

/-- No run is too long for an item, and `pread64` never ends early with `errno` at zero. -/
def Fits (src : Source) (level : ℕ) (extents : List Extent) : Prop :=
  ∀ run ∈ runsOf extents, FitsRun src level run

/-- What is read for a run is what its extents hold. A run that starts at the superblock is read
from the device as a whole, and an error of `pread64` goes unnoticed. -/
def ReadsRun (src : Source) (run : List Extent) : Prop :=
  if startOf run = BTRFS_SUPER_INFO_OFFSET then
    src.pread (startOf run) (total run) = .all (runContents src run) ∨
      src.pread (startOf run) (total run) = .failed (runContents src run)
  else dataOf run = false →
    (List.range (total run)).map (src.treeByte (startOf run)) = runContents src run

/-- All runs are read as they are, and the reader can look into the superblocks. -/
def Faithful (src : Source) (level : ℕ) (extents : List Extent) : Prop :=
  (∀ run ∈ runsOf extents, ReadsRun src run) ∧
    Looks level 0 ((runsOf extents).map fun run => (startOf run, runContents src run))

theorem Filled.readsRun_iff {run : List Extent} {bytes : Bytes}
    (h : Filled src (startOf run) (total run) (dataOf run) bytes) (hmem : run ∈ runsOf extents) :
    ReadsRun src run ↔ bytes = runContents src run := by
  unfold ReadsRun
  generalize hd : dataOf run = data at h
  cases h with
  | all hst hpread => simp [hst ▸ hpread, hst]
  | failed hst hpread => simp [hst ▸ hpread, hst]
  | data hst htrue =>
    have hcontents := runContents_data src (List.mem_filter.mp hmem).1 (hd.trans htrue)
    rw [if_neg hst]
    simp [htrue, hcontents]
  | blocks hst hfalse =>
    rw [if_neg hst]
    simp [hfalse]

def Read (src : Source) (run : List Extent) (part : ℕ × Bytes) : Prop :=
  part.1 = startOf run ∧ Filled src (startOf run) (total run) (dataOf run) part.2

theorem exists_parts {works : List AsyncWork}
    (h : List.Forall₂ (Dumped zlib src level) runs works) :
    ∃ parts, works = parts.map (pack zlib level) ∧ List.Forall₂ (Read src) runs parts := by
  induction h with
  | nil => exact ⟨[], rfl, .nil⟩
  | @cons run async runs works hdumped _ ih =>
    obtain ⟨bytes, hfilled, rfl⟩ := hdumped
    obtain ⟨parts, rfl, hparts⟩ := ih
    exact ⟨(startOf run, bytes) :: parts, rfl, .cons ⟨rfl, hfilled⟩ hparts⟩

theorem ranges_parts_iff (h : List.Forall₂ (Read src) runs parts) :
    (parts.flatMap fun part => addressed part.1 part.2) =
        (runs.flatMap fun run => addressed (startOf run) (runContents src run)) ↔
      parts = runs.map fun run => (startOf run, runContents src run) := by
  induction h with
  | nil => exact ⟨fun _ => rfl, fun _ => rfl⟩
  | @cons run part runs parts hre _ ih =>
    obtain ⟨start, bytes⟩ := part
    obtain ⟨hst, hfilled⟩ := hre
    obtain rfl : start = startOf run := hst
    have hlen : (addressed (startOf run) bytes).length =
        (addressed (startOf run) (runContents src run)).length := by
      rw [length_addressed, length_addressed, hfilled.length_eq, length_runContents]
    rw [List.flatMap_cons, List.flatMap_cons, List.map_cons]
    constructor
    · intro heq
      obtain ⟨hfirst, hr⟩ := List.append_inj heq hlen
      have hbytes : bytes = runContents src run := addressed_injective _ hfirst
      rw [hbytes, ih.mp hr]
    · intro heq
      obtain ⟨hfirst, hr⟩ := List.cons.inj heq
      rw [hfirst, ih.mpr hr]

theorem readsRun_parts_iff (h : List.Forall₂ (Read src) runs parts)
    (hr : ∀ run ∈ runs, run ∈ runsOf extents) :
    (∀ run ∈ runs, ReadsRun src run) ↔
      parts = runs.map fun run => (startOf run, runContents src run) := by
  induction h with
  | nil => exact ⟨fun _ => rfl, fun _ => by simp⟩
  | @cons run part runs parts hre _ ih =>
    obtain ⟨hst, hfilled⟩ := hre
    rw [List.forall_mem_cons, hfilled.readsRun_iff (hr run (by simp)),
      ih (List.forall_mem_cons.mp hr).2, List.map_cons, List.cons.injEq,
      Prod.mk.injEq]
    tauto

theorem restoreMetadump_parts {clusters : List (List AsyncWork)} {written : Bytes} {next : ℕ}
    (hstream : IsStream (compressMethod level) 0 clusters written next)
    (hparts : clusters.flatten = parts.map (pack zlib level)) :
    (∀ mdres rest, restoreMetadump zlib written = .ok (mdres, rest) →
      rest = [] ∧ mdres.list = parts.map (pack zlib level) ∧ Looks level 0 parts) ∧
    (Looks level 0 parts → ∃ mdres rest, restoreMetadump zlib written = .ok (mdres, rest)) := by
  have hmethod : compressMethod level < 2 ^ 8 := by
    unfold compressMethod
    split_ifs <;> decide
  have hl := @restoreLoop_spec zlib _ 0 next clusters written mdrestoreInit _ hstream hmethod
    (Nat.lt_succ_self _)
  rw [← restoreMetadump, queued, hparts] at hl
  have hlooks := @foldlM_enqueue_pack zlib level
    { mdrestoreInit with compressMethod := compressMethod level } rfl parts
  constructor
  · intro mdres rest hrestored
    rw [hrestored] at hl
    cases hfold : (parts.map (pack zlib level)).foldlM (enqueue zlib)
      { mdrestoreInit with compressMethod := compressMethod level } with
    | error stop =>
      rw [hfold] at hl
      cases hl
    | ok mdres' =>
      rw [hfold] at hl
      obtain ⟨hli, hr⟩ := Prod.mk.inj (Except.ok.inj hl)
      exact ⟨hr, hli.trans (foldlM_enqueue_ok hfold).2, hlooks.mp ⟨mdres', hfold⟩⟩
  · intro hlook
    obtain ⟨mdres', hfold⟩ := hlooks.mpr hlook
    rw [hfold] at hl
    cases hrestored : restoreMetadump zlib written with
    | error stop =>
      rw [hrestored] at hl
      cases hl
    | ok result => exact ⟨result.1, result.2, rfl⟩

theorem restores_iff_faithful {room : ℕ} {md : Metadump}
    (hc : createMetadump zlib src level room extents = .ok md) (hf : Fits src level extents) :
    Restores zlib src level extents md.out.written ↔ Faithful src level extents := by
  obtain ⟨clusters, next, hstream, hdumped⟩ := createMetadump_stream hf hc
  obtain ⟨parts, hworks, hr⟩ := exists_parts hdumped
  obtain ⟨hresult, hrestores⟩ := restoreMetadump_parts hstream hworks
  have hranges := ranges_parts_iff hr
  have hrd := readsRun_parts_iff hr fun _ h => h
  rw [← ranges_eq] at hranges
  rw [Faithful, hrd]
  constructor
  · rintro ⟨mdres, clusters', next', parts', hrst, -, -, hl, hs⟩
    obtain ⟨-, hl', hlook⟩ := hresult mdres [] hrst
    -- the reader has queued exactly what was written
    have hparts : parts' = parts :=
      List.map_injective_iff.mpr (pack_injective zlib level) (hl.symm.trans hl')
    rw [hparts] at hs
    have heq := hranges.mp hs
    rw [heq] at hlook
    exact ⟨heq, hlook⟩
  · rintro ⟨heq, hlook⟩
    rw [← heq] at hlook
    obtain ⟨mdres, rest, hrst⟩ := hrestores hlook
    obtain ⟨rfl, hl, -⟩ := hresult mdres rest hrst
    exact ⟨mdres, clusters, next, parts, hrst, hstream, hl.trans hworks.symm, hl, hranges.mpr heq⟩

def storedZlib : Zlib where
  compress2 _ bytes := 0 :: bytes
  uncompress capacity bytes := if bytes.tail.length ≤ capacity then some bytes.tail else none
  uncompress_compress2 _ _ _ := rfl
  compress2_ne_nil _ _ := List.cons_ne_nil _ _
  length_compress2_le _ bytes := by
    rw [List.length_cons, compressBound]
    omega

/-- A device of zeros whose superblock can be read or not. -/
def zeroSource (readable : Bool) : Source where
  nodesize := 4096
  device _ := 0
  pread start size :=
    if readable then .all ((List.range size).map fun _ => 0) else .failed (List.replicate size 1)
  treeBlock _ := none
  dataAt _ := 0
  numCopies _ _ := 1
  readExtentData _ len _ := some len
  pread_all h := by
    cases readable with
    | true => exact (Pread.all.inj h).symm
    | false => cases h
  length_junk h := by
    cases readable with
    | true => cases h
    | false =>
      rw [← Pread.failed.inj h]
      exact List.length_replicate
  length_treeBlock h := nomatch h
  readExtentData_le h := (Option.some.inj h).ge

def superExtent : Extent := ⟨BTRFS_SUPER_INFO_OFFSET, 4096, false, by decide, by decide⟩

theorem runsOf_superExtent : runsOf [superExtent] = [[superExtent]] := rfl

theorem fits_superExtent (readable : Bool) : Fits (zeroSource readable) 0 [superExtent] := by
  intro run hmem
  rw [runsOf_superExtent, List.mem_singleton] at hmem
  subst hmem
  refine ⟨by decide, fun _ => ?_⟩
  cases readable with
  | true => exact Pread.noConfusion
  | false => exact Pread.noConfusion

theorem runContents_superExtent (readable : Bool) :
    runContents (zeroSource readable) [superExtent] = (List.range 4096).map fun _ => 0 := by
  rw [runContents, List.flatMap_singleton]
  rfl

theorem createMetadump_superExtent (readable : Bool) :
    ∃ md, createMetadump storedZlib (zeroSource readable) 0 8192 [superExtent] = .ok md := by
  have hok : (createMetadump storedZlib (zeroSource readable) 0 8192 [superExtent]).isOk = true := by
    cases readable with
    | true => decide +kernel
    | false => decide +kernel
  cases hc : createMetadump storedZlib (zeroSource readable) 0 8192 [superExtent] with
  | error stop =>
    rw [hc] at hok
    cases hok
  | ok md => exact ⟨md, rfl⟩

end Btrfs.Image
