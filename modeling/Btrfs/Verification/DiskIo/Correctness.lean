import Btrfs.Verification.DiskIo.Fallback
import Btrfs.Verification.Volumes.ExtentBuffers

/-! # Mirror fallback of tree blocks -/

namespace Btrfs.DiskIo

open Raid56 Volumes

/-! ## Tree blocks of a chunk -/

section

variable {info : FsInfo} {devs : Devices} {eb : Volumes.ExtentBuffer} {map : MapLookup}
  {profile : Profile}

/-- A mirror whose bytes are read along runs, as a whole or not at all. -/
theorem outcome_of_readsAll {m a : ℕ} {byte : ℕ → Option Byte}
    (h : ∀ data, ReadsAll byte a eb.len 0 data
      (readWholeEbLoop info.toFsInfo devs eb.start m eb.len 0 eb.len data)) :
    if ∀ k < eb.len, (byte (a + k)).isSome then
      Holds info devs eb m fun k => (byte (a + k)).getD 0
    else Unreadable info devs eb m := by
  split
  · rename_i hall
    intro data
    have hr := h data
    rw [ReadsAll, if_pos hall] at hr
    refine ⟨filled byte a eb.len 0 data, ?_, ?_⟩
    · simp [readWholeEb, hr]
    · intro k hk
      rw [filled, if_pos ⟨Nat.zero_le k, by omega⟩, Nat.sub_zero]
  · rename_i hall
    intro data
    have hr := h data
    rw [ReadsAll, if_neg hall] at hr
    obtain ⟨out, hout⟩ := hr
    refine ⟨-eio, out, ?_, by decide⟩
    simp [readWholeEb, hout]

theorem Holds.of_readsAll {m m' a : ℕ} {byte : ℕ → Option Byte}
    (h : ∀ data, ReadsAll byte a eb.len 0 data
      (readWholeEbLoop info.toFsInfo devs eb.start m eb.len 0 eb.len data))
    (h' : ∀ data, ReadsAll byte a eb.len 0 data
      (readWholeEbLoop info.toFsInfo devs eb.start m' eb.len 0 eb.len data)) {c : ℕ → Byte}
    (hholds : Holds info devs eb m c) : Holds info devs eb m' c := by
  have hm := outcome_of_readsAll h
  have hm' := outcome_of_readsAll h'
  split at hm
  · rename_i hall
    rw [if_pos hall] at hm'
    intro data
    obtain ⟨out, hout, hs⟩ := hm' data
    exact ⟨out, hout, hs.trans (hm.sameOn hholds)⟩
  · exact absurd hm hholds.not_unreadable

theorem ValidChunk.numCopies_eq (h : ValidChunk info.toFsInfo map profile)
    (hbound : map.ce.start + map.ce.size < 2 ^ 64) {a : ℕ} (ha : a < map.ce.size) :
    btrfsNumCopies info.mappingTree (map.ce.start + a) = profile.numCopies map.numStripes := by
  obtain ⟨before, after, hsearch⟩ := (h.tree.search_eq h.mem ha).1 hbound
  rw [btrfsNumCopies, hsearch]
  simp only [wrap64_of_lt hbound]
  rw [if_neg (by omega), h.accepted.copiesOf_eq]

theorem readPlace_of_one_copy (h : Accepted map profile)
    (hcopies : profile.numCopies map.numStripes = 1) (a : ℕ) :
    map.locate ((layout h).cell a).1 ((layout h).depth a) = readPlace map 1 (map.ce.start + a) := by
  have hplace : ((layout h).cell a).1 = profile.mirrorPlace map.numStripes ((layout h).row a)
      ((layout h).col a) 1 := by
    change profile.place map.numStripes ((layout h).row a) ((layout h).col a) = _
    cases profile with
    | single => rfl
    | raid0 => rfl
    | dup => rfl
    | raid1 =>
      have hone : map.numStripes = 1 := hcopies
      rw [hone]
      exact Nat.mod_one _
    | raid10 => cases hcopies
    | raid5 => cases hcopies
    | raid6 => cases hcopies
  rw [h.readPlace_eq Nat.one_pos, hplace]

theorem readings_of_chunk (h : ValidChunk info.toFsInfo map profile)
    (hlow : map.ce.start ≤ eb.start) (hlen : 0 < eb.len)
    (hhigh : eb.start + eb.len ≤ map.ce.start + map.ce.size)
    (hdev : info.unmapped eb.start = true → (info.firstDevice devs).isSome) :
    Readings info devs eb := by
  obtain ⟨a, ha⟩ := Nat.exists_eq_add_of_le hlow
  cases hunmapped : info.unmapped eb.start with
  | true =>
    obtain ⟨d, hd⟩ := Option.isSome_iff_exists.mp (hdev hunmapped)
    have hr : ∀ m data, ReadsAll (fun y => byteAt devs (d, y)) eb.start eb.len 0 data
        (readWholeEbLoop info.toFsInfo devs eb.start m eb.len 0 eb.len data) :=
      fun m data => readWholeEbLoop_unmapped hunmapped hd data
    refine ⟨?_, fun _ c hholds => hholds.of_readsAll (hr 1) (hr 0)⟩
    intro m _
    have hm := outcome_of_readsAll (hr m)
    split at hm
    · exact .inl ⟨_, hm⟩
    · exact .inr hm
  | false =>
    by_cases hbound : map.ce.start + map.ce.size < 2 ^ 64
    · have hin := (h.stored hbound).toInTree
      have hcopies := ValidChunk.numCopies_eq h hbound (by omega : a < map.ce.size)
      rw [← ha] at hcopies
      have hst : eb.start + 0 = map.ce.start + a := ha
      have hz : ∀ data, ReadsAll (fun x => byteAt devs (map.locate
          ((layout hin.toAccepted).cell x).1 ((layout hin.toAccepted).depth x))) a eb.len 0 data
          (readWholeEbLoop info.toFsInfo devs eb.start 0 eb.len 0 eb.len data) :=
        fun data => hin.mirrorRuns.readWholeEbLoop_spec hunmapped hst (by omega) le_rfl data
      have hmo : ∀ m, 0 < m → m ≤ profile.numCopies map.numStripes → ∀ data,
          ReadsAll (fun x => byteAt devs (readPlace map m (map.ce.start + x))) a eb.len 0 data
            (readWholeEbLoop info.toFsInfo devs eb.start m eb.len 0 eb.len data) :=
        fun m hm hle data => (hin.mirrorRuns_of_le hm hle).readWholeEbLoop_spec hunmapped hst
          (by omega) le_rfl data
      constructor
      · intro m hm
        rw [hcopies] at hm
        rcases Nat.eq_zero_or_pos m with rfl | hpos
        · have hout := outcome_of_readsAll hz
          split at hout
          · exact .inl ⟨_, hout⟩
          · exact .inr hout
        · have hout := outcome_of_readsAll (hmo m hpos hm)
          split at hout
          · exact .inl ⟨_, hout⟩
          · exact .inr hout
      · intro hone c hholds
        rw [hcopies] at hone
        have hs : (fun x => byteAt devs (map.locate ((layout hin.toAccepted).cell x).1
            ((layout hin.toAccepted).depth x))) =
            fun x => byteAt devs (readPlace map 1 (map.ce.start + x)) := by
          funext x
          rw [readPlace_of_one_copy hin.toAccepted hone x]
        rw [hs] at hz
        exact hholds.of_readsAll (hmo 1 Nat.one_pos hone.ge) hz
    · -- such a chunk is never found
      have hunreadable : ∀ m, Unreadable info devs eb m := by
        intro m data
        have hmap := h.tree.mapBlock_eq h.mem (by omega : a < map.ce.size) .read m false
        rw [if_neg hbound, ← ha] at hmap
        obtain ⟨n, hn⟩ := Nat.exists_eq_succ_of_ne_zero hlen.ne'
        refine ⟨-eio, data, ?_, by decide⟩
        simp [readWholeEb, hn, readWholeEbLoop, wholeEbSource, hunmapped, hmap]
      exact ⟨fun m _ => .inr (hunreadable m),
        fun _ c hholds => absurd (hunreadable 1) hholds.not_unreadable⟩

end

section

variable {info : FsInfo} {devs : Devices} {eb : Volumes.ExtentBuffer}

theorem holds_of_mapBlock {m length : ℕ} {stripe : BioStripe} {rest : List BioStripe}
    {raidMap : Option (List ℕ)} (hunmapped : info.unmapped eb.start = false)
    (hmap : btrfsMapBlock info.mappingTree .read eb.start m false =
      .ok (.ok ⟨length, stripe :: rest, raidMap⟩))
    (hfd : 0 < (devs stripe.dev).fd) (hpos : 0 < eb.len) (hlen : eb.len ≤ length)
    (hs : stripe.physical + eb.len ≤ (devs stripe.dev).size) :
    Holds info devs eb m fun k => (devs stripe.dev).data (stripe.physical + k) := by
  intro data
  obtain ⟨n, hn⟩ := Nat.exists_eq_succ_of_ne_zero hpos.ne'
  have hmoved : (devs stripe.dev).moved eb.len stripe.physical = eb.len := by
    rw [Device.moved, if_neg (by omega), Nat.min_eq_left (by omega)]
  have hr : readExtentFromDisk (devs stripe.dev) data 0 eb.len stripe.physical =
      (0, copyBytes data 0 (devs stripe.dev).data stripe.physical eb.len) := by
    simp only [readExtentFromDisk, pread, hmoved, Int.toNat_natCast]
    simp
  have hsrc : wholeEbSource info.toFsInfo devs eb.start m 0 eb.len =
      .ok (some (devs stripe.dev, stripe.physical, length)) := by
    simp only [wholeEbSource, hunmapped, Bool.false_eq_true, if_false, Nat.add_zero, hmap]
    rw [if_neg (by omega)]
  have hmin : (if eb.len < length then eb.len else length) = eb.len := by split <;> omega
  refine ⟨copyBytes data 0 (devs stripe.dev).data stripe.physical eb.len, ?_, ?_⟩
  · simp only [readWholeEb]
    rw [hn, readWholeEbLoop, ← hn, if_neg hpos.ne']
    simp only [hsrc, hmin, hr, Nat.sub_self]
    cases n <;> rfl
  · intro k hk
    rw [copyBytes, if_pos ⟨Nat.zero_le k, by omega⟩, Nat.sub_zero]

theorem Holds.generation_attempted {m : ℕ} {c : ℕ → Byte} (hlen : Ctree.headerSize ≤ eb.len)
    (h : Holds info devs eb m c) :
    headerGeneration (attempted info devs eb m) = headerGeneration c := by
  obtain ⟨out, hout, hs⟩ := h (beforeMirror info devs eb m)
  rw [← attempt_beforeMirror]
  simp only [attempt, hout]
  exact hs.generation_eq hlen

theorem bestHeader_two {generation : ℕ → ℕ} (hpos : 0 < generation 2) :
    BestHeader generation 2 (if generation 1 < generation 2 then 2 else 1) := by
  right
  split
  · rename_i hlt
    refine ⟨by decide, le_rfl, hpos, ?_, ?_⟩
    · intro k hk hk'
      obtain rfl : k = 1 := by omega
      exact hlt
    · intro k hk hk'
      interval_cases k
      · exact hlt.le
      · exact le_rfl
  · refine ⟨le_rfl, by decide, by omega, fun k hk hk' => absurd hk (by omega), ?_⟩
    intro k hk hk'
    interval_cases k
    · exact le_rfl
    · omega

end

def raid1Chunk : Chunk where
  length := 131072
  stripeLen := 65536
  type := BTRFS_BLOCK_GROUP_METADATA ||| BTRFS_BLOCK_GROUP_RAID1
  sectorSize := 4096
  subStripes := 1
  stripes := [⟨1, 1048576⟩, ⟨2, 1048576⟩]

def raid1Map : MapLookup := mapOfChunk id 1048576 raid1Chunk

def raid1Info : FsInfo where
  mappingTree := [raid1Map]
  nodesize := 4096
  onRestoring := false
  fsDevices := [1, 2]
  sectorsize := 4096
  ignoreFsidMismatch := false
  fsids := [List.replicate 16 0]

theorem raid1Map_valid : ValidChunk raid1Info.toFsInfo raid1Map .raid1 :=
  validChunk_alone rfl (rfl : _ = mapOfChunk id _ raid1Chunk) (by decide) (by decide) (by decide)
    (by decide) (by decide)

def firstBlock : TreeBuffer where
  start := 1048576
  len := 4096
  data := fun _ => 0
  uptodate := false
  badTransid := false

/-- An empty leaf of generation 5, without a checksum. -/
def leafBody (k : ℕ) : Byte := if k = 50 then 16 else if k = 80 then 5 else 0

def leafBlock : ℕ → Byte := writeCsum leafBody 4096

theorem leafBlock_passes : Passes raid1Info firstBlock.toExtentBuffer leafBlock := by
  constructor
  · exact beq_iff_eq.mpr (blockCsum_writeCsum 4096)
  · decide +kernel

/-- The first device has the same byte everywhere, the second one the leaf. -/
def copiesWith (byte : Byte) : Devices := fun d =>
  ⟨d, 3, 2097152, fun k => if d = 2 then leafBlock (k - 1048576) else byte⟩

theorem copiesWith_holds (byte : Byte) :
    Holds raid1Info (copiesWith byte) firstBlock.toExtentBuffer 0 (fun _ => byte) ∧
      Holds raid1Info (copiesWith byte) firstBlock.toExtentBuffer 1 (fun _ => byte) ∧
      Holds raid1Info (copiesWith byte) firstBlock.toExtentBuffer 2 leafBlock := by
  refine ⟨?_, ?_, ?_⟩
  · exact @holds_of_mapBlock _ (copiesWith byte) _ 0 65536 ⟨1, 1048576⟩ [] none rfl (by decide)
      (by decide : (0 : ℤ) < 3) (by decide) (by decide) (by decide : 1048576 + 4096 ≤ 2097152)
  · exact @holds_of_mapBlock _ (copiesWith byte) _ 1 65536 ⟨1, 1048576⟩ [] none rfl (by decide)
      (by decide : (0 : ℤ) < 3) (by decide) (by decide) (by decide : 1048576 + 4096 ≤ 2097152)
  · have hsecond := @holds_of_mapBlock raid1Info (copiesWith byte) firstBlock.toExtentBuffer 2 65536
      ⟨2, 1048576⟩ [] none rfl (by decide) (by decide : (0 : ℤ) < 3) (by decide) (by decide)
      (by decide : 1048576 + 4096 ≤ 2097152)
    have hd : (fun k => ((copiesWith byte) 2).data (1048576 + k)) = leafBlock := by
      simp [copiesWith]
    rwa [← hd]

theorem copiesWith_best (byte : Byte) : BestHeader (fun m => headerGeneration
      (attempted raid1Info (copiesWith byte) firstBlock.toExtentBuffer m)) 2
      (if headerGeneration (fun _ => byte) < 5 then 2 else 1) := by
  obtain ⟨-, hfirst, hsecond⟩ := copiesWith_holds byte
  have hlen : Ctree.headerSize ≤ firstBlock.len := by decide
  have hb := @bestHeader_two (fun m => headerGeneration
    (attempted raid1Info (copiesWith byte) firstBlock.toExtentBuffer m))
  simp only [hfirst.generation_attempted hlen, hsecond.generation_attempted hlen] at hb
  exact hb (by decide)

end Btrfs.DiskIo
