import Btrfs.Model.Basic
import Btrfs.Model.Bytes

/-! # The container of a metadump (`image/main.c`, `image/metadump.h`) -/

namespace Btrfs.Image

abbrev Bytes := List (BitVec 8)

def HEADER_MAGIC : ℕ := 0xbd5c25e27295668b

def MAX_PENDING_SIZE : ℕ := 256 * 1024

def BLOCK_SIZE : ℕ := 1024

/-- `sizeof(struct meta_cluster)`: the header. -/
def metaClusterSize : ℕ := 21

/-- `sizeof(struct meta_cluster_item)`. -/
def metaClusterItemSize : ℕ := 12

def ITEMS_PER_CLUSTER : ℕ := (BLOCK_SIZE - metaClusterSize) / metaClusterItemSize

def COMPRESS_NONE : ℕ := 0

def COMPRESS_ZLIB : ℕ := 1

/-- Why a call does not go on: it returned an error, or did not return. -/
inductive Stop where
  | failed (ret : ℤ)
  | fault (fault : Fault)
deriving DecidableEq, Repr

abbrev Step (α : Type) := Except Stop α

/-! ## What is around the container -/

/-- `compressBound` of zlib. -/
def compressBound (n : ℕ) : ℕ := n + n / 2 ^ 12 + n / 2 ^ 14 + n / 2 ^ 25 + 13

/-- The two functions of zlib that are called, and what they promise. -/
structure Zlib where
  compress2 : ℕ → Bytes → Bytes
  uncompress : ℕ → Bytes → Option Bytes
  uncompress_compress2 : ∀ capacity level bytes, uncompress capacity (compress2 level bytes) =
    if bytes.length ≤ capacity then some bytes else none
  compress2_ne_nil : ∀ level bytes, compress2 level bytes ≠ []
  length_compress2_le : ∀ level bytes, (compress2 level bytes).length ≤ compressBound bytes.length

/-- What `pread64` does: it fills the buffer, returns less (`errno` is not set then), or returns
`-1` with junk in the buffer. -/
inductive Pread where
  | all (bytes : Bytes)
  | short (errno : ℕ)
  | failed (junk : Bytes)

/-- The file system that is dumped. -/
structure Source where
  nodesize : ℕ
  /-- The bytes of the first device. -/
  device : ℕ → BitVec 8
  /-- `pread64` on it. -/
  pread : ℕ → ℕ → Pread
  /-- What `copy_buffer` makes of the block that `read_tree_block` finds. -/
  treeBlock : ℕ → Option Bytes
  /-- The data at a logical address. -/
  dataAt : ℕ → BitVec 8
  numCopies : ℕ → ℕ → ℕ
  /-- The length that `read_extent_data` reads. -/
  readExtentData : ℕ → ℕ → ℕ → Option ℕ
  pread_all : ∀ {start size : ℕ} {bytes : Bytes}, pread start size = .all bytes →
    bytes = (List.range size).map fun i => device (wrap64 (start + i))
  length_junk : ∀ {start size : ℕ} {junk : Bytes}, pread start size = .failed junk →
    junk.length = size
  length_treeBlock : ∀ {start : ℕ} {bytes : Bytes}, treeBlock start = some bytes →
    bytes.length = nodesize
  readExtentData_le : ∀ {logical len mirror n : ℕ}, readExtentData logical len mirror = some n →
    n ≤ len

/-- The file that is written. -/
structure File where
  written : Bytes
  room : ℕ

/-- `fwrite(bytes, size, 1, out)`. -/
def fwrite (out : File) (bytes : Bytes) : Step File :=
  if bytes = [] ∨ out.room < bytes.length then .error (.failed (-ENOSPC))
  else .ok ⟨out.written ++ bytes, out.room - bytes.length⟩

/-- `fread(buffer, size, 1, in)` with what is left of the input. -/
def fread (input : Bytes) (size : ℕ) : Option (Bytes × Bytes) :=
  if size = 0 ∨ input.length < size then none else some (input.take size, input.drop size)

/-! ## Writing -/

/-- `struct async_work`; `bufsize` is the length of the buffer. -/
structure AsyncWork where
  start : ℕ
  buffer : Bytes
deriving DecidableEq, Repr

structure Metadump where
  out : File
  cluster : Bytes
  ordered : List AsyncWork
  numItems : ℕ
  pendingStart : ℕ
  pendingSize : ℕ
  data : Bool

/-- The number in a field of a cluster block. -/
def clusterField (cluster : Bytes) (offset len : ℕ) : ℕ := leNat ((cluster.drop offset).take len)

/-- A `struct meta_cluster_header`. -/
def headerBytes (bytenr nritems compress : ℕ) : Bytes :=
  leBytes 8 HEADER_MAGIC ++ (leBytes 8 bytenr ++ (leBytes 4 nritems ++ leBytes 1 compress))

/-- A `struct meta_cluster_item`. -/
def itemBytes (async : AsyncWork) : Bytes := leBytes 8 async.start ++ leBytes 4 async.buffer.length

def compressMethod (level : ℕ) : ℕ := if 0 < level then COMPRESS_ZLIB else COMPRESS_NONE

def metaClusterInit (level : ℕ) (md : Metadump) (start : ℕ) : Metadump :=
  { md with numItems := 0, cluster := memcpy md.cluster 0 (headerBytes start 0 (compressMethod level)) }

def metadumpInit (level : ℕ) (room : ℕ) : Metadump :=
  metaClusterInit level
    { out := ⟨[], room⟩
      cluster := List.replicate BLOCK_SIZE 0
      ordered := []
      numItems := 0
      pendingStart := u64Max
      pendingSize := 0
      data := false } 0

/-- The loop that sets up the index block. -/
def setItems (cluster : Bytes) : ℕ → List AsyncWork → Bytes
  | _, [] => cluster
  | nritems, async :: ordered =>
    setItems (memcpy cluster (metaClusterSize + metaClusterItemSize * nritems) (itemBytes async))
      (nritems + 1) ordered

/-- The loop that writes the buffers, with the position behind them. -/
def writeOrdered (out : File) (bytenr : ℕ) : List AsyncWork → Step (File × ℕ)
  | [] => .ok (out, bytenr)
  | async :: ordered => do
      let out ← fwrite out async.buffer
      writeOrdered out (wrap64 (bytenr + async.buffer.length)) ordered

/-- `write_buffers`, with `*next`. The workers have compressed all buffers before. -/
def writeBuffers (md : Metadump) : Step (Metadump × ℕ) :=
  if md.ordered = [] then .ok (md, 0)
  else do
    let cluster := setItems md.cluster 0 md.ordered
    let cluster := memcpy cluster 16 (leBytes 4 md.ordered.length)
    let out ← fwrite md.out cluster
    let bytenr := wrap64 (clusterField cluster 8 8 + BLOCK_SIZE)
    let (out, bytenr) ← writeOrdered out bytenr md.ordered
    let md := { md with cluster := cluster, ordered := [] }
    if bytenr % BLOCK_SIZE ≠ 0 then
      let size := BLOCK_SIZE - bytenr % BLOCK_SIZE
      let out ← fwrite out (List.replicate size 0)
      return ({ md with out := out }, wrap64 (bytenr + size))
    else return ({ md with out := out }, bytenr)

/-- The inner loop of `read_data_extent`, with `bytes_left`. -/
def readMirror (src : Source) (mirror : ℕ) : ℕ → ℕ → ℕ → Step ℕ
  | 0, _, _ => .error (.fault .outOfRounds)
  | rounds + 1, logical, bytesLeft =>
    if bytesLeft = 0 then .ok 0
    else
      match src.readExtentData logical bytesLeft mirror with
      | none => .ok bytesLeft
      | some readLen => readMirror src mirror rounds (wrap64 (logical + readLen)) (bytesLeft - readLen)

/-- `read_data_extent` with the mirrors that are left. -/
def readMirrors (src : Source) (start size : ℕ) : List ℕ → ℕ → Step ℕ
  | [], bytesLeft => .ok bytesLeft
  | mirror :: mirrors, bytesLeft => do
      let bytesLeft ← readMirror src mirror (bytesLeft + 1) (wrap64 (start + (size - bytesLeft)))
        bytesLeft
      readMirrors src start size mirrors bytesLeft

def readDataExtent (src : Source) (start size : ℕ) : Step Bytes := do
  let bytesLeft ← readMirrors src start size (List.range' 1 (src.numCopies start size)) size
  if bytesLeft ≠ 0 then .error (.failed (-eio))
  else return (List.range size).map fun i => src.dataAt (wrap64 (start + i))

/-- The loop of `flush_pending` over the tree blocks. A block that does not fit into the buffer
is written behind it. -/
def readTreeBlocks (src : Source) : ℕ → ℕ → ℕ → Step Bytes
  | 0, _, _ => .error (.fault .outOfRounds)
  | rounds + 1, start, size =>
    if size = 0 then .ok []
    else
      match src.treeBlock start with
      | none => .error (.failed (-eio))
      | some block =>
        if size < block.length then .error (.fault .bug)
        else do
          let thisRead := min src.nodesize size
          let rest ← readTreeBlocks src rounds (wrap64 (start + thisRead)) (size - thisRead)
          return block ++ rest

/-- What `flush_pending` reads for data; other buffers are filled later. -/
def readData (src : Source) (start size : ℕ) (data : Bool) : Step Bytes :=
  if data then readDataExtent src start size else .ok []

/-- The buffer that `flush_pending` fills; `none` is a return of `0` without one. -/
def readPending (src : Source) (start size : ℕ) (data : Bool) : Step (Option Bytes) := do
  let buffer ← readData src start size data
  if start = BTRFS_SUPER_INFO_OFFSET then
    match src.pread start size with
    | .all bytes => return some bytes
    -- `ret < size` compares as unsigned, so an error passes
    | .failed junk => return some junk
    | .short errno => if errno = 0 then return none else .error (.failed (-errno))
  else if data then return some buffer
  else return some (← readTreeBlocks src (size + 1) start size)

def dumpWorker (zlib : Zlib) (level : ℕ) (buffer : Bytes) : Bytes :=
  if 0 < level then zlib.compress2 level buffer else buffer

/-- The end of `flush_pending`. -/
def flushOrdered (level : ℕ) (md : Metadump) (done : Bool) : Step Metadump :=
  if ITEMS_PER_CLUSTER ≤ md.numItems ∨ done then do
    let (md, start) ← writeBuffers md
    return metaClusterInit level md start
  else .ok md

def flushPending (zlib : Zlib) (src : Source) (level : ℕ) (md : Metadump) (done : Bool) :
    Step Metadump :=
  if md.pendingSize ≠ 0 then do
    match ← readPending src md.pendingStart md.pendingSize md.data with
    | none => return md
    | some buffer =>
      let async := ⟨md.pendingStart, dumpWorker zlib level buffer⟩
      flushOrdered level
        { md with
          pendingStart := u64Max
          pendingSize := 0
          ordered := md.ordered ++ [async]
          numItems := md.numItems + 1 } done
  else if !done then .ok md
  else flushOrdered level md done

/-- The arguments of `add_extent`. -/
structure Extent where
  start : ℕ
  size : ℕ
  data : Bool
  start_lt : start < 2 ^ 64
  size_lt : size < 2 ^ 64

/-- The extent is put behind the pending ones. -/
def Merges (md : Metadump) (extent : Extent) : Prop :=
  md.data = extent.data ∧ wrap64 (md.pendingSize + extent.size) ≤ MAX_PENDING_SIZE ∧
    wrap64 (md.pendingStart + md.pendingSize) = extent.start

instance (md : Metadump) (extent : Extent) : Decidable (Merges md extent) :=
  inferInstanceAs (Decidable (_ ∧ _ ∧ _))

/-- What is pending is flushed when the extent does not go behind it. -/
def makeRoom (zlib : Zlib) (src : Source) (level : ℕ) (md : Metadump) (extent : Extent) :
    Step Metadump :=
  if Merges md extent then .ok md
  else do
    let md ← flushPending zlib src level md false
    return { md with pendingStart := extent.start }

def addExtent (zlib : Zlib) (src : Source) (level : ℕ) (md : Metadump) (extent : Extent) :
    Step Metadump := do
  let md ← makeRoom zlib src level md extent
  return { md with pendingSize := wrap64 (md.pendingSize + extent.size), data := extent.data }

def addExtents (zlib : Zlib) (src : Source) (level : ℕ) (md : Metadump) : List Extent → Step Metadump
  | [] => .ok md
  | extent :: extents => do
      let md ← addExtent zlib src level md extent
      addExtents zlib src level md extents

/-- The calls of `create_metadump` that write the image. -/
def createMetadump (zlib : Zlib) (src : Source) (level room : ℕ) (extents : List Extent) :
    Step Metadump := do
  let md ← addExtents zlib src level (metadumpInit level room) extents
  flushPending zlib src level md true

/-! ## Reading -/

/-- What is taken from the superblock. -/
structure SuperInfo where
  nodesize : ℕ
  fsid : Bytes
  uuid : Bytes
  devid : ℕ

structure Mdrestore where
  list : List AsyncWork
  numItems : ℕ
  compressMethod : ℕ
  info : SuperInfo

def mdrestoreInit : Mdrestore := ⟨[], 0, 0, ⟨0, List.replicate 16 0, List.replicate 16 0, 0⟩⟩

/-- Where the fields of a superblock end that `fill_mdres_info` reads. -/
def superFieldsEnd : ℕ := 283

/-- `outbuf` of `fill_mdres_info`. -/
def superBuffer (zlib : Zlib) (method : ℕ) (buffer : Bytes) : Step Bytes :=
  if method = COMPRESS_ZLIB then
    match zlib.uncompress (MAX_PENDING_SIZE * 2) buffer with
    | none => .error (.failed (-eio))
    | some outbuf => .ok outbuf
  else .ok buffer

/-- What `fill_mdres_info` takes from a superblock. -/
def superInfo (outbuf : Bytes) : SuperInfo where
  nodesize := leNat ((outbuf.drop 148).take 4)
  fsid := (outbuf.drop 32).take 16
  uuid := (outbuf.drop 267).take 16
  devid := leNat ((outbuf.drop 201).take 8)

/-- `fill_mdres_info`. A buffer that is too short is read behind its end. -/
def fillMdresInfo (zlib : Zlib) (mdres : Mdrestore) (async : AsyncWork) : Step Mdrestore :=
  if mdres.info.nodesize ≠ 0 then .ok mdres
  else do
    let outbuf ← superBuffer zlib mdres.compressMethod async.buffer
    if outbuf.length < superFieldsEnd then .error (.fault .bug)
    else return { mdres with info := superInfo outbuf }

/-- The work of a superblock is looked into before it is queued. -/
def lookInto (zlib : Zlib) (mdres : Mdrestore) (async : AsyncWork) : Step Mdrestore :=
  if async.start = BTRFS_SUPER_INFO_OFFSET then fillMdresInfo zlib mdres async else .ok mdres

def enqueue (zlib : Zlib) (mdres : Mdrestore) (async : AsyncWork) : Step Mdrestore := do
  let mdres ← lookInto zlib mdres async
  return { mdres with list := mdres.list ++ [async], numItems := mdres.numItems + 1 }

/-- The loop of `add_cluster` from the item `i` on, with the input that is left and `bytenr`. -/
def addItems (zlib : Zlib) (cluster : Bytes) : ℕ → ℕ → Mdrestore → Bytes → ℕ →
    Step (Mdrestore × Bytes × ℕ)
  | 0, _, mdres, input, bytenr => .ok (mdres, input, bytenr)
  | n + 1, i, mdres, input, bytenr =>
    let item := metaClusterSize + metaClusterItemSize * i
    if BLOCK_SIZE < item + metaClusterItemSize then .error (.fault .bug)
    else
      match fread input (clusterField cluster (item + 8) 4) with
      | none => .error (.failed (-eio))
      | some (buffer, input) => do
          let async : AsyncWork := ⟨clusterField cluster item 8, buffer⟩
          let mdres ← enqueue zlib mdres async
          addItems zlib cluster n (i + 1) mdres input (wrap64 (bytenr + buffer.length))

/-- `add_cluster`, with the input that is left and `*next`. -/
def addCluster (zlib : Zlib) (cluster : Bytes) (mdres : Mdrestore) (input : Bytes) :
    Step (Mdrestore × Bytes × ℕ) := do
  let mdres := { mdres with compressMethod := clusterField cluster 20 1 }
  let bytenr := wrap64 (clusterField cluster 8 8 + BLOCK_SIZE)
  let (mdres, input, bytenr) ←
    addItems zlib cluster (clusterField cluster 16 4) 0 mdres input bytenr
  if bytenr % BLOCK_SIZE ≠ 0 then
    let size := BLOCK_SIZE - bytenr % BLOCK_SIZE
    match fread input size with
    | none => .error (.failed (-eio))
    | some (_, input) => return (mdres, input, wrap64 (bytenr + size))
  else return (mdres, input, bytenr)

/-- The loop of `restore_metadump` that reads the clusters, with the input that is left. The
workers report no error. -/
def restoreLoop (zlib : Zlib) : ℕ → Bytes → ℕ → Mdrestore → Step (Mdrestore × Bytes)
  | 0, _, _, _ => .error (.fault .outOfRounds)
  | rounds + 1, input, bytenr, mdres =>
    match fread input BLOCK_SIZE with
    | none => .ok (mdres, input)
    | some (cluster, input) =>
      if clusterField cluster 0 8 ≠ HEADER_MAGIC ∨ clusterField cluster 8 8 ≠ bytenr then
        .error (.failed (-eio))
      else do
        let (mdres, input, bytenr) ← addCluster zlib cluster mdres input
        restoreLoop zlib rounds input bytenr mdres

/-- The reading of `restore_metadump`. -/
def restoreMetadump (zlib : Zlib) (input : Bytes) : Step (Mdrestore × Bytes) :=
  restoreLoop zlib (input.length + 1) input 0 mdrestoreInit

end Btrfs.Image
