import Btrfs.Model.Bytes
import Btrfs.Model.Crc32c

/-! # Reading send streams (`send-stream.c`, `send.h`) -/

namespace Btrfs.SendStream

open Raid56 Crc32c

def ENODATA : ℤ := 61

def BTRFS_SEND_STREAM_VERSION : ℕ := 1
def BTRFS_SEND_BUF_SIZE : ℕ := 65536
def BTRFS_UUID_SIZE : ℕ := 16

/-- `BTRFS_SEND_STREAM_MAGIC`, the text `btrfs-stream` with its end. -/
def BTRFS_SEND_STREAM_MAGIC : List Byte :=
  [0x62, 0x74, 0x72, 0x66, 0x73, 0x2d, 0x73, 0x74, 0x72, 0x65, 0x61, 0x6d, 0]

/-- `sizeof(struct btrfs_stream_header)`. -/
def streamHeaderSize : ℕ := 17

/-- `sizeof(struct btrfs_cmd_header)`. -/
def cmdHeaderSize : ℕ := 10

/-- `sizeof(struct btrfs_tlv_header)`. -/
def tlvHeaderSize : ℕ := 4

/-- `enum btrfs_send_cmd`. -/
inductive SendCmd where
  | unspec
  | subvol
  | snapshot
  | mkfile
  | mkdir
  | mknod
  | mkfifo
  | mksock
  | symlink
  | rename
  | link
  | unlink
  | rmdir
  | setXattr
  | removeXattr
  | write
  | clone
  | truncate
  | chmod
  | chown
  | utimes
  | done
  | updateExtent
deriving DecidableEq, Repr

/-- The commands in the order of their numbers. -/
def sendCmds : List SendCmd :=
  [.unspec, .subvol, .snapshot, .mkfile, .mkdir, .mknod, .mkfifo, .mksock, .symlink, .rename, .link,
    .unlink, .rmdir, .setXattr, .removeXattr, .write, .clone, .truncate, .chmod, .chown, .utimes,
    .done, .updateExtent]

def SendCmd.code (cmd : SendCmd) : ℕ := sendCmds.idxOf cmd

/-- The attributes of a send stream. -/
inductive SendAttr where
  | unspec
  | uuid
  | ctransid
  | ino
  | size
  | mode
  | uid
  | gid
  | rdev
  | ctime
  | mtime
  | atime
  | otime
  | xattrName
  | xattrData
  | path
  | pathTo
  | pathLink
  | fileOffset
  | data
  | cloneUuid
  | cloneCtransid
  | clonePath
  | cloneOffset
  | cloneLen
deriving DecidableEq, Repr

/-- The attributes in the order of their numbers. -/
def sendAttrs : List SendAttr :=
  [.unspec, .uuid, .ctransid, .ino, .size, .mode, .uid, .gid, .rdev, .ctime, .mtime, .atime, .otime,
    .xattrName, .xattrData, .path, .pathTo, .pathLink, .fileOffset, .data, .cloneUuid,
    .cloneCtransid, .clonePath, .cloneOffset, .cloneLen]

def SendAttr.code (attr : SendAttr) : ℕ := sendAttrs.idxOf attr

def BTRFS_SEND_A_MAX : ℕ := 24

/-! ## Callbacks -/

/-- A string: its bytes, without the end. -/
def CString : Type := { bytes : List Byte // 0 ∉ bytes }

/-- The string that starts a sequence of bytes. -/
def cstring (bytes : List Byte) : CString :=
  ⟨bytes.takeWhile (· ≠ 0), fun h => by simpa using List.mem_takeWhile_imp h⟩

def Uuid : Type := { bytes : List Byte // bytes.length = BTRFS_UUID_SIZE }

instance : DecidableEq CString := inferInstanceAs (DecidableEq { bytes : List Byte // 0 ∉ bytes })

instance : DecidableEq Uuid :=
  inferInstanceAs (DecidableEq { bytes : List Byte // bytes.length = BTRFS_UUID_SIZE })

/-- `struct timespec`: the conversions from the stream keep all bits. -/
structure Timespec where
  sec : BitVec 64
  nsec : BitVec 32
deriving DecidableEq

/-- A call of one of the `struct btrfs_send_ops`; data stands with its length. -/
inductive SendOp where
  | subvol (path : CString) (uuid : Uuid) (ctransid : BitVec 64)
  | snapshot (path : CString) (uuid : Uuid) (ctransid : BitVec 64) (parentUuid : Uuid)
      (parentCtransid : BitVec 64)
  | mkfile (path : CString)
  | mkdir (path : CString)
  | mknod (path : CString) (mode dev : BitVec 64)
  | mkfifo (path : CString)
  | mksock (path : CString)
  | symlink (path lnk : CString)
  | rename (source target : CString)
  | link (path lnk : CString)
  | unlink (path : CString)
  | rmdir (path : CString)
  | write (path : CString) (data : List Byte) (offset : BitVec 64)
  | clone (path : CString) (offset len : BitVec 64) (cloneUuid : Uuid) (cloneCtransid : BitVec 64)
      (clonePath : CString) (cloneOffset : BitVec 64)
  | setXattr (path name : CString) (data : List Byte)
  | removeXattr (path name : CString)
  | truncate (path : CString) (size : BitVec 64)
  | chmod (path : CString) (mode : BitVec 64)
  | chown (path : CString) (uid gid : BitVec 64)
  | utimes (path : CString) (at_ mt ct : Timespec)
  | updateExtent (path : CString) (offset len : BitVec 64)
deriving DecidableEq

/-! ## The stream -/

/-- What `read` does in each state of the file behind a descriptor: it returns at most as many bytes
as are asked for, none at the end of the file, or fails with an `errno`. -/
structure Input (σ : Type) where
  read : σ → ℕ → Except ℕ (List Byte) × σ
  length_le : ∀ {fd len bytes}, (read fd len).1 = .ok bytes → bytes.length ≤ len
  errno_pos : ∀ {fd len errno}, (read fd len).1 = .error errno → 0 < errno

/-- A file descriptor: what has not been read, and how often it was read. -/
structure Fd where
  rest : List Byte
  turn : ℕ

/-- `read` returns between one and `len` bytes, as long as there are any; `chunk` says how many. -/
def readFd (chunk : ℕ → ℕ) : Input Fd where
  read fd len :=
    let n := min len (max 1 (chunk fd.turn))
    (.ok (fd.rest.take n), ⟨fd.rest.drop n, fd.turn + 1⟩)
  length_le := by
    rintro fd len bytes ⟨⟩
    rw [List.length_take]
    omega
  errno_pos := by
    rintro fd len errno ⟨⟩

/-- `struct btrfs_send_stream`; an entry of `cmd_attrs` is an offset into `read_buf`. -/
structure Stream (σ : Type) where
  fd : σ
  readBuf : ℕ → Byte
  cmd : ℕ
  cmdAttrs : ℕ → Option ℕ
  version : ℕ
  streamPos : ℕ

/-- Bytes of a buffer. -/
def load (buf : ℕ → Byte) (offset len : ℕ) : List Byte :=
  (List.range len).map fun i => buf (offset + i)

/-- A buffer with bytes written into it. -/
def store (buf : ℕ → Byte) (offset : ℕ) (bytes : List Byte) : ℕ → Byte := fun i =>
  if offset ≤ i then (bytes[i - offset]?).getD (buf i) else buf i

variable {σ : Type}

/-- The loop of `read_buf`: the return value and the bytes that were read. -/
def readBufLoop (input : Input σ) (len : ℕ) : ℕ → σ → List Byte → Call (ℤ × List Byte × σ)
  | 0, _, _ => .error .outOfRounds
  | n + 1, fd, got =>
    if got.length < len then
      match input.read fd (len - got.length) with
      | (.error errno, fd) => .ok (-errno, got, fd)
      | (.ok bytes, fd) =>
        if bytes.isEmpty then .ok (1, got, fd)
        else readBufLoop input len n fd (got ++ bytes)
    else .ok (0, got, fd)

/-- `read_buf`, with the bytes for `buf`. -/
def readBuf (input : Input σ) (sctx : Stream σ) (len : ℕ) :
    Call (ℤ × List Byte × Stream σ) := do
  let (ret, bytes, fd) ← readBufLoop input len (len + 1) sctx.fd []
  if ret < 0 then return (ret, bytes, { sctx with fd := fd })
  else if 0 < bytes.length ∧ bytes.length < len then return (-eio, bytes, { sctx with fd := fd })
  else return (ret, bytes, { sctx with fd := fd, streamPos := sctx.streamPos + bytes.length })

/-- The loop of `read_cmd` over the attributes. -/
def tlvLoop (cmdLen : ℕ) : ℕ → ℕ → Stream σ → Call (ℤ × Stream σ)
  | 0, _, _ => .error .outOfRounds
  | n + 1, pos, sctx =>
    if pos < cmdLen then
      let tlvHdr := cmdHeaderSize + pos
      -- a header that ends behind `read_buf`
      if BTRFS_SEND_BUF_SIZE < tlvHdr + tlvHeaderSize then .error .bug
      else
        let tlvType := leNat (load sctx.readBuf tlvHdr 2)
        let tlvLen := leNat (load sctx.readBuf (tlvHdr + 2) 2)
        if tlvType = 0 ∨ BTRFS_SEND_A_MAX < tlvType ∨ BTRFS_SEND_BUF_SIZE < tlvLen then
          .ok (-EINVAL, sctx)
        else tlvLoop cmdLen n (pos + (tlvHeaderSize + tlvLen))
          { sctx with cmdAttrs := Function.update sctx.cmdAttrs tlvType (some tlvHdr) }
    else .ok (0, sctx)

/-- `read_cmd` from the check of the CRC on. -/
def checkCmd (sctx : Stream σ) (cmd cmdLen : ℕ) : Call (ℤ × Stream σ) :=
  let crc := leNat (load sctx.readBuf 6 4)
  let sctx := { sctx with readBuf := store sctx.readBuf 6 (List.replicate 4 0) }
  let crc2 := crc32c 0 (load sctx.readBuf 0 (cmdHeaderSize + cmdLen))
  if crc ≠ crc2.toNat then .ok (-EINVAL, sctx)
  else
    match tlvLoop cmdLen (cmdLen + 1) 0 sctx with
    | .error fault => .error fault
    | .ok (ret, sctx) => .ok (ret, if ret = 0 then { sctx with cmd := cmd } else sctx)

/-- `read_cmd` from the header on. -/
def readCmdBody (input : Input σ) (sctx : Stream σ) : Call (ℤ × Stream σ) := do
  let cmd := leNat (load sctx.readBuf 4 2)
  let cmdLen := leNat (load sctx.readBuf 0 4)
  if BTRFS_SEND_BUF_SIZE ≤ cmdLen + cmdHeaderSize then return (-EINVAL, sctx)
  else
    let (ret, bytes, sctx) ← readBuf input sctx cmdLen
    let sctx := { sctx with readBuf := store sctx.readBuf cmdHeaderSize bytes }
    if ret < 0 then return (ret, sctx)
    else if ret ≠ 0 then return (-EINVAL, sctx)
    else checkCmd sctx cmd cmdLen

def readCmd (input : Input σ) (sctx : Stream σ) : Call (ℤ × Stream σ) := do
  let (ret, bytes, sctx) ← readBuf input { sctx with cmdAttrs := fun _ => none } cmdHeaderSize
  let sctx := { sctx with readBuf := store sctx.readBuf 0 bytes }
  if ret < 0 then return (ret, sctx)
  else if ret ≠ 0 then return (-EINVAL, sctx)
  else readCmdBody input sctx

/-! ## Attributes -/

/-- Why the attributes of a command are not all fetched: `goto tlv_get_failed` with a return value,
or an access behind `read_buf`. -/
inductive Stop where
  | failed (ret : ℤ)
  | fault (fault : Fault)
deriving DecidableEq

/-- `tlv_get`: the place and the length of the data. -/
def tlvGet (sctx : Stream σ) (attr : SendAttr) : Except Stop (ℕ × ℕ) :=
  if attr.code = 0 ∨ BTRFS_SEND_A_MAX < attr.code then .error (.failed (-EINVAL))
  else
    match sctx.cmdAttrs attr.code with
    | none => .error (.failed (-ENOENT))
    | some hdr => .ok (hdr + tlvHeaderSize, leNat (load sctx.readBuf (hdr + 2) 2))

/-- The data of an attribute. -/
def fetch (sctx : Stream σ) (place : ℕ × ℕ) : Except Stop (List Byte) :=
  if BTRFS_SEND_BUF_SIZE < place.1 + place.2 then .error (.fault .bug)
  else .ok (load sctx.readBuf place.1 place.2)

def tlvCheckLen (expected got : ℕ) : Except Stop Unit :=
  if expected ≠ got then .error (.failed (-EINVAL)) else .ok ()

def tlvGetU64 (sctx : Stream σ) (attr : SendAttr) : Except Stop (BitVec 64) := do
  let place ← tlvGet sctx attr
  tlvCheckLen 8 place.2
  let bytes ← fetch sctx place
  return BitVec.ofNat 64 (leNat bytes)

/-- `TLV_GET`, with the data. -/
def tlvGetData (sctx : Stream σ) (attr : SendAttr) : Except Stop (List Byte) := do
  let place ← tlvGet sctx attr
  fetch sctx place

def tlvGetString (sctx : Stream σ) (attr : SendAttr) : Except Stop CString := do
  let bytes ← tlvGetData sctx attr
  return cstring bytes

def tlvGetTimespec (sctx : Stream σ) (attr : SendAttr) : Except Stop Timespec := do
  let place ← tlvGet sctx attr
  tlvCheckLen 12 place.2
  let bytes ← fetch sctx place
  return ⟨BitVec.ofNat 64 (leNat (bytes.take 8)), BitVec.ofNat 32 (leNat (bytes.drop 8))⟩

def tlvGetUuid (sctx : Stream σ) (attr : SendAttr) : Except Stop Uuid := do
  let place ← tlvGet sctx attr
  tlvCheckLen BTRFS_UUID_SIZE place.2
  let bytes ← fetch sctx place
  if h : bytes.length = BTRFS_UUID_SIZE then return ⟨bytes, h⟩ else .error (.fault .bug)

/-- The `int len` of `read_and_process_cmd` after a `u64` was stored to it, as a `u64` again. -/
def throughInt (v : BitVec 64) : BitVec 64 := (v.setWidth 32).signExtend 64

/-- The commands that only have a path. -/
def pathOp (sctx : Stream σ) (op : CString → SendOp) : Except Stop SendOp := do
  return op (← tlvGetString sctx .path)

/-- The `switch` of `read_and_process_cmd`: a callback, or a return value. -/
def decodeCmd (sctx : Stream σ) : Except Stop (SendOp ⊕ ℤ) :=
  match sendCmds[sctx.cmd]? with
  | some .subvol => do
      let path ← tlvGetString sctx .path
      let uuid ← tlvGetUuid sctx .uuid
      let ctransid ← tlvGetU64 sctx .ctransid
      return .inl (.subvol path uuid ctransid)
  | some .snapshot => do
      let path ← tlvGetString sctx .path
      let uuid ← tlvGetUuid sctx .uuid
      let ctransid ← tlvGetU64 sctx .ctransid
      let cloneUuid ← tlvGetUuid sctx .cloneUuid
      let cloneCtransid ← tlvGetU64 sctx .cloneCtransid
      return .inl (.snapshot path uuid ctransid cloneUuid cloneCtransid)
  | some .mkfile => return .inl (← pathOp sctx .mkfile)
  | some .mkdir => return .inl (← pathOp sctx .mkdir)
  | some .mknod => do
      let path ← tlvGetString sctx .path
      let mode ← tlvGetU64 sctx .mode
      let dev ← tlvGetU64 sctx .rdev
      return .inl (.mknod path mode dev)
  | some .mkfifo => return .inl (← pathOp sctx .mkfifo)
  | some .mksock => return .inl (← pathOp sctx .mksock)
  | some .symlink => do
      let path ← tlvGetString sctx .path
      let pathTo ← tlvGetString sctx .pathLink
      return .inl (.symlink path pathTo)
  | some .rename => do
      let path ← tlvGetString sctx .path
      let pathTo ← tlvGetString sctx .pathTo
      return .inl (.rename path pathTo)
  | some .link => do
      let path ← tlvGetString sctx .path
      let pathTo ← tlvGetString sctx .pathLink
      return .inl (.link path pathTo)
  | some .unlink => return .inl (← pathOp sctx .unlink)
  | some .rmdir => return .inl (← pathOp sctx .rmdir)
  | some .write => do
      let path ← tlvGetString sctx .path
      let offset ← tlvGetU64 sctx .fileOffset
      let data ← tlvGetData sctx .data
      return .inl (.write path data offset)
  | some .clone => do
      let path ← tlvGetString sctx .path
      let offset ← tlvGetU64 sctx .fileOffset
      let len ← tlvGetU64 sctx .cloneLen
      let cloneUuid ← tlvGetUuid sctx .cloneUuid
      let cloneCtransid ← tlvGetU64 sctx .cloneCtransid
      let clonePath ← tlvGetString sctx .clonePath
      let cloneOffset ← tlvGetU64 sctx .cloneOffset
      -- here `len` is an `int`
      return .inl (.clone path offset (throughInt len) cloneUuid cloneCtransid clonePath cloneOffset)
  | some .setXattr => do
      let path ← tlvGetString sctx .path
      let name ← tlvGetString sctx .xattrName
      let data ← tlvGetData sctx .xattrData
      return .inl (.setXattr path name data)
  | some .removeXattr => do
      let path ← tlvGetString sctx .path
      let name ← tlvGetString sctx .xattrName
      return .inl (.removeXattr path name)
  | some .truncate => do
      let path ← tlvGetString sctx .path
      let tmp ← tlvGetU64 sctx .size
      return .inl (.truncate path tmp)
  | some .chmod => do
      let path ← tlvGetString sctx .path
      let tmp ← tlvGetU64 sctx .mode
      return .inl (.chmod path tmp)
  | some .chown => do
      let path ← tlvGetString sctx .path
      let tmp ← tlvGetU64 sctx .uid
      let tmp2 ← tlvGetU64 sctx .gid
      return .inl (.chown path tmp tmp2)
  | some .utimes => do
      let path ← tlvGetString sctx .path
      let at_ ← tlvGetTimespec sctx .atime
      let mt ← tlvGetTimespec sctx .mtime
      let ct ← tlvGetTimespec sctx .ctime
      return .inl (.utimes path at_ mt ct)
  | some .updateExtent => do
      let path ← tlvGetString sctx .path
      let offset ← tlvGetU64 sctx .fileOffset
      let tmp ← tlvGetU64 sctx .size
      return .inl (.updateExtent path offset tmp)
  | some .done => return .inr 1
  | some .unspec | none => return .inr 0

/-! ## Commands -/

/-- `read_and_process_cmd`. `callback` gives the return value of a callback, which may depend on
the calls before it; `calls` lists the calls that were made. -/
def readAndProcessCmd (input : Input σ) (callback : List SendOp → SendOp → ℤ) (sctx : Stream σ)
    (calls : List SendOp) : Call (ℤ × Stream σ × List SendOp) := do
  let (ret, sctx) ← readCmd input sctx
  if ret ≠ 0 then return (ret, sctx, calls)
  else
    match decodeCmd sctx with
    | .error (.failed ret) => return (ret, sctx, calls)
    | .error (.fault fault) => .error fault
    | .ok (.inl op) => return (callback calls op, sctx, calls ++ [op])
    | .ok (.inr ret) => return (ret, sctx, calls)

/-- The label `out` of `btrfs_read_and_process_send_stream`. -/
def streamReturn (ret lastErr : ℤ) : ℤ := if lastErr ≠ 0 ∧ ret = 0 then lastErr else ret

/-- The `while` loop of `btrfs_read_and_process_send_stream`. -/
def processLoop (input : Input σ) (callback : List SendOp → SendOp → ℤ) (honorEndCmd : ℤ)
    (maxErrors : ℕ) : ℕ → Stream σ → List SendOp → ℕ → ℤ → Call (ℤ × List SendOp)
  | 0, _, _, _, _ => .error .outOfRounds
  | n + 1, sctx, calls, errors, lastErr => do
      let (ret, sctx, calls) ← readAndProcessCmd input callback sctx calls
      if ret < 0 then
        if 0 < maxErrors ∧ maxErrors ≤ errors + 1 then return (streamReturn ret ret, calls)
        else processLoop input callback honorEndCmd maxErrors n sctx calls (errors + 1) ret
      else if 0 < ret then
        return (streamReturn (if honorEndCmd = 0 then 0 else ret) lastErr, calls)
      else processLoop input callback honorEndCmd maxErrors n sctx calls errors lastErr

/-- The part of `btrfs_read_and_process_send_stream` before the loop. `junk` is what stands in
`read_buf` before. -/
def readHeader (input : Input σ) (junk : ℕ → Byte) (fd : σ) : Call (ℤ × Stream σ) := do
  let sctx : Stream σ := ⟨fd, junk, 0, fun _ => none, 0, 0⟩
  let (ret, hdr, sctx) ← readBuf input sctx streamHeaderSize
  if ret < 0 then return (ret, sctx)
  else if ret ≠ 0 then return (-ENODATA, sctx)
  else if hdr.take 13 ≠ BTRFS_SEND_STREAM_MAGIC then return (-EINVAL, sctx)
  else
    let sctx := { sctx with version := leNat (hdr.drop 13) }
    if BTRFS_SEND_STREAM_VERSION < sctx.version then return (-EINVAL, sctx)
    else return (0, sctx)

/-- `btrfs_read_and_process_send_stream`, for a number of commands: the return value and the
calls. -/
def processStream (rounds : ℕ) (input : Input σ) (callback : List SendOp → SendOp → ℤ)
    (junk : ℕ → Byte) (fd : σ) (honorEndCmd : ℤ) (maxErrors : ℕ) : Call (ℤ × List SendOp) := do
  let (ret, sctx) ← readHeader input junk fd
  if ret ≠ 0 then return (ret, [])
  else processLoop input callback honorEndCmd maxErrors rounds sctx [] 0 0

/-- `btrfs_read_and_process_send_stream` on a file that holds `bytes`. -/
def btrfsReadAndProcessSendStream (rounds : ℕ) (chunk : ℕ → ℕ)
    (callback : List SendOp → SendOp → ℤ) (junk : ℕ → Byte) (bytes : List Byte) (honorEndCmd : ℤ)
    (maxErrors : ℕ) : Call (ℤ × List SendOp) :=
  processStream rounds (readFd chunk) callback junk ⟨bytes, 0⟩ honorEndCmd maxErrors

end Btrfs.SendStream
