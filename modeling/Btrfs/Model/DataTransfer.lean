import Btrfs.Model.Volumes

/-! # Reading and writing data through the chunk mapping
(`extent_io.c`, `disk-io.c`, `volumes.c`) -/

namespace Btrfs.Volumes

open Raid56

/-! ## Devices -/

/-- A device with its contents. Nothing can be read or written beyond its size. -/
structure Device where
  devid : ℕ
  fd : ℤ
  size : ℕ
  data : ℕ → Byte

/-- The devices behind their pointers. -/
abbrev Devices := ℕ → Device

/-- The result of `pread` and `pwrite`: the number of bytes moved. -/
def Device.moved (dev : Device) (len offset : ℕ) : ℤ :=
  if dev.fd ≤ 0 then -1 else (min len (dev.size - offset) : ℕ)

/-- `memcpy(dst + dstOff, src + srcOff, len)`. -/
def copyBytes (dst : ℕ → Byte) (dstOff : ℕ) (src : ℕ → Byte) (srcOff len : ℕ) : ℕ → Byte :=
  fun x => if dstOff ≤ x ∧ x < dstOff + len then src (srcOff + (x - dstOff)) else dst x

/-- `pread(fd, buf + start, len, offset)`. -/
def pread (dev : Device) (buf : ℕ → Byte) (start len offset : ℕ) : ℤ × (ℕ → Byte) :=
  let ret := dev.moved len offset
  (ret, copyBytes buf start dev.data offset ret.toNat)

/-- `pwrite(fd, buf + start, len, offset)`. -/
def pwrite (dev : Device) (buf : ℕ → Byte) (start len offset : ℕ) : ℤ × Device :=
  let ret := dev.moved len offset
  (ret, { dev with data := copyBytes dev.data offset buf start ret.toNat })

/-- The part of `struct btrfs_fs_info` that is used: `fsDevices` is the list
`fs_devices->devices`. -/
structure FsInfo where
  mappingTree : List MapLookup
  nodesize : ℕ
  onRestoring : Bool
  fsDevices : List ℕ

/-! ## Reading -/

/-- The loop of `read_data_from_disk`. -/
def readDataLoop (info : FsInfo) (devs : Devices) (mirror : ℕ) :
    ℕ → ℕ → ℕ → ℕ → (ℕ → Byte) → Call (ℤ × (ℕ → Byte))
  | 0, _, bytesLeft, _, buf => if bytesLeft = 0 then .ok (0, buf) else .error .outOfRounds
  | rounds + 1, offset, bytesLeft, totalRead, buf =>
    if bytesLeft = 0 then .ok (0, buf)
    else
      match btrfsMapBlock info.mappingTree .read offset mirror false with
      | .error fault => .error fault
      | .ok (.error _) => .ok (-eio, buf)
      | .ok (.ok multi) =>
        match multi.stripes with
        | [] => .error .bug
        | stripe :: _ =>
          let device := devs stripe.dev
          let readLen := min bytesLeft multi.length
          if device.fd ≤ 0 then .ok (-eio, buf)
          else
            let (ret, buf) := pread device buf totalRead readLen stripe.physical
            if ret < 0 then .ok (ret, buf)
            else if ret ≠ readLen then .ok (-eio, buf)
            else readDataLoop info devs mirror rounds (offset + readLen)
              (bytesLeft - readLen) (totalRead + readLen) buf

/-- `read_data_from_disk`. Every round reads at least a byte. -/
def readDataFromDisk (info : FsInfo) (devs : Devices) (buf : ℕ → Byte) (offset bytes mirror : ℕ) :
    Call (ℤ × (ℕ → Byte)) :=
  readDataLoop info devs mirror bytes offset bytes 0 buf

/-! ## Read-modify-write of a full stripe -/

/-- The fields of a `struct extent_buffer` that hold a range of logical addresses. -/
structure ExtentBuffer where
  start : ℕ
  len : ℕ
  data : ℕ → Byte

def readExtentFromDisk (dev : Device) (data : ℕ → Byte) (offset len devBytenr : ℕ) :
    ℤ × (ℕ → Byte) :=
  let (ret, data) := pread dev data offset len devBytenr
  if ret < 0 then (-eio, data)
  else if ret ≠ len then (-eio, data)
  else (0, data)

/-- Whether `read_whole_eb` goes around the chunk mapping. -/
def FsInfo.unmapped (info : FsInfo) (start : ℕ) : Bool :=
  info.onRestoring || start == BTRFS_SUPER_INFO_OFFSET

/-- The device with id 1 in the list of devices. -/
def FsInfo.firstDevice (info : FsInfo) (devs : Devices) : Option ℕ :=
  info.fsDevices.find? fun d => (devs d).devid = 1

/-- The device and the place on it where a round of `read_whole_eb` reads, and `read_len`.
`none` is the return with `-EIO`. -/
def wholeEbSource (info : FsInfo) (devs : Devices) (start mirror offset bytesLeft : ℕ) :
    Call (Option (Device × ℕ × ℕ)) :=
  if info.unmapped start then
    match info.firstDevice devs with
    | none => .error .bug
    | some d => .ok (some (devs d, start, bytesLeft))
  else
    match btrfsMapBlock info.mappingTree .read (start + offset) mirror false with
    | .error fault => .error fault
    | .ok (.error _) => .ok none
    | .ok (.ok multi) =>
      match multi.stripes with
      | [] => .error .bug
      | stripe :: _ =>
        if (devs stripe.dev).fd ≤ 0 then .ok none
        else .ok (some (devs stripe.dev, stripe.physical, multi.length))

/-- The loop of `read_whole_eb`. -/
def readWholeEbLoop (info : FsInfo) (devs : Devices) (start mirror : ℕ) :
    ℕ → ℕ → ℕ → (ℕ → Byte) → Call (ℤ × (ℕ → Byte))
  | 0, _, bytesLeft, data => if bytesLeft = 0 then .ok (0, data) else .error .outOfRounds
  | rounds + 1, offset, bytesLeft, data =>
    if bytesLeft = 0 then .ok (0, data)
    else
      match wholeEbSource info devs start mirror offset bytesLeft with
      | .error fault => .error fault
      | .ok none => .ok (-eio, data)
      | .ok (some (device, devBytenr, readLen)) =>
        let readLen := if bytesLeft < readLen then bytesLeft else readLen
        let (ret, data) := readExtentFromDisk device data offset readLen devBytenr
        if ret ≠ 0 then .ok (-eio, data)
        else readWholeEbLoop info devs start mirror rounds (offset + readLen)
          (bytesLeft - readLen) data

def readWholeEb (info : FsInfo) (devs : Devices) (eb : ExtentBuffer) (mirror : ℕ) :
    Call (ℤ × ExtentBuffer) :=
  match readWholeEbLoop info devs eb.start mirror eb.len 0 eb.len eb.data with
  | .error fault => .error fault
  | .ok (ret, data) => .ok (ret, { eb with data := data })

def rmwEb (info : FsInfo) (devs : Devices) (eb origEb : ExtentBuffer) : Call (ℤ × ExtentBuffer) :=
  match readWholeEb info devs eb 0 with
  | .error fault => .error fault
  | .ok (ret, eb) =>
    if ret ≠ 0 then .ok (ret, eb)
    else if eb.start + eb.len ≤ origEb.start ∨ origEb.start + origEb.len ≤ eb.start then
      .ok (0, eb)
    else
      let origOff := if origEb.start < eb.start then eb.start - origEb.start else 0
      let destOff := if eb.start < origEb.start then origEb.start - eb.start else 0
      let copyLen := min (min eb.len (origEb.len - origOff)) (eb.len - destOff)
      .ok (0, { eb with data := copyBytes eb.data destOff origEb.data origOff copyLen })

/-- A round of the second loop of `split_eb_for_raid56`: the buffer of one data stripe. -/
def splitStripe (info : FsInfo) (devs : Devices) (origEb : ExtentBuffer)
    (stripeLen thisEbStart : ℕ) : Call (ℤ × ExtentBuffer) :=
  let eb : ExtentBuffer := ⟨thisEbStart, stripeLen, fun _ => 0⟩
  if thisEbStart < origEb.start ∨ origEb.start + origEb.len < thisEbStart + stripeLen then
    rmwEb info devs eb origEb
  else
    .ok (0, { eb with
      data := copyBytes eb.data 0 origEb.data (thisEbStart - origEb.start) stripeLen })

/-- `split_eb_for_raid56`; the loop ends at the first parity stripe. -/
def splitEbForRaid56 (info : FsInfo) (devs : Devices) (origEb : ExtentBuffer) (stripeLen : ℕ) :
    List ℕ → Call (ℤ × List ExtentBuffer)
  | [] => .ok (0, [])
  | thisEbStart :: raidMap =>
    if BTRFS_RAID5_P_STRIPE ≤ thisEbStart then .ok (0, [])
    else
      match splitStripe info devs origEb stripeLen thisEbStart with
      | .error fault => .error fault
      | .ok (ret, eb) =>
        if ret ≠ 0 then .ok (ret, [])
        else
          match splitEbForRaid56 info devs origEb stripeLen raidMap with
          | .error fault => .error fault
          | .ok (ret, ebs) => .ok (ret, eb :: ebs)

def writeExtentToDisk (devs : Devices) (data : ℕ → Byte) (len : ℕ) (stripe : BioStripe) :
    ℤ × Devices :=
  let (ret, dev) := pwrite (devs stripe.dev) data 0 len stripe.physical
  let devs := Function.update devs stripe.dev dev
  if ret < 0 then (ret, devs)
  else if ret ≠ len then (-eio, devs)
  else (0, devs)

/-- The last loop of `write_raid56_with_parity`: the buffers are written to their stripes. -/
def writeBuffers (len : ℕ) : List ((ℕ → Byte) × BioStripe) → Devices → ℤ × Devices
  | [], devs => (0, devs)
  | (data, stripe) :: rest, devs =>
    let (ret, devs) := writeExtentToDisk devs data len stripe
    if ret < 0 then (ret, devs) else writeBuffers len rest devs

/-- The stripe of a parity entry of the `raid_map`. -/
def parityStripe (raidMap : List ℕ) (stripes : List BioStripe) (entry : ℕ) : Option BioStripe :=
  ((raidMap.zip stripes).find? fun e => e.1 = entry).map Prod.snd

section

-- the addresses of the buffers, which `xor_range` looks at
variable (addr : Ptr → ℕ)

/-- The memory behind `pointers`. The parity buffers come from `malloc`; all their bytes are
set before they are read. -/
def stripeMemory (ebs : List ExtentBuffer) : Memory
  | .stripe i => ((ebs[i.toNat]?).map ExtentBuffer.data).getD fun _ => 0
  | _ => fun _ => 0

/-- The buffers of all stripes with parity: data in order, then P and, for RAID6, Q. -/
def parityBuffers (numStripes stripeLen : ℕ) (ebs : List ExtentBuffer) (q : Bool) :
    ℤ × (ℕ → ℕ → Byte) :=
  let mem := stripeMemory ebs
  if q then (0, fun i => raid6GenSyndrome numStripes stripeLen Ptr.stripe mem (.stripe i))
  else
    let (ret, mem) := raid5GenResult addr numStripes stripeLen (numStripes - 1) Ptr.stripe mem
    (ret, fun i => mem (.stripe i))

/-- `write_raid56_with_parity`. The sorted `raid_map` has the data stripes first, so that the
buffer of entry `i` is written to stripe `i`; P and Q go to the stripes of their own entries. -/
def writeRaid56WithParity (info : FsInfo) (devs : Devices) (eb : ExtentBuffer)
    (stripes : List BioStripe) (stripeLen : ℕ) (raidMap : List ℕ) : Call (ℤ × Devices) :=
  match splitEbForRaid56 info devs eb stripeLen raidMap with
  | .error fault => .error fault
  | .ok (ret, ebs) =>
    if ret ≠ 0 then .ok (ret, devs)
    else
      match parityStripe raidMap stripes BTRFS_RAID5_P_STRIPE with
      | none => .error .bug
      | some p =>
        let q := parityStripe raidMap stripes BTRFS_RAID6_Q_STRIPE
        let (ret, bufs) := parityBuffers addr stripes.length stripeLen ebs q.isSome
        if ret < 0 then .ok (ret, devs)
        else
          let targets := stripes.take ebs.length ++ p :: q.toList
          .ok (writeBuffers stripeLen
            (((List.range stripes.length).map bufs).zip targets) devs)

/-! ## Writing -/

/-- The loop of `write_data_to_disk` over the copies. -/
def writeCopies (buf : ℕ → Byte) (totalWrite thisLen : ℕ) : List BioStripe → Devices → ℤ × Devices
  | [], devs => (0, devs)
  | stripe :: rest, devs =>
    let device := devs stripe.dev
    if device.fd ≤ 0 then (-eio, devs)
    else
      let (ret, device) := pwrite device buf totalWrite thisLen stripe.physical
      let devs := Function.update devs stripe.dev device
      if ret ≠ thisLen then (if ret < 0 then eio else -eio, devs)
      else writeCopies buf totalWrite thisLen rest devs

/-- The loop of `write_data_to_disk`. -/
def writeDataLoop (info : FsInfo) (buf : ℕ → Byte) (mirror : ℕ) :
    ℕ → ℕ → ℕ → ℕ → Devices → Call (ℤ × Devices)
  | 0, _, bytesLeft, _, devs => if bytesLeft = 0 then .ok (0, devs) else .error .outOfRounds
  | rounds + 1, offset, bytesLeft, totalWrite, devs =>
    if bytesLeft = 0 then .ok (0, devs)
    else
      match btrfsMapBlock info.mappingTree .write offset mirror true with
      | .error fault => .error fault
      | .ok (.error _) => .ok (-eio, devs)
      | .ok (.ok ⟨length, stripes, some raidMap⟩) =>
        let thisLen := min (min length bytesLeft) info.nodesize
        let eb : ExtentBuffer :=
          ⟨offset, thisLen, copyBytes (fun _ => 0) 0 buf totalWrite thisLen⟩
        match writeRaid56WithParity addr info devs eb stripes length raidMap with
        | .error fault => .error fault
        | .ok (ret, devs) =>
          -- BUG_ON(ret) and BUG_ON(bytes_left < this_len)
          if ret ≠ 0 ∨ bytesLeft < thisLen then .error .bug
          else writeDataLoop info buf mirror rounds (offset + thisLen)
            (bytesLeft - thisLen) (totalWrite + thisLen) devs
      | .ok (.ok ⟨length, stripes, none⟩) =>
        let thisLen := min length bytesLeft
        let (ret, devs) := writeCopies buf totalWrite thisLen stripes devs
        if ret ≠ 0 then .ok (ret, devs)
        else if bytesLeft < thisLen then .error .bug
        else writeDataLoop info buf mirror rounds (offset + thisLen)
          (bytesLeft - thisLen) (totalWrite + thisLen) devs

def writeDataToDisk (info : FsInfo) (devs : Devices) (buf : ℕ → Byte) (offset bytes mirror : ℕ) :
    Call (ℤ × Devices) :=
  writeDataLoop addr info buf mirror bytes offset bytes 0 devs

/-! ## Extent buffers -/

/-- The `while` loop of `write_and_map_eb` over the copies. -/
def writeTargets (data : ℕ → Byte) (len : ℕ) : List BioStripe → Devices → Call Devices
  | [], devs => .ok devs
  | stripe :: rest, devs =>
    let (ret, devs) := writeExtentToDisk devs data len stripe
    if ret ≠ 0 then .error .bug else writeTargets data len rest devs

def writeAndMapEb (info : FsInfo) (devs : Devices) (eb : ExtentBuffer) : Call Devices :=
  match btrfsMapBlock info.mappingTree .write eb.start 0 true with
  | .error fault => .error fault
  -- `multi` is still NULL
  | .ok (.error _) => .error .bug
  | .ok (.ok ⟨length, stripes, some raidMap⟩) =>
    match writeRaid56WithParity addr info devs eb stripes length raidMap with
    | .error fault => .error fault
    | .ok (ret, devs) => if ret ≠ 0 then .error .bug else .ok devs
  | .ok (.ok ⟨_, stripes, none⟩) => writeTargets eb.data eb.len stripes devs

end

end Btrfs.Volumes
