import Btrfs.Model.RbTree

/-! # The list of scanned devices (`volumes.c`) -/

namespace Btrfs.DeviceScan

open RbTree (EEXIST)

/-- The fields of a superblock that `device_list_add` reads; `uuid`, `totalBytes` and
`devBytesUsed` are those of its `dev_item`. -/
structure DiskSuper where
  fsid : BitVec 128
  generation : ℕ
  label : String
  numDevices : ℕ
  bytesUsed : ℕ
  uuid : BitVec 128
  totalBytes : ℕ
  devBytesUsed : ℕ
deriving DecidableEq, Repr

/-- `struct btrfs_device`. -/
structure Device where
  devid : ℕ
  uuid : BitVec 128
  generation : ℕ
  name : Option String
  label : String
  totalDevs : ℕ
  superBytesUsed : ℕ
  totalBytes : ℕ
  bytesUsed : ℕ
deriving DecidableEq, Repr

/-- `struct btrfs_fs_devices`. -/
structure FsDevices where
  fsid : BitVec 128
  latestDevid : ℕ
  latestTrans : ℕ
  lowestDevid : ℕ
  devices : List Device
deriving DecidableEq, Repr

def findDevice (head : List Device) (devid : ℕ) (uuid : BitVec 128) : Option Device :=
  head.find? fun dev => dev.devid = devid ∧ dev.uuid = uuid

def findFsid (fsUuids : List FsDevices) (fsid : BitVec 128) : Option FsDevices :=
  fsUuids.find? fun fsDevices => fsDevices.fsid = fsid

/-- The device that is allocated for a superblock that is new. -/
def newDevice (path : String) (diskSuper : DiskSuper) (devid : ℕ) : Device where
  devid := devid
  uuid := diskSuper.uuid
  generation := diskSuper.generation
  name := some path
  label := diskSuper.label
  totalDevs := diskSuper.numDevices
  superBytesUsed := diskSuper.bytesUsed
  totalBytes := diskSuper.totalBytes
  bytesUsed := diskSuper.devBytesUsed

/-- A new name for the device that `__find_device` finds. -/
def renameDevice (head : List Device) (devid : ℕ) (uuid : BitVec 128) (path : String) :
    List Device :=
  head.modify (head.findIdx fun dev => dev.devid = devid ∧ dev.uuid = uuid)
    fun dev => { dev with name := some path }

/-- The end of `device_list_add`. -/
def noteDevid (fsDevices : FsDevices) (foundTransid devid : ℕ) : FsDevices :=
  let fsDevices := if fsDevices.latestTrans < foundTransid then
      { fsDevices with latestDevid := devid, latestTrans := foundTransid }
    else fsDevices
  if devid < fsDevices.lowestDevid then { fsDevices with lowestDevid := devid } else fsDevices

/-- `device_list_add`; `*fs_devices_ret` is the entry for the `fsid` of the superblock. -/
def deviceListAdd (fsUuids : List FsDevices) (path : String) (diskSuper : DiskSuper) (devid : ℕ) :
    ℤ × List FsDevices :=
  let foundTransid := diskSuper.generation
  let update (f : FsDevices → FsDevices) : List FsDevices :=
    fsUuids.modify (fsUuids.findIdx fun fsDevices => fsDevices.fsid = diskSuper.fsid)
      fun fsDevices => noteDevid (f fsDevices) foundTransid devid
  match findFsid fsUuids diskSuper.fsid with
  | none =>
    let fsDevices : FsDevices := ⟨diskSuper.fsid, devid, foundTransid, u64Max,
      [newDevice path diskSuper devid]⟩
    (0, noteDevid fsDevices foundTransid devid :: fsUuids)
  | some fsDevices =>
    match findDevice fsDevices.devices devid diskSuper.uuid with
    | none =>
      (0, update fun fsDevices =>
        { fsDevices with devices := newDevice path diskSuper devid :: fsDevices.devices })
    | some device =>
      if device.name = some path then (0, update id)
      else if foundTransid < device.generation then (-EEXIST, fsUuids)
      else
        (0, update fun fsDevices => { fsDevices with
          devices := renameDevice fsDevices.devices devid diskSuper.uuid path })

end Btrfs.DeviceScan
