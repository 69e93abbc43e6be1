import Btrfs.Model.DeviceScan
import Btrfs.Verification.Shared.KeyedList

/-! # What a sequence of scans leaves in the list of devices -/

namespace Btrfs.DeviceScan

variable {fsDevices : FsDevices} {fsid : BitVec 128} {fsUuids : List FsDevices}

structure Scan where
  path : String
  diskSuper : DiskSuper
  devid : ℕ
  devid_le : devid ≤ u64Max
deriving DecidableEq

namespace Scan

def add (fsUuids : List FsDevices) (scan : Scan) : ℤ × List FsDevices :=
  deviceListAdd fsUuids scan.path scan.diskSuper scan.devid

/-- The device that a scan is about: `fsid`, `devid` and `uuid`. -/
def device (scan : Scan) : BitVec 128 × ℕ × BitVec 128 :=
  (scan.diskSuper.fsid, scan.devid, scan.diskSuper.uuid)

end Scan

def scanAll (fsUuids : List FsDevices) : List Scan → List FsDevices
  | [] => fsUuids
  | scan :: rest => scanAll (scan.add fsUuids).2 rest

/-- The scans of a sequence for which `device_list_add` returns 0. -/
def accepted (fsUuids : List FsDevices) : List Scan → List Scan
  | [] => []
  | scan :: rest =>
    let tail := accepted (scan.add fsUuids).2 rest
    if (scan.add fsUuids).1 = 0 then scan :: tail else tail

def scansOf (device : BitVec 128 × ℕ × BitVec 128) (scans : List Scan) : List Scan :=
  scans.filter fun scan => scan.device = device

/-- The last scan whose generation is not below that of the first scan. -/
def lastFresh : List Scan → Option Scan
  | [] => none
  | first :: rest =>
    ((first :: rest).filter fun scan =>
      first.diskSuper.generation ≤ scan.diskSuper.generation).getLast?

theorem scansOf_concat_self (scans : List Scan) (scan : Scan) :
    scansOf scan.device (scans ++ [scan]) = scansOf scan.device scans ++ [scan] := by
  simp [scansOf]

theorem scansOf_concat_of_ne {device : BitVec 128 × ℕ × BitVec 128} {scan : Scan}
    (scans : List Scan) (h : scan.device ≠ device) :
    scansOf device (scans ++ [scan]) = scansOf device scans := by
  simp [scansOf, h]

theorem scansOf_concat_of_ident_ne {devid : ℕ} {uuid : BitVec 128} {scan : Scan} (scans : List Scan)
    (h : (devid, uuid) ≠ (scan.devid, scan.diskSuper.uuid)) :
    scansOf (scan.diskSuper.fsid, devid, uuid) (scans ++ [scan]) =
      scansOf (scan.diskSuper.fsid, devid, uuid) scans := by
  apply scansOf_concat_of_ne
  intro hdev
  exact h (congrArg Prod.snd hdev).symm

theorem lastFresh_singleton (scan : Scan) : lastFresh [scan] = some scan := by simp [lastFresh]

theorem lastFresh_concat_fresh {first : Scan} (rest : List Scan) {scan : Scan}
    (h : first.diskSuper.generation ≤ scan.diskSuper.generation) :
    lastFresh (first :: rest ++ [scan]) = some scan := by
  have hone : ([scan].filter fun s => first.diskSuper.generation ≤ s.diskSuper.generation) =
      [scan] := by simp [h]
  rw [List.cons_append, lastFresh, ← List.cons_append, List.filter_append, hone,
    List.getLast?_concat]

theorem lastFresh_concat_stale {first : Scan} (rest : List Scan) {scan : Scan}
    (h : scan.diskSuper.generation < first.diskSuper.generation) :
    lastFresh (first :: rest ++ [scan]) = lastFresh (first :: rest) := by
  have hn : ([scan].filter fun s => first.diskSuper.generation ≤ s.diskSuper.generation) =
      [] := by simp [h]
  rw [List.cons_append, lastFresh, ← List.cons_append, List.filter_append, hn, List.append_nil]
  rfl

/-! ## The invariant -/

def Device.ident (device : Device) : ℕ × BitVec 128 := (device.devid, device.uuid)

theorem findDevice_eq (head : List Device) (devid : ℕ) (uuid : BitVec 128) :
    findDevice head devid uuid = lookupKey Device.ident (devid, uuid) head := by
  simp [findDevice, lookupKey, Device.ident]

theorem renameDevice_eq (head : List Device) (devid : ℕ) (uuid : BitVec 128) (path : String) :
    renameDevice head devid uuid path =
      head.modify (head.findIdx fun dev => dev.ident = (devid, uuid))
        fun dev => { dev with name := some path } := by
  simp [renameDevice, Device.ident]

theorem findFsid_eq (fsUuids : List FsDevices) (fsid : BitVec 128) :
    findFsid fsUuids fsid = lookupKey FsDevices.fsid fsid fsUuids := rfl

/-- The device has the generation of its first scan and the path of the last one that was not
older than that. -/
structure TracksDevice (own : List Scan) (device : Device) : Prop where
  generation : own.head?.map (·.diskSuper.generation) = some device.generation
  name : (lastFresh own).map (·.path) = device.name

/-- What the devices of one `fsid` say about the scans that were made. -/
structure TracksFs (done taken : List Scan) (fsid : BitVec 128) (fsDevices : FsDevices) : Prop where
  latest : IsGreatest {g | ∃ scan ∈ done, scan.diskSuper.fsid = fsid ∧
    scan.diskSuper.generation = g} fsDevices.latestTrans
  lowest : IsLeast {d | ∃ scan ∈ taken, scan.diskSuper.fsid = fsid ∧ scan.devid = d}
    fsDevices.lowestDevid
  nodup : (fsDevices.devices.map Device.ident).Nodup
  absent : ∀ devid uuid, lookupKey Device.ident (devid, uuid) fsDevices.devices = none →
    scansOf (fsid, devid, uuid) done = []
  present : ∀ devid uuid device,
    lookupKey Device.ident (devid, uuid) fsDevices.devices = some device →
      TracksDevice (scansOf (fsid, devid, uuid) done) device

/-- What the whole list says about the scans that were made. -/
structure Tracks (done taken : List Scan) (fsUuids : List FsDevices) : Prop where
  nodup : (fsUuids.map FsDevices.fsid).Nodup
  absent : ∀ fsid, lookupKey FsDevices.fsid fsid fsUuids = none →
    ∀ scan ∈ done, scan.diskSuper.fsid ≠ fsid
  present : ∀ fsid fsDevices, lookupKey FsDevices.fsid fsid fsUuids = some fsDevices →
    TracksFs done taken fsid fsDevices

theorem tracks_nil : Tracks [] [] [] where
  nodup := List.nodup_nil
  absent := by simp
  present := by simp [lookupKey]

/-! ## One scan -/

@[simp] theorem noteDevid_fsid (fsDevices : FsDevices) (g d : ℕ) :
    (noteDevid fsDevices g d).fsid = fsDevices.fsid := by
  simp only [noteDevid]
  split_ifs <;> rfl

@[simp] theorem noteDevid_devices (fsDevices : FsDevices) (g d : ℕ) :
    (noteDevid fsDevices g d).devices = fsDevices.devices := by
  simp only [noteDevid]
  split_ifs <;> rfl

@[simp] theorem noteDevid_latestTrans (fsDevices : FsDevices) (g d : ℕ) :
    (noteDevid fsDevices g d).latestTrans = max g fsDevices.latestTrans := by
  by_cases hg : fsDevices.latestTrans < g
  · rw [Nat.max_eq_left hg.le]
    simp only [noteDevid]
    split_ifs <;> rfl
  · rw [Nat.max_eq_right (Nat.not_lt.mp hg)]
    simp only [noteDevid]
    split_ifs <;> rfl

@[simp] theorem noteDevid_lowestDevid (fsDevices : FsDevices) (g d : ℕ) :
    (noteDevid fsDevices g d).lowestDevid = min d fsDevices.lowestDevid := by
  have hif : ∀ other : FsDevices, other.lowestDevid = fsDevices.lowestDevid →
      (if d < other.lowestDevid then { other with lowestDevid := d } else other).lowestDevid =
        min d fsDevices.lowestDevid := by
    intro other hother
    by_cases hd : d < other.lowestDevid
    · rw [if_pos hd, Nat.min_eq_left (hother ▸ hd.le)]
    · rw [if_neg hd, hother, Nat.min_eq_right (hother ▸ Nat.not_lt.mp hd)]
  apply hif
  split_ifs <;> rfl

section

variable {done taken : List Scan} {scan : Scan}

theorem values_concat (f : Scan → ℕ) (scans : List Scan) (scan : Scan) :
    {v | ∃ s ∈ scans ++ [scan], s.diskSuper.fsid = scan.diskSuper.fsid ∧ f s = v} =
      insert (f scan) {v | ∃ s ∈ scans, s.diskSuper.fsid = scan.diskSuper.fsid ∧ f s = v} := by
  ext v
  simp only [List.mem_append, List.mem_singleton]
  constructor
  · rintro ⟨s, hs | rfl, hf, hv⟩
    · exact Or.inr ⟨s, hs, hf, hv⟩
    · exact Or.inl hv.symm
  · rintro (rfl | ⟨s, hs, hf, hv⟩)
    · exact ⟨scan, Or.inr rfl, rfl, rfl⟩
    · exact ⟨s, Or.inl hs, hf, hv⟩

variable {taken' own : List Scan} {device : Device}

theorem TracksFs.other (h : TracksFs done taken fsid fsDevices) (hne : scan.diskSuper.fsid ≠ fsid)
    (htaken : taken' = taken ∨ taken' = taken ++ [scan]) :
    TracksFs (done ++ [scan]) taken' fsid fsDevices := by
  have hd : {g | ∃ s ∈ done ++ [scan], s.diskSuper.fsid = fsid ∧ s.diskSuper.generation = g} =
      {g | ∃ s ∈ done, s.diskSuper.fsid = fsid ∧ s.diskSuper.generation = g} := by
    simp [hne]
  have hdevids : {d | ∃ s ∈ taken', s.diskSuper.fsid = fsid ∧ s.devid = d} =
      {d | ∃ s ∈ taken, s.diskSuper.fsid = fsid ∧ s.devid = d} := by
    rcases htaken with rfl | rfl
    · rfl
    · simp [hne]
  have hown : ∀ devid uuid, scansOf (fsid, devid, uuid) (done ++ [scan]) =
      scansOf (fsid, devid, uuid) done := by
    intro devid uuid
    apply scansOf_concat_of_ne
    intro hdev
    exact hne (congrArg Prod.fst hdev)
  refine ⟨by rw [hd]; exact h.latest, by rw [hdevids]; exact h.lowest, h.nodup, ?_, ?_⟩
  · intro devid uuid hn
    rw [hown]
    exact h.absent devid uuid hn
  · intro devid uuid device hs
    rw [hown]
    exact h.present devid uuid device hs

/-- Only the device of the scan is looked up differently. -/
theorem TracksFs.concat (h : TracksFs done taken scan.diskSuper.fsid fsDevices) {fs : FsDevices}
    (hlatest : fs.latestTrans = max scan.diskSuper.generation fsDevices.latestTrans)
    (hlowest : IsLeast {d | ∃ s ∈ taken', s.diskSuper.fsid = scan.diskSuper.fsid ∧ s.devid = d} fs.lowestDevid)
    (hnd : (fs.devices.map Device.ident).Nodup)
    (hsa : ∀ ident, ident ≠ (scan.devid, scan.diskSuper.uuid) → lookupKey Device.ident ident fs.devices = lookupKey Device.ident ident fsDevices.devices)
    (hlookup : lookupKey Device.ident (scan.devid, scan.diskSuper.uuid) fs.devices = some device)
    (htracks : TracksDevice (scansOf scan.device done ++ [scan]) device) :
    TracksFs (done ++ [scan]) taken' scan.diskSuper.fsid fs := by
  refine ⟨?_, hlowest, hnd, ?_, ?_⟩
  · rw [values_concat (·.diskSuper.generation), hlatest]
    exact h.latest.insert _
  · intro devid uuid hn
    by_cases hid : (devid, uuid) = (scan.devid, scan.diskSuper.uuid)
    · rw [hid, hlookup] at hn
      exact absurd hn (by simp)
    · rw [scansOf_concat_of_ident_ne done hid]
      exact h.absent devid uuid (by rwa [← hsa _ hid])
  · intro devid uuid device' hs
    by_cases hid : (devid, uuid) = (scan.devid, scan.diskSuper.uuid)
    · rw [hid, hlookup, Option.some_inj] at hs
      obtain ⟨rfl, rfl⟩ := Prod.mk.injEq .. ▸ hid
      rw [← hs]
      exact (scansOf_concat_self done scan).symm ▸ htracks
    · rw [scansOf_concat_of_ident_ne done hid]
      exact h.present devid uuid device' (by rwa [← hsa _ hid])

theorem TracksDevice.first {own : List Scan} {device : Device} (h : TracksDevice own device) :
    ∃ first rest, own = first :: rest ∧ device.generation = first.diskSuper.generation := by
  cases own with
  | nil => exact absurd h.generation (by simp)
  | cons first rest => exact ⟨first, rest, rfl, (Option.some_inj.mp h.generation).symm⟩

theorem TracksDevice.fresh (h : TracksDevice own device)
    (hle : device.generation ≤ scan.diskSuper.generation) :
    TracksDevice (own ++ [scan]) { device with name := some scan.path } := by
  obtain ⟨first, rest, rfl, hgeneration⟩ := h.first
  refine ⟨h.generation, ?_⟩
  rw [lastFresh_concat_fresh rest (by omega)]
  rfl

theorem TracksDevice.keep (h : TracksDevice own device)
    (hkeep : scan.diskSuper.generation < device.generation ∨ device.name = some scan.path) :
    TracksDevice (own ++ [scan]) device := by
  obtain ⟨first, rest, rfl, hgeneration⟩ := h.first
  refine ⟨h.generation, ?_⟩
  by_cases hlt : scan.diskSuper.generation < first.diskSuper.generation
  · rw [lastFresh_concat_stale rest hlt]
    exact h.name
  · rw [lastFresh_concat_fresh rest (by omega)]
    rcases hkeep with hstale | hn
    · omega
    · exact hn.symm

/-- A rejected scan is older than one that is known. -/
theorem TracksFs.reject (h : TracksFs done taken scan.diskSuper.fsid fsDevices)
    (hdev : lookupKey Device.ident (scan.devid, scan.diskSuper.uuid) fsDevices.devices = some device)
    (hstale : scan.diskSuper.generation < device.generation) :
    TracksFs (done ++ [scan]) taken scan.diskSuper.fsid fsDevices := by
  have htracks := h.present _ _ _ hdev
  obtain ⟨first, rest, hown, hgeneration⟩ := htracks.first
  have hle : first.diskSuper.generation ≤ fsDevices.latestTrans := by
    have hmem : first ∈ scansOf scan.device done := by
      rw [show scansOf scan.device done = first :: rest from hown]
      exact by simp
    obtain ⟨hmem, hfirst⟩ := List.mem_filter.mp hmem
    have hfirst : first.device = scan.device := by simpa using hfirst
    exact h.latest.2 ⟨first, hmem, congrArg Prod.fst hfirst, rfl⟩
  exact h.concat (Nat.max_eq_right (by omega)).symm h.lowest h.nodup (fun _ _ => rfl) hdev
    (htracks.keep (Or.inl hstale))

theorem tracksFs_new (hd : ∀ s ∈ done, s.diskSuper.fsid ≠ scan.diskSuper.fsid)
    (htaken : ∀ s ∈ taken, s ∈ done)
    (hfs : fsDevices = noteDevid ⟨scan.diskSuper.fsid, scan.devid, scan.diskSuper.generation, u64Max,
      [newDevice scan.path scan.diskSuper scan.devid]⟩ scan.diskSuper.generation scan.devid) :
    TracksFs (done ++ [scan]) (taken ++ [scan]) scan.diskSuper.fsid fsDevices := by
  subst hfs
  have hn : ∀ device, device.1 = scan.diskSuper.fsid → scansOf device done = [] := by
    intro device hdev
    rw [scansOf, List.filter_eq_nil_iff]
    intro s hs hsa
    have hsa : s.device = device := by simpa using hsa
    exact hd s hs ((congrArg Prod.fst hsa).trans hdev)
  refine ⟨?_, ?_, by simp, ?_, ?_⟩
  · rw [values_concat (·.diskSuper.generation), noteDevid_latestTrans, Nat.max_self]
    refine ⟨Set.mem_insert _ _, ?_⟩
    rintro g (rfl | ⟨s, hs, hf, -⟩)
    · exact Nat.le_refl _
    · exact absurd hf (hd s hs)
  · rw [values_concat Scan.devid, noteDevid_lowestDevid, Nat.min_eq_left scan.devid_le]
    refine ⟨Set.mem_insert _ _, ?_⟩
    rintro d (rfl | ⟨s, hs, hf, -⟩)
    · exact Nat.le_refl _
    · exact absurd hf (hd s (htaken s hs))
  · intro devid uuid hlookup
    rw [noteDevid_devices, lookupKey_cons] at hlookup
    by_cases hid : (newDevice scan.path scan.diskSuper scan.devid).ident = (devid, uuid)
    · rw [if_pos hid] at hlookup
      exact absurd hlookup (by simp)
    · rw [scansOf_concat_of_ident_ne done (Ne.symm hid)]
      exact hn _ rfl
  · intro devid uuid device hlookup
    rw [noteDevid_devices, lookupKey_cons] at hlookup
    by_cases hid : (newDevice scan.path scan.diskSuper scan.devid).ident = (devid, uuid)
    · rw [if_pos hid, Option.some_inj] at hlookup
      obtain ⟨rfl, rfl⟩ := Prod.mk.injEq .. ▸ hid
      have hown : scansOf scan.device (done ++ [scan]) = [scan] := by
        rw [scansOf_concat_self, hn _ rfl, List.nil_append]
      rw [← hlookup]
      exact hown.symm ▸ ⟨rfl, by rw [lastFresh_singleton]; rfl⟩
    · rw [if_neg hid] at hlookup
      exact absurd hlookup (by simp [lookupKey])

end

section

variable {done taken : List Scan} {scan : Scan}

section

variable (h : Tracks done taken fsUuids)

include h

/-- Only the devices of the scan's own `fsid` are looked up differently. -/
theorem Tracks.concat {fsUuids' : List FsDevices}
    {taken' : List Scan} (htaken : taken' = taken ∨ taken' = taken ++ [scan])
    (hnd : (fsUuids'.map FsDevices.fsid).Nodup)
    (hsa : ∀ fsid, fsid ≠ scan.diskSuper.fsid →
      lookupKey FsDevices.fsid fsid fsUuids' = lookupKey FsDevices.fsid fsid fsUuids)
    (hlookup : lookupKey FsDevices.fsid scan.diskSuper.fsid fsUuids' = some fsDevices)
    (hnew : TracksFs (done ++ [scan]) taken' scan.diskSuper.fsid fsDevices) :
    Tracks (done ++ [scan]) taken' fsUuids' := by
  refine ⟨hnd, ?_, ?_⟩
  · intro fsid hn s hs
    have hf : fsid ≠ scan.diskSuper.fsid := by
      rintro rfl
      rw [hlookup] at hn
      exact absurd hn (by simp)
    rw [hsa fsid hf] at hn
    rcases List.mem_append.mp hs with hs | hs
    · exact h.absent fsid hn s hs
    · rw [List.mem_singleton.mp hs]
      exact hf.symm
  · intro fsid other hso
    by_cases hf : fsid = scan.diskSuper.fsid
    · rw [hf, hlookup, Option.some_inj] at hso
      rw [hf, ← hso]
      exact hnew
    · rw [hsa fsid hf] at hso
      exact (h.present fsid other hso).other (Ne.symm hf) htaken

variable {device : Device}

theorem Tracks.update {g : List Device → List Device}
    (hfs : lookupKey FsDevices.fsid scan.diskSuper.fsid fsUuids = some fsDevices)
    (hnd : ((g fsDevices.devices).map Device.ident).Nodup)
    (hs : ∀ ident, ident ≠ (scan.devid, scan.diskSuper.uuid) → lookupKey Device.ident ident (g fsDevices.devices) = lookupKey Device.ident ident fsDevices.devices)
    (hlkp : lookupKey Device.ident (scan.devid, scan.diskSuper.uuid) (g fsDevices.devices) = some device)
    (htracks : TracksDevice (scansOf scan.device done ++ [scan]) device) :
    Tracks (done ++ [scan]) (taken ++ [scan])
      (fsUuids.modify (fsUuids.findIdx fun fsDevices => fsDevices.fsid = scan.diskSuper.fsid)
        fun fsDevices => noteDevid { fsDevices with devices := g fsDevices.devices }
          scan.diskSuper.generation scan.devid) := by
  have hkey : ∀ x : FsDevices, (noteDevid { x with devices := g x.devices }
      scan.diskSuper.generation scan.devid).fsid = x.fsid := fun x => noteDevid_fsid _ _ _
  have hnew : TracksFs (done ++ [scan]) (taken ++ [scan]) scan.diskSuper.fsid (noteDevid
      { fsDevices with devices := g fsDevices.devices } scan.diskSuper.generation scan.devid) := by
    apply (h.present _ _ hfs).concat (by rw [noteDevid_latestTrans]) _ (by rwa [noteDevid_devices])
      (by rwa [noteDevid_devices]) (by rwa [noteDevid_devices]) htracks
    rw [values_concat Scan.devid, noteDevid_lowestDevid]
    exact (h.present _ _ hfs).lowest.insert _
  apply h.concat (Or.inr rfl) _ _ _ hnew
  · rw [map_key_modify hkey]
    exact h.nodup
  · intro fsid hf
    rw [lookupKey_modify hkey, if_neg hf]
  · rw [lookupKey_modify hkey, if_pos rfl, hfs]
    rfl

theorem Tracks.insert (htaken : ∀ s ∈ taken, s ∈ done)
    (hfs : lookupKey FsDevices.fsid scan.diskSuper.fsid fsUuids = none)
    (hnew : fsDevices = noteDevid ⟨scan.diskSuper.fsid, scan.devid, scan.diskSuper.generation,
      u64Max, [newDevice scan.path scan.diskSuper scan.devid]⟩ scan.diskSuper.generation
        scan.devid) :
    Tracks (done ++ [scan]) (taken ++ [scan]) (fsDevices :: fsUuids) := by
  have hf : fsDevices.fsid = scan.diskSuper.fsid := by rw [hnew, noteDevid_fsid]
  apply h.concat (Or.inr rfl) _ _ _ (tracksFs_new (h.absent _ hfs) htaken hnew)
  · rw [List.map_cons, List.nodup_cons, hf]
    exact ⟨lookupKey_eq_none.mp hfs, h.nodup⟩
  · intro fsid hne
    rw [lookupKey_cons, hf, if_neg hne.symm]
  · rw [lookupKey_cons, if_pos hf]

theorem Tracks.reject (hfs : lookupKey FsDevices.fsid scan.diskSuper.fsid fsUuids = some fsDevices)
    (hdev : lookupKey Device.ident (scan.devid, scan.diskSuper.uuid) fsDevices.devices = some device)
    (hstale : scan.diskSuper.generation < device.generation) :
    Tracks (done ++ [scan]) taken fsUuids :=
  h.concat (Or.inl rfl) h.nodup (fun _ _ => rfl) hfs ((h.present _ _ hfs).reject hdev hstale)

theorem Tracks.step (htaken : ∀ s ∈ taken, s ∈ done) (scan : Scan) :
    Tracks (done ++ [scan]) (if (scan.add fsUuids).1 = 0 then taken ++ [scan] else taken)
      (scan.add fsUuids).2 := by
  rw [Scan.add, deviceListAdd, findFsid_eq]
  cases hfs : lookupKey FsDevices.fsid scan.diskSuper.fsid fsUuids with
  | none => exact h.insert htaken hfs rfl
  | some fsDevices =>
    have htracks := h.present _ _ hfs
    simp only [findDevice_eq]
    cases hdev : lookupKey Device.ident (scan.devid, scan.diskSuper.uuid) fsDevices.devices with
    | none =>
      have hfirst : TracksDevice (scansOf scan.device done ++ [scan])
          (newDevice scan.path scan.diskSuper scan.devid) := by
        rw [show scansOf scan.device done = [] from htracks.absent _ _ hdev, List.nil_append]
        exact ⟨rfl, by rw [lastFresh_singleton]; rfl⟩
      apply h.update hfs (g := (newDevice scan.path scan.diskSuper scan.devid :: ·)) _ _ _ hfirst
      · rw [List.map_cons, List.nodup_cons]
        exact ⟨lookupKey_eq_none.mp hdev, htracks.nodup⟩
      · intro ident hid
        rw [lookupKey_cons]
        exact if_neg (Ne.symm hid)
      · rw [lookupKey_cons]
        exact if_pos rfl
    | some device =>
      have hown := htracks.present _ _ _ hdev
      by_cases hn : device.name = some scan.path
      · simp only [if_pos hn]
        exact h.update hfs (g := id) htracks.nodup (fun _ _ => rfl) hdev (hown.keep (Or.inr hn))
      · simp only [if_neg hn]
        by_cases hstale : scan.diskSuper.generation < device.generation
        · simp only [if_pos hstale]
          exact h.reject hfs hdev hstale
        · simp only [if_neg hstale]
          have hid : ∀ dev : Device, ({ dev with name := some scan.path } : Device).ident =
            dev.ident := fun _ => rfl
          apply h.update hfs (g := (renameDevice · scan.devid scan.diskSuper.uuid scan.path)) _ _ _
            (hown.fresh (Nat.not_lt.mp hstale))
          · rw [renameDevice_eq, map_key_modify hid]
            exact htracks.nodup
          · intro ident hne
            rw [renameDevice_eq, lookupKey_modify hid, if_neg hne]
          · rw [renameDevice_eq, lookupKey_modify hid, if_pos rfl, hdev]
            rfl

end

end

theorem Tracks.run {done taken : List Scan} (h : Tracks done taken fsUuids)
    (htaken : ∀ s ∈ taken, s ∈ done) (scans : List Scan) :
    Tracks (done ++ scans) (taken ++ accepted fsUuids scans) (scanAll fsUuids scans) := by
  induction scans generalizing done taken fsUuids with
  | nil => simpa [scanAll, accepted] using h
  | cons scan rest ih =>
    have hst := h.step htaken scan
    have hmem : ∀ s ∈ taken ++ [scan], s ∈ done ++ [scan] := by
      refine List.forall_mem_append.mpr ⟨fun s hs => ?_, fun s hs => by simp [hs]⟩
      exact List.mem_append_left _ (htaken s hs)
    rw [accepted]
    by_cases hret : (scan.add fsUuids).1 = 0
    · rw [if_pos hret] at hst ⊢
      have hr := ih hst hmem
      rwa [List.append_assoc, List.append_assoc] at hr
    · rw [if_neg hret] at hst ⊢
      have hr := ih hst fun s hs => List.mem_append_left _ (htaken s hs)
      rwa [List.append_assoc] at hr

/-- After every sequence of scans each `fsid` and each device stands once in the list, with the
generation of its first scan and the path of the last scan that is not older. -/
theorem scanAll_tracks (scans : List Scan) :
    Tracks scans (accepted [] scans) (scanAll [] scans) := tracks_nil.run (by simp) scans

/-! ## When a sequence of scans keeps the newest devices -/

/-- The scan has the highest generation of all scans of its device. -/
def Newest (scans : List Scan) (scan : Scan) : Prop :=
  scan ∈ scans ∧ ∀ other ∈ scans, other.device = scan.device →
    other.diskSuper.generation ≤ scan.diskSuper.generation

instance (scans : List Scan) (scan : Scan) : Decidable (Newest scans scan) :=
  inferInstanceAs (Decidable (_ ∧ _))

/-- The device of a scan is in the list once, with the path of one of its newest scans, and the
numbers of its `fsid` are right. -/
def KeepsNewest (scans : List Scan) (scan : Scan) : Prop :=
  ∃ fsDevices, ((scanAll [] scans).filter fun fs => fs.fsid = scan.diskSuper.fsid) = [fsDevices] ∧
    IsGreatest {g | ∃ s ∈ scans, s.diskSuper.fsid = scan.diskSuper.fsid ∧
      s.diskSuper.generation = g} fsDevices.latestTrans ∧
    IsLeast {d | ∃ s ∈ accepted [] scans, s.diskSuper.fsid = scan.diskSuper.fsid ∧ s.devid = d}
      fsDevices.lowestDevid ∧
    ∃ device, (fsDevices.devices.filter fun dev =>
        (dev.devid, dev.uuid) = (scan.devid, scan.diskSuper.uuid)) = [device] ∧
      ∃ newest, newest.device = scan.device ∧ Newest scans newest ∧ device.name = some newest.path

/-- The path of the last scan of the device that is not older than its first one is the path of a
newest scan. -/
def NewestLast (scans : List Scan) (scan : Scan) : Prop :=
  ∃ newest ∈ scansOf scan.device scans, Newest scans newest ∧
    (lastFresh (scansOf scan.device scans)).map (·.path) = some newest.path

instance (scans : List Scan) (scan : Scan) : Decidable (NewestLast scans scan) :=
  inferInstanceAs (Decidable (∃ newest ∈ _, _))

variable {scans : List Scan} {scan : Scan}

theorem tracks_of_mem (hscan : scan ∈ scans) : ∃ fsDevices device,
      ((scanAll [] scans).filter fun fs => fs.fsid = scan.diskSuper.fsid) = [fsDevices] ∧
      TracksFs scans (accepted [] scans) scan.diskSuper.fsid fsDevices ∧
      (fsDevices.devices.filter fun dev =>
        (dev.devid, dev.uuid) = (scan.devid, scan.diskSuper.uuid)) = [device] ∧
      (lastFresh (scansOf scan.device scans)).map (·.path) = device.name := by
  have htracks := tracks_nil.run (by simp) scans
  cases hfs : lookupKey FsDevices.fsid scan.diskSuper.fsid (scanAll [] scans) with
  | none => exact absurd rfl (htracks.absent _ hfs scan hscan)
  | some fsDevices =>
    have hfsTracks := htracks.present _ _ hfs
    cases hdev : lookupKey Device.ident (scan.devid, scan.diskSuper.uuid) fsDevices.devices with
    | none =>
      have hn := hfsTracks.absent _ _ hdev
      rw [scansOf, List.filter_eq_nil_iff] at hn
      exact absurd (decide_eq_true rfl) (hn scan hscan)
    | some device =>
      exact ⟨fsDevices, device, filter_key_eq_singleton htracks.nodup hfs, hfsTracks,
        filter_key_eq_singleton hfsTracks.nodup hdev,
        (hfsTracks.present _ _ _ hdev).name⟩

theorem keepsNewest_iff (hscan : scan ∈ scans) :
    KeepsNewest scans scan ↔ NewestLast scans scan := by
  obtain ⟨fsDevices, device, hfs, htracks, hdev, hn⟩ := tracks_of_mem hscan
  constructor
  · rintro ⟨fsDevices', hfs', -, -, device', hdev', newest, hs, hnewest, hp⟩
    obtain rfl : fsDevices = fsDevices' := List.singleton_inj.mp (hfs.symm.trans hfs')
    obtain rfl : device = device' := List.singleton_inj.mp (hdev.symm.trans hdev')
    refine ⟨newest, List.mem_filter.mpr ⟨hnewest.1, decide_eq_true hs⟩, hnewest, ?_⟩
    rw [hn, hp]
  · rintro ⟨newest, hmem, hnewest, hp⟩
    have hs : newest.device = scan.device := by simpa using (List.mem_filter.mp hmem).2
    exact ⟨fsDevices, hfs, htracks.latest, htracks.lowest, device, hdev, newest, hs, hnewest,
      by rw [← hn, hp]⟩

/-- The generation of a device is that of its first scan, so a scan is compared with the first one
and not with the newest one. -/
theorem scanAll_keepsNewest_iff (scans : List Scan) :
    (∀ scan ∈ scans, KeepsNewest scans scan) ↔ ∀ scan ∈ scans, NewestLast scans scan :=
  forall₂_congr fun _ hscan => keepsNewest_iff hscan

def scanAt (path : String) (generation : ℕ) : Scan where
  path := path
  diskSuper := ⟨7, generation, "", 1, 0, 9, 0, 0⟩
  devid := 1
  devid_le := by decide

/-- A newer copy of a device gives way to one that is only newer than the first copy. -/
theorem scanAll_drops_newest :
    let scans := [scanAt "/dev/sda" 5, scanAt "/dev/sdb" 9, scanAt "/dev/sdc" 6]
    ((scanAll [] scans).flatMap fun fs => fs.devices.map (·.name)) = [some "/dev/sdc"] ∧
      ¬ ∀ scan ∈ scans, KeepsNewest scans scan := by
  refine ⟨by decide, fun h => ?_⟩
  have hfirst := h (scanAt "/dev/sda" 5) (by decide)
  rw [keepsNewest_iff (by decide)] at hfirst
  revert hfirst
  decide

end Btrfs.DeviceScan
