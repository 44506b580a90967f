import OsDev.Drivers.AtaPio
import OsDev.Drivers.AtaDetect
import OsDev.Libc.Str
import OsDev.Fat32.Ops

open pio_disk little_endian os_dev.libc

namespace os_dev.ata_pio

/-- The sector starts with the parameter block of a FAT32 volume. -/
def is_fat32_bpb (sector : List UInt8) : Bool :=
  let byte i := sector.getD i 0
  if byte 0x42 ≠ 0x28 ∧ byte 0x42 ≠ 0x29 then false
  else if le16 byte 0x0B ≠ 512 then false
  else (List.range 8).map (fun i => byte (0x52 + i)) = ascii "FAT32   "

/-- The type of partition `i` in a master boot record, and where it starts. -/
def partition_type (sector : List UInt8) (i : ℕ) : UInt8 := sector.getD (446 + 16 * i + 4) 0

def start_lba (sector : List UInt8) (i : ℕ) : UInt32 := UInt32.ofNat (le32 (fun k => sector.getD k 0) (446 + 16 * i + 8))

def is_fat32_partition (sector : List UInt8) (i : ℕ) : Bool := partition_type sector i = 0x0B ∨ partition_type sector i = 0x0C

def has_boot_signature (sector : List UInt8) : Bool := sector.getD 510 0 = 0x55 ∧ sector.getD 511 0 = 0xAA

/-- The loop over the partitions, up to the first with a FAT32 volume. -/
def scan_partitions (sector : List UInt8) : List ℕ → Driver → Option UInt32 × Driver
  | [], st => (none, st)
  | i :: is, st =>
    if is_fat32_partition sector i then
      let ((code, p_sector), st) := ata_read_sectors st (start_lba sector i) 1
      if code = 0 ∧ is_fat32_bpb p_sector then (some (start_lba sector i), st) else scan_partitions sector is st
    else scan_partitions sector is st

/-- What `ata_init` does on a real drive. -/
def find_volume (st : Driver) : Option UInt32 × Driver :=
  let ((code, sector), st) := ata_read_sectors st 0 1
  if code = 0 then
    if is_fat32_bpb sector then (some 0, st)
    else if has_boot_signature sector then scan_partitions sector (List.range 4) st
    else (none, st)
  else (none, st)

/-- The rest of `ata_init`, where the probing has found a real drive or not and the boot loader has loaded a ramdisk or not. -/
def init_storage (real_drive ramdisk_loaded : Bool) (st : Driver) : (Int × UInt32) × Driver :=
  let (found, st) := if real_drive then find_volume { st with drive_present := true } else (none, st)
  match found with
  | some start => ((0, start), st)
  | none =>
    let st := if real_drive then { st with drive_present := false } else st
    if ramdisk_loaded then ((0, 0), { st with ramdisk_mode := true, drive_present := true }) else ((-1, 0), st)

/-- The driver behind the probing, which has chosen one of the controllers at `buses` and one of its drives. -/
def Driver.settle (st : Driver) (det : ata.Detect) (buses : ℕ → Bus) : Driver :=
  { st with active_drive_sel := UInt8.ofNat det.active_drive_sel, bus := buses det.active_base_port }

/-- The result with the partition's offset, and the driver after the call. The ports deliver `ports` to the probing, which
    leaves the controllers as `buses`. -/
def ata_init (ports : ata.Ports) (det : ata.Detect) (buses : ℕ → Bus) (ramdisk_loaded : Bool) (st : Driver) :
    (Int × UInt32) × Driver :=
  let (code, det) := ata.ata_detect_real_drive ports det
  init_storage (code ≠ 0) ramdisk_loaded (st.settle det buses)

/-- There is a FAT32 volume from the sector on. -/
def Storage.fat32_at (s : Storage) (lba : UInt32) : Bool := is_fat32_bpb (slice s.bytes (512 * s.sector lba) 512)

/-- Where the partitions start that are said to hold FAT32. -/
def Storage.partitions (s : Storage) : List UInt32 :=
  ((List.range 4).filter (is_fat32_partition (slice s.bytes 0 512))).map (start_lba (slice s.bytes 0 512))

/-- The volume to boot from: the whole drive, or its first partition with a FAT32 volume. -/
def Storage.volume (s : Storage) : Option UInt32 :=
  if s.fat32_at 0 then some 0
  else if has_boot_signature (slice s.bytes 0 512) then s.partitions.find? s.fat32_at
  else none

/-- The drive has a first sector, and its partitions start on the drive. -/
structure Storage.Readable (s : Storage) : Prop where
  first : s.InRange 0 1
  partitions : ∀ start ∈ s.partitions, s.InRange start 1

variable {st : Driver}

/-- A driver that has only read in between. -/
structure Read (st st' : Driver) : Prop where
  good : st'.Good
  storage : st'.storage = st.storage
  image : (⟨st'.ramdisk, st'.ramdisk_size, false⟩ : Storage) = ⟨st.ramdisk, st.ramdisk_size, false⟩

theorem Read.trans {st₁ st₂ : Driver} (h : Read st st₁) (h' : Read st₁ st₂) : Read st st₂ :=
  ⟨h'.good, h'.storage.trans h.storage, h'.image.trans h.image⟩

theorem read_image (st : Driver) (lba : UInt32) (count : UInt8) :
    (ata_read_sectors st lba count).2.ramdisk = st.ramdisk ∧ (ata_read_sectors st lba count).2.ramdisk_size = st.ramdisk_size := by
  rw [ata_read_sectors]
  simp only
  split_ifs <;> exact ⟨rfl, rfl⟩

theorem read_sector (h : st.Good) {lba : UInt32} (hrange : st.storage.InRange lba 1) (hwraps : st.storage.wraps = true) :
    ∃ st', ata_read_sectors st lba 1 = ((0, slice st.storage.bytes (512 * st.storage.sector lba) 512), st') ∧
      Read st st' := by
  have hcall := call_refines (r := .read lba 1) h hrange
  have hserve : st.storage.call (.read lba 1) =
      ((0, slice st.storage.bytes (512 * st.storage.sector lba) 512), st.storage) := if_pos (hrange hwraps).2
  have hresult := hcall.result
  have hstorage := hcall.storage
  rw [hserve] at hresult hstorage
  obtain ⟨hramdisk, hsize⟩ := read_image st lba 1
  exact ⟨_, Prod.ext hresult rfl, hcall.good, hstorage, by rw [hramdisk, hsize]⟩

theorem scan_partitions_eq (is : List ℕ) (h : st.Good) (hwraps : st.storage.wraps = true) (sector : List UInt8)
    (hrange : ∀ i ∈ is, is_fat32_partition sector i = true → st.storage.InRange (start_lba sector i) 1) :
    ∃ st', scan_partitions sector is st =
        (((is.filter (is_fat32_partition sector)).map (start_lba sector)).find? st.storage.fat32_at, st') ∧
      Read st st' := by
  induction is generalizing st with
  | nil => exact ⟨st, rfl, h, rfl, rfl⟩
  | cons i is ih =>
    have hrest := fun j hj => hrange j (List.mem_cons_of_mem i hj)
    rw [scan_partitions]
    by_cases htype : is_fat32_partition sector i = true
    · obtain ⟨st₁, hread, hone⟩ := read_sector h (hrange i List.mem_cons_self htype) hwraps
      rw [if_pos htype, hread, List.filter_cons_of_pos htype, List.map_cons]
      by_cases hfat : st.storage.fat32_at (start_lba sector i) = true
      · exact ⟨st₁, by rw [List.find?_cons_of_pos hfat]; exact if_pos ⟨rfl, hfat⟩, hone⟩
      · obtain ⟨st', hscan, hothers⟩ := @ih st₁ hone.good (hone.storage ▸ hwraps) (by rwa [hone.storage])
        rw [hone.storage] at hscan
        refine ⟨st', ?_, hone.trans hothers⟩
        rw [List.find?_cons_of_neg hfat, ← hscan]
        exact if_neg fun hboth => hfat hboth.2
    · rw [if_neg htype, List.filter_cons_of_neg htype]
      exact ih h hwraps hrest

theorem find_volume_eq (h : st.Good) (hwraps : st.storage.wraps = true) (hread : st.storage.Readable) :
    ∃ st', find_volume st = (st.storage.volume, st') ∧ Read st st' := by
  obtain ⟨st₁, hfirst, hone⟩ := read_sector h hread.first hwraps
  have hzero : st.storage.sector 0 = 0 := by
    rw [Storage.sector]
    exact if_pos hwraps
  rw [find_volume, hfirst, Storage.volume, Storage.fat32_at, hzero, Nat.mul_zero]
  by_cases hraw : is_fat32_bpb (slice st.storage.bytes 0 512) = true
  · exact ⟨st₁, by rw [if_pos hraw]; exact (if_pos rfl).trans (if_pos hraw), hone⟩
  · by_cases hsignature : has_boot_signature (slice st.storage.bytes 0 512) = true
    · obtain ⟨st', hscan, hothers⟩ := scan_partitions_eq (List.range 4) hone.good (hone.storage ▸ hwraps)
        (slice st.storage.bytes 0 512) fun i hi htype => by
          rw [hone.storage]
          exact hread.partitions _ (List.mem_map_of_mem (List.mem_filter.mpr ⟨hi, htype⟩))
      rw [hone.storage] at hscan
      refine ⟨st', ?_, hone.trans hothers⟩
      rw [if_neg hraw, if_pos hsignature, Storage.partitions, ← hscan]
      exact (if_pos rfl).trans ((if_neg hraw).trans (if_pos hsignature))
    · refine ⟨st₁, ?_, hone⟩
      rw [if_neg hraw, if_neg hsignature]
      exact (if_pos rfl).trans ((if_neg hraw).trans (if_neg hsignature))

/-- A driver with no storage yet, and a controller that is idle and whose drive answers within the waits. -/
structure Driver.Fresh (st : Driver) : Prop where
  absent : st.drive_present = false
  mode : st.ramdisk_mode = false
  idle : st.bus.transfer = .idle
  free : st.bus.busy = 0
  answers : ∀ n, st.bus.delays n ≤ WAIT_BUDGET

/-- One of the two drives of the controller is selected. -/
def Driver.Selected (st : Driver) : Prop := st.active_drive_sel = 0xE0 ∨ st.active_drive_sel = 0xF0

theorem Driver.Fresh.good (h : st.Fresh) (hsel : st.Selected) : ({ st with drive_present := true } : Driver).Good :=
  ⟨rfl, hsel, h.idle, h.free, h.answers⟩

/-- The probing selects a drive, or leaves the one that is selected. -/
theorem settle_selected {ports : ata.Ports} {det : ata.Detect} (hdet : det.active_drive_sel = 0xE0 ∨ det.active_drive_sel = 0xF0)
    (buses : ℕ → Bus) : (st.settle (ata.ata_detect_real_drive ports det).2 buses).Selected := by
  obtain hsel | hsel := @ata.scan_sel ports ata.slots det hdet
  · exact .inl (congrArg UInt8.ofNat hsel)
  · exact .inr (congrArg UInt8.ofNat hsel)

/-- The storage of the real drive. -/
def Driver.real (st : Driver) : Storage := ({ st with drive_present := true } : Driver).storage

def Driver.image (st : Driver) : Storage := ⟨st.ramdisk, st.ramdisk_size, false⟩

/-- A file system on the storage, before it is mounted. -/
structure On (fs : fat32.Fat32) (s : Storage) : Prop where
  drive : fs.vol.drive = s.drive
  disk : fs.disk = s.disk

/-- The driver serves a storage, with a volume from the sector on. -/
structure Serves (r : (Int × UInt32) × Driver) (s : Storage) (start : UInt32) : Prop where
  result : r.1 = (0, start)
  good : r.2.Good
  storage : r.2.storage = s

/-- The volume is mounted, with its own parameters. -/
def Mounts (fs : fat32.Fat32) (s : Storage) (start : ℕ) : Prop :=
  (fat32.fat32_mount fs start).1 = 0 ∧ (fat32.fat32_mount fs start).2.vol.bpb = fat32.bpb_of_sector (s.disk start)

/-- No call transfers anything. -/
structure NoStorage (r : (Int × UInt32) × Driver) : Prop where
  result : r.1.1 = -1
  fails : ∀ q : Request, (r.2.call q).1 = (-1, []) ∧ (r.2.call q).2 = r.2

theorem mounts_iff {fs : fat32.Fat32} {s : Storage} (hon : On fs s) (start : ℕ) :
    Mounts fs s start ↔ s.drive.Holds start ∧ (fat32.bpb_of_sector (s.disk start)).bytes_per_sector = 512 := by
  rw [Mounts, fat32.fat32_mount]
  by_cases hholds : s.drive.Holds start
  · by_cases hbytes : (fat32.bpb_of_sector (s.disk start)).bytes_per_sector = 512
    · simp [ata.read_of_holds hholds, hon.disk, hon.drive, hbytes, hholds]
    · simp [ata.read_of_holds hholds, hon.disk, hon.drive, hbytes]
  · simp [ata.read_of_not_holds hholds, hon.disk, hon.drive, hholds]

theorem getD_slice (s : Storage) (lba k : ℕ) : (slice s.bytes (512 * lba) 512).getD k 0 = (s.disk lba).byte k := by
  have hlen := length_slice s.bytes (512 * lba) 512
  by_cases hk : k < 512
  · rw [List.getD_eq_getElem _ _ (by omega), ata.Sector.byte, dif_pos hk]
    simp only [slice, List.getElem_map, List.getElem_range, Storage.disk]
  · rw [List.getD_eq_default _ _ (by omega), ata.Sector.byte, dif_neg hk]

theorem le16_of_is_fat32_bpb {sector : List UInt8} (h : is_fat32_bpb sector = true) :
    le16 (fun i => sector.getD i 0) 0x0B = 512 := by
  rw [is_fat32_bpb] at h
  simp only at h
  split_ifs at h with hsignature hsize
  exact not_not.mp hsize

/-- A volume that has been recognised can be mounted. -/
theorem bytes_of_fat32_at {s : Storage} {lba : ℕ} (h : is_fat32_bpb (slice s.bytes (512 * lba) 512) = true) :
    (fat32.bpb_of_sector (s.disk lba)).bytes_per_sector = 512 := by
  have hsame : le16 (fun i => (slice s.bytes (512 * lba) 512).getD i 0) 0x0B = le16 (s.disk lba).byte 0x0B :=
    congrArg (le16 · 0x0B) (funext (getD_slice s lba))
  exact hsame.symm.trans (le16_of_is_fat32_bpb h)

/-- The volume to boot from is one, and starts on the drive. -/
theorem volume_spec {s : Storage} {start : UInt32} (hread : s.Readable) (h : s.volume = some start) :
    s.fat32_at start = true ∧ s.InRange start 1 := by
  rw [Storage.volume] at h
  split_ifs at h with hraw hsignature
  · cases h
    exact ⟨hraw, hread.first⟩
  · exact ⟨List.find?_some h, hread.partitions start (List.mem_of_find?_eq_some h)⟩

theorem call_absent (h : st.drive_present = false) (q : Request) : (st.call q).1 = (-1, []) ∧ (st.call q).2 = st := by
  have hnot : ¬ st.drive_present = true := by
    rw [h]
    exact Bool.false_ne_true
  cases q with
  | read lba count =>
    rw [Driver.call, ata_read_sectors, if_pos hnot]
    exact ⟨rfl, rfl⟩
  | write lba count buffer =>
    rw [Driver.call, ata_write_sectors, if_pos hnot]
    exact ⟨rfl, rfl⟩

theorem real_wraps (h : st.Fresh) : st.real.wraps = true := by
  have hmode : ¬ ({ st with drive_present := true } : Driver).ramdisk_mode = true := by
    rw [h.mode]
    exact Bool.false_ne_true
  rw [Driver.real, drive_storage hmode]

/-- What is found on a real drive. -/
theorem init_storage_found (h : st.Fresh) (hsel : st.Selected) (hread : st.real.Readable) {start : UInt32}
    (hvolume : st.real.volume = some start) (ramdisk_loaded : Bool) :
    Serves (init_storage true ramdisk_loaded st) st.real start := by
  obtain ⟨st', hfind, hone⟩ := find_volume_eq (h.good hsel) (real_wraps h) hread
  have hfind' : find_volume { st with drive_present := true } = (some start, st') := hvolume ▸ hfind
  have hinit : init_storage true ramdisk_loaded st = ((0, start), st') := by
    rw [init_storage, if_pos rfl, hfind']
  rw [hinit]
  exact ⟨rfl, hone.good, hone.storage⟩

theorem ata_init_eq {ports : ata.Ports} {det : ata.Detect} {buses : ℕ → Bus} {found : Driver}
    (hsettle : st.settle (ata.ata_detect_real_drive ports det).2 buses = found) (ramdisk_loaded : Bool) :
    ata_init ports det buses ramdisk_loaded st = init_storage ((ata.ata_detect_real_drive ports det).1 ≠ 0) ramdisk_loaded found := by
  subst hsettle
  rfl

/-- A volume that has been found can be mounted. -/
theorem mounts_volume (h : st.Fresh) (hread : st.real.Readable) {start : UInt32} (hvolume : st.real.volume = some start)
    (hlow : start.toNat < 2 ^ 28) {fs : fat32.Fat32} (hon : On fs st.real) : Mounts fs st.real start.toNat := by
  refine (mounts_iff hon start.toNat).mpr ?_
  obtain ⟨hfat, hrange⟩ := volume_spec hread hvolume
  have hsector : st.real.sector start = start.toNat := by
    rw [Storage.sector, if_pos (real_wraps h), Nat.mod_eq_of_lt hlow]
  rw [Storage.fat32_at, hsector] at hfat
  have hholds := (holds_iff st.real start).mpr (hrange (real_wraps h)).2
  exact ⟨hsector ▸ hholds, bytes_of_fat32_at hfat⟩

variable (ports : ata.Ports) (det : ata.Detect) (buses : ℕ → Bus)

/-- The kernel boots from the first FAT32 volume of a real drive, which can be mounted. -/
theorem boots_from_drive (st : Driver) (ramdisk_loaded : Bool) (hdet : det.active_drive_sel = 0xE0 ∨ det.active_drive_sel = 0xF0)
    (hfound : (ata.ata_detect_real_drive ports det).1 ≠ 0) {found : Driver}
    (hsettle : st.settle (ata.ata_detect_real_drive ports det).2 buses = found) (h : found.Fresh) (hread : found.real.Readable)
    {start : UInt32} (hvolume : found.real.volume = some start) (hlow : start.toNat < 2 ^ 28) :
    Serves (ata_init ports det buses ramdisk_loaded st) found.real start ∧
      ∀ fs, On fs found.real → Mounts fs found.real start.toNat := by
  have hsel : found.Selected := hsettle ▸ settle_selected hdet buses
  rw [ata_init_eq hsettle, decide_eq_true hfound]
  exact ⟨init_storage_found h hsel hread hvolume ramdisk_loaded, fun fs hon => mounts_volume h hread hvolume hlow hon⟩

/-- A drive whose second partition has a FAT32 volume from sector 5 on. -/
def partitioned (a : ℕ) : UInt8 :=
  if a = 446 + 16 + 4 then 0x0C
  else if a = 446 + 16 + 8 then 5
  else if a = 510 then 0x55
  else if a = 511 then 0xAA
  else if a = 512 * 5 + 0x0C then 2
  else if a = 512 * 5 + 0x42 then 0x29
  else if 512 * 5 + 0x52 ≤ a then (ascii "FAT32   ").getD (a - (512 * 5 + 0x52)) 0
  else 0

def partitioned_drive : Driver :=
  { small_drive with drive_present := false, bus := { small_drive.bus with drives := fun _ => partitioned } }

theorem partitioned_fresh : partitioned_drive.Fresh := ⟨rfl, rfl, rfl, rfl, small_drive_good.answers⟩

theorem partitioned_readable : partitioned_drive.real.Readable where
  first := fun _ => by decide
  partitions := fun start hstart => by
    have hone : partitioned_drive.real.partitions = [5] := by decide +kernel
    rw [hone, List.mem_singleton] at hstart
    subst hstart
    exact fun _ => by decide

/-- Nothing but the slave of the first controller, which is ready at once. -/
def slave_ports : ata.Ports := ⟨fun k => if k = 0 then 0 else 0x58, fun _ => 1⟩

theorem slave_found : (ata.ata_detect_real_drive slave_ports ata.undetected).1 = 1 ∧
    (ata.ata_detect_real_drive slave_ports ata.undetected).2.active_drive_sel = 0xF0 := by
  decide +kernel

theorem boots_from_drive_partitioned :
    Serves (ata_init slave_ports ata.undetected (fun _ => partitioned_drive.bus) false partitioned_drive)
        partitioned_drive.real 5 ∧
      ∀ fs, On fs partitioned_drive.real → Mounts fs partitioned_drive.real (5 : UInt32).toNat := by
  have hsettle : partitioned_drive.settle (ata.ata_detect_real_drive slave_ports ata.undetected).2
      (fun _ => partitioned_drive.bus) = partitioned_drive := by
    rw [Driver.settle, slave_found.2]
    rfl
  exact boots_from_drive slave_ports ata.undetected _ partitioned_drive false (.inl rfl)
    (by rw [slave_found.1]; decide) hsettle partitioned_fresh partitioned_readable (by decide +kernel) (by decide)

/-- What happens where no volume is found. -/
theorem init_storage_fallback (h : st.Fresh) (hsel : st.Selected) {real_drive : Bool}
    (hnone : real_drive = true → st.real.Readable ∧ st.real.volume = none) (ramdisk_loaded : Bool) :
    if ramdisk_loaded then Serves (init_storage real_drive ramdisk_loaded st) st.image 0
    else NoStorage (init_storage real_drive ramdisk_loaded st) := by
  obtain ⟨st', hinit, habsent, hgood, himage⟩ : ∃ st', init_storage real_drive ramdisk_loaded st =
      (if ramdisk_loaded then ((0, 0), { st' with ramdisk_mode := true, drive_present := true }) else ((-1, 0), st')) ∧
      st'.drive_present = false ∧ ({ st' with drive_present := true } : Driver).Good ∧
      (⟨st'.ramdisk, st'.ramdisk_size, false⟩ : Storage) = st.image := by
    cases real_drive with
    | false => exact ⟨st, rfl, h.absent, h.good hsel, rfl⟩
    | true =>
      obtain ⟨hread, hvolume⟩ := hnone rfl
      obtain ⟨st', hfind, hone⟩ := find_volume_eq (h.good hsel) (real_wraps h) hread
      have hfind' : find_volume { st with drive_present := true } = (none, st') := hvolume ▸ hfind
      refine ⟨{ st' with drive_present := false }, ?_, rfl, ⟨rfl, hone.good.sel, hone.good.idle, hone.good.free,
        hone.good.answers⟩, hone.image⟩
      rw [init_storage, if_pos rfl, hfind']
      rfl
  rw [hinit]
  cases ramdisk_loaded with
  | false => exact ⟨rfl, call_absent habsent⟩
  | true =>
    exact ⟨rfl, ⟨rfl, hgood.sel, hgood.idle, hgood.free, hgood.answers⟩, himage⟩

/-- Without a FAT32 volume on a real drive, the kernel boots from the ramdisk, whatever is in it, and if there is none no
    transfer succeeds. -/
theorem boots_without_drive (st : Driver) (ramdisk_loaded : Bool) (hdet : det.active_drive_sel = 0xE0 ∨ det.active_drive_sel = 0xF0)
    {found : Driver} (hsettle : st.settle (ata.ata_detect_real_drive ports det).2 buses = found) (h : found.Fresh)
    (hnone : (ata.ata_detect_real_drive ports det).1 ≠ 0 → found.real.Readable ∧ found.real.volume = none) :
    if ramdisk_loaded then
      Serves (ata_init ports det buses ramdisk_loaded st) st.image 0 ∧ ∀ fs, On fs st.image → (Mounts fs st.image 0 ↔
        512 ≤ st.ramdisk_size ∧ (fat32.bpb_of_sector (st.image.disk 0)).bytes_per_sector = 512)
    else NoStorage (ata_init ports det buses ramdisk_loaded st) := by
  have hsel : found.Selected := hsettle ▸ settle_selected hdet buses
  have himage : found.image = st.image := hsettle ▸ rfl
  have hfallback := init_storage_fallback h hsel (fun hreal => hnone (of_decide_eq_true hreal)) ramdisk_loaded
  rw [← ata_init_eq hsettle, himage] at hfallback
  cases ramdisk_loaded with
  | false => exact hfallback
  | true =>
    refine ⟨hfallback, fun fs hon => (mounts_iff hon 0).trans (and_congr_left' ?_)⟩
    exact holds_iff st.image 0

/-- No controller at all. -/
def empty_ports : ata.Ports := ⟨fun _ => 0xFF, fun _ => 0xFFFF⟩

theorem boots_without_drive_empty :
    if true then
      Serves (ata_init empty_ports ata.undetected (fun _ => partitioned_drive.bus) true partitioned_drive)
          partitioned_drive.image 0 ∧ ∀ fs, On fs partitioned_drive.image →
        (Mounts fs partitioned_drive.image 0 ↔ 512 ≤ partitioned_drive.ramdisk_size ∧
          (fat32.bpb_of_sector (partitioned_drive.image.disk 0)).bytes_per_sector = 512)
    else NoStorage (ata_init empty_ports ata.undetected (fun _ => partitioned_drive.bus) true partitioned_drive) :=
  boots_without_drive empty_ports ata.undetected _ partitioned_drive true (.inl rfl) rfl
    ⟨rfl, rfl, rfl, rfl, small_drive_good.answers⟩ fun h => absurd (by decide +kernel) h

end os_dev.ata_pio
