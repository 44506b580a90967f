import OsDev.Lib.LittleEndian

namespace os_dev.ata

/-- A sector buffer: `ATA_SECTOR_SIZE` bytes. -/
abbrev Sector := Fin 512 → UInt8

/-- Byte `i` of a buffer. Every caller stays below 512. -/
def Sector.byte (sector : Sector) (i : ℕ) : UInt8 :=
  if h : i < 512 then sector ⟨i, h⟩ else 0

/-- The buffer whose byte `i` is `f i`. -/
def Sector.ofFn (f : ℕ → UInt8) : Sector := fun i => f i

@[simp] theorem Sector.byte_ofFn {f : ℕ → UInt8} {i : ℕ} (hi : i < 512) :
    (Sector.ofFn f).byte i = f i := by
  simp [Sector.byte, Sector.ofFn, hi]

/-- A buffer cleared by `memset(buf, 0, 512)`. -/
def zero_buf : Sector := fun _ => 0

@[simp] theorem zero_buf_byte (i : ℕ) : zero_buf.byte i = 0 := by
  unfold Sector.byte zero_buf
  split <;> rfl

/-- The driver variables that decide whether a transfer succeeds: the ramdisk
    path of `ata.c`, whose only failure is an address past `ramdisk_size`. -/
structure Drive where
  drive_present : Bool
  ramdisk_size : ℕ

/-- The contents of the device, one sector for each logical block address. -/
abbrev Disk := ℕ → Sector

/-- The number of whole sectors, as `ata_init` computes it for a ramdisk. -/
def Drive.total_sectors (drive : Drive) : ℕ := drive.ramdisk_size / 512

/-- The transfer of the sector at `lba` stays inside the ramdisk. -/
def Drive.Holds (drive : Drive) (lba : ℕ) : Prop :=
  drive.drive_present = true ∧ lba < drive.total_sectors

instance (drive : Drive) (lba : ℕ) : Decidable (drive.Holds lba) :=
  inferInstanceAs (Decidable (_ ∧ _))

/-- `ata_read_sectors(lba, 1, buffer)`: the return code and the buffer after the
    call. A failed read leaves the buffer as it was. -/
def ata_read_sectors (drive : Drive) (disk : Disk) (lba : ℕ) (buffer : Sector) : Int × Sector :=
  if drive.drive_present = false then (-1, buffer)
  else if lba * 512 + 512 > drive.ramdisk_size then (-1, buffer)
  else (0, disk lba)

/-- `ata_write_sectors(lba, 1, buffer)`: the return code and the device after the
    call. A failed write changes nothing. -/
def ata_write_sectors (drive : Drive) (disk : Disk) (lba : ℕ) (buffer : Sector) : Int × Disk :=
  if drive.drive_present = false then (-1, disk)
  else if lba * 512 + 512 > drive.ramdisk_size then (-1, disk)
  else (0, Function.update disk lba buffer)

theorem Drive.past_end_iff (drive : Drive) (lba : ℕ) :
    lba * 512 + 512 > drive.ramdisk_size ↔ ¬ lba < drive.total_sectors := by
  unfold Drive.total_sectors
  omega

theorem read_of_holds {drive : Drive} {disk : Disk} {lba : ℕ} {buffer : Sector}
    (h : drive.Holds lba) : ata_read_sectors drive disk lba buffer = (0, disk lba) := by
  obtain ⟨hpresent, hsize⟩ := h
  simp [ata_read_sectors, hpresent, Drive.past_end_iff, hsize]

theorem read_of_not_holds {drive : Drive} {disk : Disk} {lba : ℕ} {buffer : Sector}
    (h : ¬ drive.Holds lba) : ata_read_sectors drive disk lba buffer = (-1, buffer) := by
  unfold ata_read_sectors Drive.Holds at *
  cases hpresent : drive.drive_present with
  | false => simp
  | true =>
    simp only [hpresent, true_and] at h
    simp [Drive.past_end_iff, h]

theorem write_of_holds {drive : Drive} {disk : Disk} {lba : ℕ} {buffer : Sector}
    (h : drive.Holds lba) :
    ata_write_sectors drive disk lba buffer = (0, Function.update disk lba buffer) := by
  obtain ⟨hpresent, hsize⟩ := h
  simp [ata_write_sectors, hpresent, Drive.past_end_iff, hsize]

theorem write_of_not_holds {drive : Drive} {disk : Disk} {lba : ℕ} {buffer : Sector}
    (h : ¬ drive.Holds lba) : ata_write_sectors drive disk lba buffer = (-1, disk) := by
  unfold ata_write_sectors Drive.Holds at *
  cases hpresent : drive.drive_present with
  | false => simp
  | true =>
    simp only [hpresent, true_and] at h
    simp [Drive.past_end_iff, h]

/-- Only the addressed sector can change. -/
theorem write_of_ne {drive : Drive} {disk : Disk} {lba other : ℕ} {buffer : Sector}
    (h : other ≠ lba) : (ata_write_sectors drive disk lba buffer).2 other = disk other := by
  by_cases hholds : drive.Holds lba
  · simp [write_of_holds hholds, h]
  · simp [write_of_not_holds hholds]

end os_dev.ata
