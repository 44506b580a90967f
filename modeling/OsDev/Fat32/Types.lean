import OsDev.Ata
import OsDev.Libc.Str

open os_dev.ata os_dev.libc little_endian

namespace os_dev.fat32

def FAT_ATTR_DIRECTORY : UInt8 := 0x10
def FAT_ATTR_ARCHIVE : UInt8 := 0x20
def FAT_ATTR_LFN : UInt8 := 0x0F

def FAT32_EOC : ℕ := 0x0FFFFFF8
def FAT32_FREE : ℕ := 0
def FAT32_BAD : ℕ := 0x0FFFFFF7

def FAT32_MAX_FILENAME : ℕ := 12
def FAT32_MAX_PATH : ℕ := 256

/-- Arithmetic of `uint32_t`. -/
def u32 (n : ℕ) : ℕ := n % 2 ^ 32

/-- A `uint32_t` returned as an `int`. -/
def int32 (n : ℕ) : Int := if n < 2 ^ 31 then n else n - 2 ^ 32

/-- The BIOS parameter block: the fields that the driver reads, and all bytes of
    the packed record. -/
structure fat32_bpb_t where
  bytes_per_sector : ℕ
  sectors_per_cluster : ℕ
  reserved_sectors : ℕ
  num_fats : ℕ
  fat_size_32 : ℕ
  root_cluster : ℕ
  raw : List UInt8
  deriving DecidableEq

/-- The packed boot sector as the `memcpy` of `fat32_mount` sees it. -/
def bpb_of_sector (sector : Sector) : fat32_bpb_t where
  bytes_per_sector := le16 sector.byte 0x0B
  sectors_per_cluster := (sector.byte 0x0D).toNat
  reserved_sectors := le16 sector.byte 0x0E
  num_fats := (sector.byte 0x10).toNat
  fat_size_32 := le32 sector.byte 0x24
  root_cluster := le32 sector.byte 0x2C
  raw := (List.range 90).map sector.byte

/-- A directory entry: the fields of the packed 32-byte record that the driver reads. -/
structure fat32_dir_entry_t where
  name : List UInt8
  ext : List UInt8
  attributes : UInt8
  first_cluster_high : ℕ
  first_cluster_low : ℕ
  file_size : ℕ
  deriving DecidableEq

/-- `entries[i].name[0]`, which also marks free and deleted entries. -/
def fat32_dir_entry_t.name0 (entry : fat32_dir_entry_t) : UInt8 := entry.name.headD 0

def fat32_dir_entry_t.first_cluster (entry : fat32_dir_entry_t) : ℕ :=
  entry.first_cluster_high <<< 16 ||| entry.first_cluster_low

def fat32_dir_entry_t.isDirectory (entry : fat32_dir_entry_t) : Bool :=
  entry.attributes &&& FAT_ATTR_DIRECTORY != 0

/-- Entry `i` of a directory sector. -/
def dir_entry (buf : Sector) (i : ℕ) : fat32_dir_entry_t where
  name := (List.range 8).map fun k => buf.byte (32 * i + k)
  ext := (List.range 3).map fun k => buf.byte (32 * i + 8 + k)
  attributes := buf.byte (32 * i + 11)
  first_cluster_high := le16 buf.byte (32 * i + 20)
  first_cluster_low := le16 buf.byte (32 * i + 26)
  file_size := le32 buf.byte (32 * i + 28)

/-- The assignments of `create_entry` and `fat32_mkdir` to entry `i`; the time
    and date bytes of the record keep what they held. -/
def put_entry (buf : Sector) (i : ℕ) (name ext : List UInt8) (attr : UInt8)
    (first_cluster size : ℕ) : Sector := Sector.ofFn fun j =>
  if j / 32 = i then
    let k := j % 32
    if k < 8 then name.getD k 0
    else if k < 11 then ext.getD (k - 8) 0
    else if k = 11 then attr
    else if 20 ≤ k ∧ k < 22 then byteOf (first_cluster >>> 16 &&& 0xFFFF) (k - 20)
    else if 26 ≤ k ∧ k < 28 then byteOf (first_cluster &&& 0xFFFF) (k - 26)
    else if 28 ≤ k then byteOf size (k - 28)
    else buf.byte j
  else buf.byte j

/-- `entries[i].name[0] = 0xE5`. -/
def mark_deleted (buf : Sector) (i : ℕ) : Sector := Sector.ofFn fun j =>
  if j = 32 * i then 0xE5 else buf.byte j

/-- `entries[i].file_size = size`. -/
def put_size (buf : Sector) (i size : ℕ) : Sector := Sector.ofFn (put32 buf.byte (32 * i + 28) size)

/-- An open file. -/
structure fat32_file_t where
  valid : Bool
  first_cluster : ℕ
  current_cluster : ℕ
  cluster_offset : ℕ
  file_size : ℕ
  position : ℕ
  dir_cluster : ℕ
  dir_entry_index : ℕ
  name : CStr
  deriving DecidableEq

/-- What the driver caches about the mounted volume, with the drive it lies on.
    `uninit` stands for the indeterminate bytes of a sector buffer on the stack
    before its first successful read. -/
structure Volume where
  drive : Drive
  bpb : fat32_bpb_t
  fat_lba : ℕ
  data_lba : ℕ
  uninit : Sector

/-- The static variables of `fat32.c` and the contents of the device. -/
structure Fat32 where
  vol : Volume
  disk : Disk
  partition_lba : ℕ
  mounted : Bool
  open_files : Fin 8 → fat32_file_t
  fat32_cwd_cluster : ℕ
  fat32_cwd_path : CStr

end os_dev.fat32
