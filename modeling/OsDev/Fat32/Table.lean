import OsDev.Fat32.Types

open os_dev.ata os_dev.libc little_endian

namespace os_dev.fat32

/-- First sector of a cluster. Cluster numbers 0 and 1 stand for the root. -/
def cluster_to_lba (v : Volume) (cluster : ℕ) : ℕ :=
  let cluster := if cluster < 2 then v.bpb.root_cluster else cluster
  -- `cluster - 2` wraps in 32 bits
  u32 (v.data_lba + (cluster + 0xFFFFFFFE) * v.bpb.sectors_per_cluster)

def get_next_cluster (v : Volume) (d : Disk) (cluster : ℕ) : ℕ :=
  let fat_offset := u32 (cluster * 4)
  let fat_sector := u32 (v.fat_lba + fat_offset / 512)
  let ent_offset := fat_offset % 512
  let read := ata_read_sectors v.drive d fat_sector v.uninit
  if read.1 ≠ 0 then FAT32_BAD
  else
    let next_cluster := le32 read.2.byte ent_offset &&& 0x0FFFFFFF
    if next_cluster ≥ 0x0FFFFFF8 then FAT32_EOC else next_cluster

def set_next_cluster (v : Volume) (d : Disk) (cluster next : ℕ) : Disk :=
  let fat_offset := u32 (cluster * 4)
  let fat_sector := u32 (v.fat_lba + fat_offset / 512)
  let ent_offset := fat_offset % 512
  let sector_buf := (ata_read_sectors v.drive d fat_sector v.uninit).2
  (ata_write_sectors v.drive d fat_sector
    (Sector.ofFn (put32 sector_buf.byte ent_offset next))).2

/-- The inner loop of `find_free_cluster` over the 128 words of one FAT sector. -/
def free_in_sector (buf : Sector) (s : ℕ) : Option ℕ :=
  (List.range 128).find? fun i =>
    (le32 buf.byte (4 * i) &&& 0x0FFFFFFF) = 0 ∧ 2 ≤ u32 (s * 128 + i)

/-- The outer loop with `n` sectors to go; a failed read leaves the words of the
    sector read before in the buffer. -/
def find_free_from (v : Volume) (d : Disk) : ℕ → ℕ → Sector → ℕ
  | 0, _, _ => 0
  | n + 1, s, buf =>
    let buf := (ata_read_sectors v.drive d (u32 (v.fat_lba + s)) buf).2
    match free_in_sector buf s with
    | some i => u32 (s * 128 + i)
    | none => find_free_from v d n (s + 1) buf

def find_free_cluster (v : Volume) (d : Disk) : ℕ :=
  find_free_from v d v.bpb.fat_size_32 0 v.uninit

/-- The loops that clear a freshly allocated cluster: `n` sectors from `lba + s` on. -/
def zero_sectors (v : Volume) (lba : ℕ) : ℕ → ℕ → Disk → Disk
  | 0, _, d => d
  | n + 1, s, d =>
    zero_sectors v lba n (s + 1) (ata_write_sectors v.drive d (u32 (lba + s)) zero_buf).2

/-- The growth of a chain in `create_entry` and `fat32_write`: link the free cluster
    `next` behind the last cluster and clear it. -/
def append_cluster (v : Volume) (d : Disk) (last next : ℕ) : Disk :=
  let d := set_next_cluster v d last next
  let d := set_next_cluster v d next FAT32_EOC
  zero_sectors v (cluster_to_lba v next) v.bpb.sectors_per_cluster 0 d

/-- The chain-freeing loop of `fat32_unlink` and `recursive_rm`; `none` when it
    has not ended after `fuel` tests of its condition. -/
def free_chain (v : Volume) : ℕ → Disk → ℕ → Option Disk
  | 0, _, _ => none
  | fuel + 1, d, cluster =>
    if cluster ≠ 0 ∧ cluster < 0x0FFFFFF8 then
      free_chain v fuel (set_next_cluster v d cluster FAT32_FREE) (get_next_cluster v d cluster)
    else some d

end os_dev.fat32
