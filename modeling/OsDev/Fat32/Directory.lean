import OsDev.Fat32.Table
import OsDev.Fat32.Names

open os_dev.ata os_dev.libc

namespace os_dev.fat32

/-- The test the search loops make on an entry that is not an end mark. Only
    `fat32_resolve_path` skips long-name entries before comparing. -/
def matches_name (skip_lfn : Bool) (name : List UInt8 × List UInt8) (e : fat32_dir_entry_t) : Bool :=
  e.name0 != 0xE5 && !(skip_lfn && e.attributes == FAT_ATTR_LFN) &&
    (e.name == name.1 && e.ext == name.2)

/-- The entry loop of the searches over one sector, with `n` entries to go: it
    leaves the sector at a `0x00` entry and stops at the first `hit`. -/
def scan_entries (hit : fat32_dir_entry_t → Bool) (buf : Sector) : ℕ → ℕ → Option ℕ
  | 0, _ => none
  | n + 1, i =>
    if (dir_entry buf i).name0 = 0 then none
    else if hit (dir_entry buf i) then some i
    else scan_entries hit buf n (i + 1)

/-- The first `hit` of a directory sector. -/
def hit_scan (hit : fat32_dir_entry_t → Bool) (buf : Sector) : Option ℕ := scan_entries hit buf 16 0

/-- The sector loop over one cluster, with `n` sectors to go, that stops where
    the entry loop `scan` does. Read errors are ignored, so the buffer is carried
    along. -/
def scan_sectors (v : Volume) (d : Disk) (scan : Sector → Option ℕ) (lba : ℕ) :
    ℕ → ℕ → Sector → Option (ℕ × ℕ) × Sector
  | 0, _, buf => (none, buf)
  | n + 1, s, buf =>
    let buf := (ata_read_sectors v.drive d (u32 (lba + s)) buf).2
    match scan buf with
    | some i => (some (s, i), buf)
    | none => scan_sectors v d scan lba n (s + 1) buf

/-- Where a search stopped: the cluster, the sector in it, the entry in the
    sector, and the sector buffer at that point. -/
structure Found where
  cluster : ℕ
  s : ℕ
  i : ℕ
  buf : Sector

/-- The entry a search stopped at. -/
def Found.entry (f : Found) : fat32_dir_entry_t := dir_entry f.buf f.i

/-- `while (search_cluster != FAT32_EOC && !found)`: the search loop shared by
    `fat32_resolve_path`, `fat32_open`, `fat32_unlink` and `fat32_rmdir`. The
    outer `none` means that it has not ended after `fuel` tests of its condition. -/
def search (v : Volume) (d : Disk) (hit : fat32_dir_entry_t → Bool) :
    ℕ → ℕ → Sector → Option (Option Found)
  | 0, _, _ => none
  | fuel + 1, cluster, buf =>
    if cluster = FAT32_EOC then some none
    else
      match scan_sectors v d (hit_scan hit) (cluster_to_lba v cluster) v.bpb.sectors_per_cluster 0 buf with
      | (some (s, i), buf) => some (some ⟨cluster, s, i, buf⟩)
      | (none, buf) => search v d hit fuel (get_next_cluster v d cluster) buf

/-- A search for a name from the first cluster of a directory. -/
def find_name (v : Volume) (d : Disk) (skip_lfn : Bool) (fuel cluster : ℕ) (name : CStr) :
    Option (Option Found) :=
  search v d (matches_name skip_lfn (standardize_name name)) fuel cluster v.uninit

/-- The entry loop of `create_entry`: the first end mark or deleted entry. -/
def scan_free (buf : Sector) : ℕ → ℕ → Option ℕ
  | 0, _ => none
  | n + 1, i =>
    if (dir_entry buf i).name0 = 0 ∨ (dir_entry buf i).name0 = 0xE5 then some i
    else scan_free buf n (i + 1)

/-- The first usable entry of a directory sector. -/
def free_scan (buf : Sector) : Option ℕ := scan_free buf 16 0

/-- The cluster loop of `create_entry`: fill the first usable slot, growing the
    directory by a cleared cluster when the chain has none. -/
def create_loop (v : Volume) (name : CStr) (attr : UInt8) (first_cluster size : ℕ) :
    ℕ → Disk → ℕ → Sector → Option (Int × Disk)
  | 0, _, _, _ => none
  | fuel + 1, d, current_cluster, buf =>
    if current_cluster = FAT32_EOC then some (-1, d)
    else
      let lba := cluster_to_lba v current_cluster
      match scan_sectors v d free_scan lba v.bpb.sectors_per_cluster 0 buf with
      | (some (s, i), buf) =>
        let buf := put_entry buf i (standardize_base name) (standardize_ext name) attr first_cluster size
        some (0, (ata_write_sectors v.drive d (u32 (lba + s)) buf).2)
      | (none, buf) =>
        let next := get_next_cluster v d current_cluster
        if next = FAT32_EOC then
          let extra := find_free_cluster v d
          if extra = 0 then some (-1, d)
          else
            create_loop v name attr first_cluster size fuel (append_cluster v d current_cluster extra)
              extra zero_buf
        else create_loop v name attr first_cluster size fuel d next buf

/-- Create a directory entry in the directory that starts at `parent_cluster`. -/
def create_entry (fuel : ℕ) (v : Volume) (d : Disk) (parent_cluster : ℕ) (name : CStr)
    (attr : UInt8) (first_cluster size : ℕ) : Option (Int × Disk) :=
  create_loop v name attr first_cluster size fuel d parent_cluster v.uninit

/-- One call of the listing callback. -/
structure Report where
  name : CStr
  attr : UInt8
  size : ℕ
  cluster : ℕ
  deriving DecidableEq

/-- The arguments `fat32_list_dir` passes to its callback for an entry. -/
def report (e : fat32_dir_entry_t) : Report :=
  ⟨format_name e.name e.ext, e.attributes, e.file_size, e.first_cluster⟩

/-- The entry loop of `fat32_list_dir`: the calls made, and whether an end mark
    ended the whole listing. -/
def list_entries (buf : Sector) : ℕ → ℕ → List Report × Bool
  | 0, _ => ([], false)
  | n + 1, i =>
    let e := dir_entry buf i
    if e.name0 = 0 then ([], true)
    else
      let rest := list_entries buf n (i + 1)
      if e.name0 = 0xE5 ∨ e.attributes = FAT_ATTR_LFN then rest
      else (report e :: rest.1, rest.2)

/-- The sector loop of `fat32_list_dir`: the calls made, and the value returned
    when the listing ended inside the cluster. -/
def list_sectors (v : Volume) (d : Disk) (lba : ℕ) : ℕ → ℕ → Sector → List Report × Option Int × Sector
  | 0, _, buf => ([], none, buf)
  | n + 1, s, buf =>
    let read := ata_read_sectors v.drive d (u32 (lba + s)) buf
    if read.1 ≠ 0 then ([], some (-1), read.2)
    else
      match list_entries read.2 16 0 with
      | (calls, true) => (calls, some 0, read.2)
      | (calls, false) =>
        let rest := list_sectors v d lba n (s + 1) read.2
        (calls ++ rest.1, rest.2)

/-- The cluster loop of `fat32_list_dir`. -/
def list_loop (v : Volume) (d : Disk) : ℕ → ℕ → Sector → Option (Int × List Report)
  | 0, _, _ => none
  | fuel + 1, cluster, buf =>
    if cluster ≠ FAT32_EOC ∧ cluster ≠ FAT32_BAD then
      match list_sectors v d (cluster_to_lba v cluster) v.bpb.sectors_per_cluster 0 buf with
      | (calls, some rc, _) => some (rc, calls)
      | (calls, none, buf) => do
        let rest ← list_loop v d fuel (get_next_cluster v d cluster) buf
        return (rest.1, calls ++ rest.2)
    else some (0, [])

/-- List a directory: the return value and the callback's arguments in order. -/
def fat32_list_dir (fuel : ℕ) (st : Fat32) (cluster : ℕ) : Option (Int × List Report) :=
  if st.mounted = false then some (-1, [])
  else
    let cluster := if cluster = 0 then st.fat32_cwd_cluster else cluster
    let cluster := if cluster = 0 then st.vol.bpb.root_cluster else cluster
    list_loop st.vol st.disk fuel cluster st.vol.uninit

/-- The component loop of `fat32_resolve_path`. -/
def resolve_parts (v : Volume) (d : Disk) (fuel : ℕ) : ℕ → List CStr → Option ℕ
  | current_cluster, [] => some current_cluster
  | current_cluster, part :: rest => do
    match ← find_name v d true fuel current_cluster part with
    | none => return 0
    | some f => resolve_parts v d fuel f.entry.first_cluster rest

/-- The components of a path, with one leading slash skipped. -/
def components (path : CStr) : List CStr :=
  path_parts [] (if path.head? = some slash then path.tail else path)

/-- The cluster at which a non-empty path starts. -/
def start_cluster (st : Fat32) (path : CStr) : ℕ :=
  if path.head? = some slash then st.vol.bpb.root_cluster else st.fat32_cwd_cluster

/-- Resolve a path to its first cluster, 0 when there is none. -/
def fat32_resolve_path (fuel : ℕ) (st : Fat32) (path : CStr) : Option ℕ :=
  if st.mounted = false then some 0
  else if path = [] then some st.vol.bpb.root_cluster
  else resolve_parts st.vol st.disk fuel (start_cluster st path) (components path)

end os_dev.fat32
