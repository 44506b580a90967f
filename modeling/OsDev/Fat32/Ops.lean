import OsDev.Fat32.Directory

open os_dev.ata os_dev.libc

namespace os_dev.fat32

/-- Mount the volume at `lba_start`. -/
def fat32_mount (st : Fat32) (lba_start : ℕ) : Int × Fat32 :=
  let st := { st with partition_lba := lba_start }
  let read := ata_read_sectors st.vol.drive st.disk st.partition_lba st.vol.uninit
  if read.1 ≠ 0 then (-1, st)
  else
    let bpb := bpb_of_sector read.2
    let st := { st with vol := { st.vol with bpb } }
    if bpb.bytes_per_sector ≠ 512 then (-1, st)
    else
      let fat_lba := u32 (st.partition_lba + bpb.reserved_sectors)
      let data_lba := u32 (fat_lba + u32 (bpb.num_fats * bpb.fat_size_32))
      (0, { st with
        vol := { st.vol with fat_lba, data_lba }
        fat32_cwd_cluster := bpb.root_cluster
        fat32_cwd_path := [slash]
        mounted := true
        open_files := fun i => { st.open_files i with valid := false } })

/-- The directory and the name that `fat32_mkdir` and `fat32_rmdir` take from a
    path; the flag says that the only slash is the leading one. -/
def parent_and_name (fuel : ℕ) (st : Fat32) (path : CStr) : Option (ℕ × CStr × Bool) :=
  match split_last_slash path with
  | none => some (st.fat32_cwd_cluster, path, false)
  | some ([], dir_name) => some (st.vol.bpb.root_cluster, dir_name, true)
  | some (parent_path, dir_name) => do
    return (← fat32_resolve_path fuel st parent_path, dir_name, false)

/-- The name fields of the two entries every directory starts with. -/
def dot_name : List UInt8 := dot :: List.replicate 7 space
def dotdot_name : List UInt8 := dot :: dot :: List.replicate 6 space
def blank_ext : List UInt8 := List.replicate 3 space

/-- First sector of a new directory. -/
def dot_sector (new_cluster dot_dot_cluster : ℕ) : Sector :=
  put_entry (put_entry zero_buf 0 dot_name blank_ext FAT_ATTR_DIRECTORY new_cluster 0)
    1 dotdot_name blank_ext FAT_ATTR_DIRECTORY dot_dot_cluster 0

/-- The cluster initialisation of `fat32_mkdir`. -/
def init_directory (v : Volume) (d : Disk) (new_cluster dot_dot_cluster : ℕ) : Disk :=
  let lba := cluster_to_lba v new_cluster
  let d := (ata_write_sectors v.drive d lba (dot_sector new_cluster dot_dot_cluster)).2
  zero_sectors v lba (v.bpb.sectors_per_cluster - 1) 1 d

def fat32_mkdir (fuel : ℕ) (st : Fat32) (path : CStr) : Option (Int × Fat32) :=
  if st.mounted = false then some (-1, st)
  else do
    let (parent_cluster, dir_name, leading) ← parent_and_name fuel st path
    if parent_cluster = 0 ∧ leading = false then return (-1, st)
    let parent_cluster := if parent_cluster = 0 then st.vol.bpb.root_cluster else parent_cluster
    if (← fat32_resolve_path fuel st path) ≠ 0 then return (-1, st)
    let new_cluster := find_free_cluster st.vol st.disk
    if new_cluster = 0 then return (-1, st)
    let d := set_next_cluster st.vol st.disk new_cluster FAT32_EOC
    let dot_dot_cluster := if parent_cluster = st.vol.bpb.root_cluster then 0 else parent_cluster
    let d := init_directory st.vol d new_cluster dot_dot_cluster
    let (rc, d) ← create_entry fuel st.vol d parent_cluster dir_name FAT_ATTR_DIRECTORY new_cluster 0
    return (if rc ≠ 0 then -1 else 0, { st with disk := d })

/-- What `recursive_rm` does with a live entry; `rm` stands for the recursive call. -/
def rm_entry (v : Volume) (fuel : ℕ) (rm : Disk → ℕ → Option Disk) (d : Disk) (e : fat32_dir_entry_t) :
    Option Disk :=
  if e.isDirectory then rm d e.first_cluster else free_chain v fuel d e.first_cluster

/-- The entry loop of `recursive_rm` over one sector. -/
def rm_entries (v : Volume) (fuel : ℕ) (rm : Disk → ℕ → Option Disk) (buf : Sector) :
    ℕ → ℕ → Disk → Option Disk
  | 0, _, d => some d
  | n + 1, i, d =>
    let e := dir_entry buf i
    if e.name0 = 0 then some d
    else if e.name0 = 0xE5 ∨ e.name0 = dot ∨ e.attributes = FAT_ATTR_LFN then
      rm_entries v fuel rm buf n (i + 1) d
    else do
      let d ← rm_entry v fuel rm d e
      rm_entries v fuel rm buf n (i + 1) d

/-- The sector loop of `recursive_rm`. -/
def rm_sectors (v : Volume) (fuel : ℕ) (rm : Disk → ℕ → Option Disk) (lba : ℕ) :
    ℕ → ℕ → Sector → Disk → Option (Sector × Disk)
  | 0, _, buf, d => some (buf, d)
  | n + 1, s, buf, d => do
    let buf := (ata_read_sectors v.drive d (u32 (lba + s)) buf).2
    let d ← rm_entries v fuel rm buf 16 0 d
    rm_sectors v fuel rm lba n (s + 1) buf d

/-- The cluster loop of `recursive_rm`. The fuel bounds the nesting of the calls
    as well as the iterations of each loop. -/
def rm_loop (v : Volume) : ℕ → Disk → ℕ → Sector → Option Disk
  | 0, _, _, _ => none
  | fuel + 1, d, current_cluster, buf =>
    if current_cluster ≠ FAT32_EOC ∧ current_cluster ≠ FAT32_BAD ∧ current_cluster ≠ 0 then do
      let (buf, d) ← rm_sectors v fuel (fun d c => rm_loop v fuel d c v.uninit)
        (cluster_to_lba v current_cluster) v.bpb.sectors_per_cluster 0 buf d
      rm_loop v fuel (set_next_cluster v d current_cluster FAT32_FREE)
        (get_next_cluster v d current_cluster) buf
    else some d

def recursive_rm (fuel : ℕ) (v : Volume) (d : Disk) (cluster : ℕ) : Option Disk :=
  rm_loop v fuel d cluster v.uninit

/-- Write the sector of a found entry back with the entry marked deleted. -/
def delete_found (v : Volume) (d : Disk) (f : Found) : Disk :=
  (ata_write_sectors v.drive d (u32 (cluster_to_lba v f.cluster + f.s)) (mark_deleted f.buf f.i)).2

def fat32_rmdir (fuel : ℕ) (st : Fat32) (path : CStr) : Option (Int × Fat32) :=
  if st.mounted = false then some (-1, st)
  else if path = [slash] then some (-1, st)
  else do
    let cluster ← fat32_resolve_path fuel st path
    if cluster = 0 then return (-1, st)
    let (parent_cluster, dir_name, _) ← parent_and_name fuel st path
    let d ← recursive_rm fuel st.vol st.disk cluster
    match ← find_name st.vol d false fuel parent_cluster dir_name with
    | none => return (0, { st with disk := d })
    | some f => return (0, { st with disk := delete_found st.vol d f })

/-- The first unused slot of the handle table. -/
def free_handle (open_files : Fin 8 → fat32_file_t) : Option (Fin 8) :=
  ([0, 1, 2, 3, 4, 5, 6, 7] : List (Fin 8)).find? fun i => !(open_files i).valid

/-- The handle `fat32_open` fills in before it looks for the directory entry. -/
def fresh_handle (old : fat32_file_t) (path : CStr) (target_cluster : ℕ) : fat32_file_t :=
  { old with
    valid := true
    first_cluster := target_cluster
    current_cluster := target_cluster
    position := 0
    cluster_offset := 0
    file_size := 0
    name := (base_name path).take (FAT32_MAX_FILENAME - 1) }

/-- The directory `fat32_open` and `fat32_unlink` assume a path to lie in. -/
def guessed_parent (st : Fat32) (path : CStr) : ℕ :=
  if path.head? = some slash then st.vol.bpb.root_cluster else st.fat32_cwd_cluster

/-- The second half of `fat32_open`: take a handle and locate the entry. -/
def open_handle (fuel : ℕ) (st : Fat32) (path : CStr) (target_cluster : ℕ) : Option (Int × Fat32) :=
  match free_handle st.open_files with
  | none => some (-1, st)
  | some fd => do
    let file := fresh_handle (st.open_files fd) path target_cluster
    match ← find_name st.vol st.disk false fuel (guessed_parent st path) (base_name path) with
    | none =>
      return (-1, { st with open_files := Function.update st.open_files fd { file with valid := false } })
    | some f =>
      let file := { file with
        file_size := f.entry.file_size
        dir_cluster := f.cluster
        dir_entry_index := f.s * 16 + f.i }
      return (fd.val, { st with open_files := Function.update st.open_files fd file })

/-- The create branch of `fat32_open`: the return value of `create_entry`, the
    cluster taken (0 when the volume is full) and the device afterwards. -/
def create_file (fuel : ℕ) (st : Fat32) (path : CStr) : Option (Int × ℕ × Disk) :=
  let target_cluster := find_free_cluster st.vol st.disk
  if target_cluster = 0 then some (-1, 0, st.disk)
  else do
    let d := set_next_cluster st.vol st.disk target_cluster FAT32_EOC
    let d := zero_sectors st.vol (cluster_to_lba st.vol target_cluster)
      st.vol.bpb.sectors_per_cluster 0 d
    let (rc, d) ← create_entry fuel st.vol d (guessed_parent st path) (base_name path)
      FAT_ATTR_ARCHIVE target_cluster 0
    return (rc, target_cluster, d)

/-- The mode character of `fat32_open` that creates missing files. -/
def mode_w : UInt8 := 0x77
def mode_r : UInt8 := 0x72

def fat32_open (fuel : ℕ) (st : Fat32) (path : CStr) (mode : UInt8) : Option (Int × Fat32) := do
  let target_cluster ← fat32_resolve_path fuel st path
  if target_cluster = 0 ∧ mode = mode_w then
    let (rc, target_cluster, d) ← create_file fuel st path
    let st := { st with disk := d }
    if rc ≠ 0 then return (-1, st)
    open_handle fuel st path target_cluster
  else if target_cluster = 0 then return (-1, st)
  else open_handle fuel st path target_cluster

def fat32_unlink (fuel : ℕ) (st : Fat32) (path : CStr) : Option (Int × Fat32) :=
  if st.mounted = false then some (-1, st)
  else do
    match ← find_name st.vol st.disk false fuel (guessed_parent st path) path with
    | none => return (-1, st)
    | some f =>
      if f.entry.isDirectory then return (-1, st)
      let d := delete_found st.vol st.disk f
      let d ← free_chain st.vol fuel d f.entry.first_cluster
      return (0, { st with disk := d })

/-- The update of the current directory once its path has been resolved. -/
def change_cwd (st : Fat32) (path : CStr) (cluster : ℕ) : Option (Int × Fat32) :=
  if cluster = 0 then some (-1, st)
  else if path.head? = some slash then
    some (0, { st with
      fat32_cwd_path := path.take (FAT32_MAX_PATH - 1), fat32_cwd_cluster := cluster })
  else if path = [dot] then some (0, st)
  else if path = [dot, dot] then
    if st.fat32_cwd_path = [slash] then some (0, st)
    else
      match split_last_slash st.fat32_cwd_path with
      | some ([], _) => some (0, { st with fat32_cwd_path := [slash], fat32_cwd_cluster := cluster })
      | some (front, _) => some (0, { st with fat32_cwd_path := front, fat32_cwd_cluster := cluster })
      -- without a slash in the path `*last = 0` would write through a null pointer
      | none => none
  else
    let sep := if st.fat32_cwd_path ≠ [slash] then [slash] else []
    some (0, { st with
      fat32_cwd_path := st.fat32_cwd_path ++ sep ++ path, fat32_cwd_cluster := cluster })

def fat32_chdir (fuel : ℕ) (st : Fat32) (path : CStr) : Option (Int × Fat32) := do
  change_cwd st path (← fat32_resolve_path fuel st path)

end os_dev.fat32
