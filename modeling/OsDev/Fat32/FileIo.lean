import OsDev.Fat32.Ops

open os_dev.ata os_dev.libc

namespace os_dev.fat32

/-- The slot of a valid handle number. -/
def handle (st : Fat32) (fd : Int) : Option (Fin 8) :=
  if h : 0 ≤ fd ∧ fd < 8 then
    let i : Fin 8 := ⟨fd.toNat, by omega⟩
    if (st.open_files i).valid then some i else none
  else none

theorem handle_valid {st : Fat32} {fd : Int} {i : Fin 8} (h : handle st fd = some i) : (st.open_files i).valid = true := by
  unfold handle at h
  split at h
  case isTrue =>
    simp only at h
    split at h
    case isTrue hvalid =>
      cases h
      exact hvalid
    case isFalse => cases h
  case isFalse => cases h

def cluster_size (v : Volume) : ℕ := v.bpb.sectors_per_cluster * 512

/-- Bytes `offset, …, offset + count - 1` of a sector buffer. -/
def Sector.slice (buf : Sector) (offset count : ℕ) : List UInt8 :=
  (List.range count).map fun k => buf.byte (offset + k)

/-- `memcpy(buf + offset, bytes, …)` into a sector buffer. -/
def Sector.blit (buf : Sector) (offset : ℕ) (bytes : List UInt8) : Sector := Sector.ofFn fun j =>
  if offset ≤ j ∧ j < offset + bytes.length then bytes.getD (j - offset) 0 else buf.byte j

def fat32_close (st : Fat32) (fd : Int) : Fat32 :=
  if h : 0 ≤ fd ∧ fd < 8 then
    let i : Fin 8 := ⟨fd.toNat, by omega⟩
    { st with open_files := Function.update st.open_files i { st.open_files i with valid := false } }
  else st

/-- The chain walk of `fat32_seek`. -/
def seek_walk (v : Volume) (d : Disk) : ℕ → ℕ → ℕ
  | 0, cluster => cluster
  | n + 1, cluster =>
    if cluster = FAT32_EOC ∨ cluster = FAT32_BAD then cluster
    else seek_walk v d n (get_next_cluster v d cluster)

/-- Seek; `none` is the division by a zero cluster size. -/
def fat32_seek (st : Fat32) (fd : Int) (pos : ℕ) : Option (Int × Fat32) :=
  match handle st fd with
  | none => some (-1, st)
  | some i =>
    let file := st.open_files i
    let pos := if pos > file.file_size then file.file_size else pos
    let size := cluster_size st.vol
    if size = 0 then none
    else
      let file := { file with
        current_cluster := seek_walk st.vol st.disk (pos / size) file.first_cluster
        cluster_offset := pos % size
        position := pos }
      some (0, { st with open_files := Function.update st.open_files i file })

/-- The loop of `fat32_read_at` with `len - bytes_read` bytes to deliver, at least one for
    each of at most `n` rounds: the bytes delivered, the cluster and the offset in it
    afterwards. It breaks at a cluster number that `stops`. -/
def read_at_loop (v : Volume) (d : Disk) (stops : ℕ → Bool) (len : ℕ) : ℕ → ℕ → ℕ → ℕ → List UInt8 × ℕ × ℕ
  | 0, cur_cluster, cluster_off, _ => ([], cur_cluster, cluster_off)
  | n + 1, cur_cluster, cluster_off, bytes_read =>
    if bytes_read < len then
      if stops cur_cluster then ([], cur_cluster, cluster_off)
      else
        let sector_in_cluster := cluster_off / 512
        let off_in_sector := cluster_off % 512
        let can_read := min (512 - off_in_sector) (len - bytes_read)
        let lba := u32 (cluster_to_lba v cur_cluster + sector_in_cluster)
        let read := ata_read_sectors v.drive d lba v.uninit
        if read.1 ≠ 0 then ([], cur_cluster, cluster_off)
        else
          let cluster_off := u32 (cluster_off + can_read)
          let place := if cluster_off ≥ cluster_size v then (get_next_cluster v d cur_cluster, 0)
            else (cur_cluster, cluster_off)
          let rest := read_at_loop v d stops len n place.1 place.2 (bytes_read + can_read)
          (Sector.slice read.2 off_in_sector can_read ++ rest.1, rest.2)
    else ([], cur_cluster, cluster_off)

/-- The chain walk of `fat32_read_at`; `none` where it returns 0. -/
def read_at_walk (v : Volume) (d : Disk) : ℕ → ℕ → Option ℕ
  | 0, cluster => some cluster
  | n + 1, cluster =>
    if cluster = FAT32_EOC ∨ cluster = FAT32_BAD then none
    else read_at_walk v d n (get_next_cluster v d cluster)

def eoc_or_bad (cluster : ℕ) : Bool := cluster = FAT32_EOC ∨ cluster = FAT32_BAD

/-- Read up to `len` bytes from `offset` on, without the position of the handle: the return
    value, the bytes placed in the buffer and the state. `none` is the division by a zero
    cluster size. -/
def fat32_read_at (st : Fat32) (fd : Int) (offset len : ℕ) : Option (Int × List UInt8 × Fat32) :=
  match handle st fd with
  | none => some (-1, [], st)
  | some i =>
    let file := st.open_files i
    if offset ≥ file.file_size then some (0, [], st)
    else
      let len := if u32 (offset + len) > file.file_size then file.file_size - offset else len
      let size := cluster_size st.vol
      if size = 0 then none
      else
        match read_at_walk st.vol st.disk (offset / size) file.first_cluster with
        | none => some (0, [], st)
        | some cur_cluster =>
          let res := read_at_loop st.vol st.disk eoc_or_bad len len cur_cluster (offset % size) 0
          some (int32 res.1.length, res.1, st)

/-- The loop of `fat32_read` with `len - bytes_read` bytes to deliver, at least
    one for each of at most `n` rounds: the handle, the bytes delivered. -/
def read_loop (v : Volume) (d : Disk) (len : ℕ) :
    ℕ → fat32_file_t → ℕ → fat32_file_t × List UInt8
  | 0, file, _ => (file, [])
  | n + 1, file, bytes_read =>
    if bytes_read < len then
      if file.current_cluster = FAT32_EOC then (file, [])
      else
        let sector_in_cluster := file.cluster_offset / 512
        let offset_in_sector := file.cluster_offset % 512
        let can_read := min (512 - offset_in_sector) (len - bytes_read)
        let lba := u32 (cluster_to_lba v file.current_cluster + sector_in_cluster)
        let read := ata_read_sectors v.drive d lba v.uninit
        if read.1 ≠ 0 then (file, [])
        else
          let file := { file with
            position := u32 (file.position + can_read)
            cluster_offset := u32 (file.cluster_offset + can_read) }
          let file := if file.cluster_offset ≥ cluster_size v then
            { file with
              current_cluster := get_next_cluster v d file.current_cluster
              cluster_offset := 0 }
            else file
          let rest := read_loop v d len n file (bytes_read + can_read)
          (rest.1, Sector.slice read.2 offset_in_sector can_read ++ rest.2)
    else (file, [])

/-- Read up to `len` bytes: the return value, the bytes placed in the buffer and
    the state afterwards. -/
def fat32_read (st : Fat32) (fd : Int) (len : ℕ) : Int × List UInt8 × Fat32 :=
  match handle st fd with
  | none => (-1, [], st)
  | some i =>
    let file := st.open_files i
    if file.position ≥ file.file_size then (0, [], st)
    else
      let len := if u32 (file.position + len) > file.file_size then file.file_size - file.position
        else len
      let res := read_loop st.vol st.disk len len file 0
      (int32 res.2.length, res.2, { st with open_files := Function.update st.open_files i res.1 })

/-- `can_write`: the bytes up to the end of the sector, but no more than are left. -/
def can_write (file : fat32_file_t) (bytes : List UInt8) : ℕ :=
  min (512 - file.cluster_offset % 512) bytes.length

/-- The transfer in one round of the loop of `fat32_write`: the device, the handle
    and the sector buffer after it. -/
def write_chunk (v : Volume) (d : Disk) (file : fat32_file_t) (sector_buf : Sector) (bytes : List UInt8) :
    Disk × fat32_file_t × Sector :=
  let sector_in_cluster := file.cluster_offset / 512
  let offset_in_sector := file.cluster_offset % 512
  let lba := u32 (cluster_to_lba v file.current_cluster + sector_in_cluster)
  let sector_buf := if can_write file bytes < 512 then (ata_read_sectors v.drive d lba sector_buf).2
    else sector_buf
  let sector_buf := Sector.blit sector_buf offset_in_sector (bytes.take (can_write file bytes))
  ((ata_write_sectors v.drive d lba sector_buf).2,
    { file with
      position := u32 (file.position + can_write file bytes)
      cluster_offset := u32 (file.cluster_offset + can_write file bytes) },
    sector_buf)

/-- The end of a round: at a cluster boundary, move to the next cluster or
    allocate one. The flag is false when the volume is full and the loop breaks. -/
def write_advance (v : Volume) (d : Disk) (file : fat32_file_t) : Disk × fat32_file_t × Bool :=
  if file.cluster_offset ≥ cluster_size v then
    let next := get_next_cluster v d file.current_cluster
    if next = FAT32_EOC then
      let next := find_free_cluster v d
      if next = 0 then (d, file, false)
      else
        (append_cluster v d file.current_cluster next,
          { file with current_cluster := next, cluster_offset := 0 }, true)
    else (d, { file with current_cluster := next, cluster_offset := 0 }, true)
  else (d, file, true)

/-- The loop of `fat32_write` over the bytes still to write, at least one for
    each of at most `n` rounds: the device, the handle, the number written. -/
def write_loop (v : Volume) : ℕ → Disk → fat32_file_t → Sector → List UInt8 → Disk × fat32_file_t × ℕ
  | 0, d, file, _, _ => (d, file, 0)
  | n + 1, d, file, sector_buf, bytes =>
    if bytes = [] then (d, file, 0)
    else
      let chunk := write_chunk v d file sector_buf bytes
      let step := write_advance v chunk.1 chunk.2.1
      if step.2.2 then
        let rest := write_loop v n step.1 step.2.1 chunk.2.2 (bytes.drop (can_write file bytes))
        (rest.1, rest.2.1, can_write file bytes + rest.2.2)
      else (step.1, step.2.1, can_write file bytes)

/-- Write the size of a handle back into its directory entry. -/
def write_back_size (v : Volume) (d : Disk) (file : fat32_file_t) : Disk :=
  let lba := u32 (cluster_to_lba v file.dir_cluster + file.dir_entry_index / 16)
  let sector_buf := (ata_read_sectors v.drive d lba v.uninit).2
  (ata_write_sectors v.drive d lba (put_size sector_buf (file.dir_entry_index % 16) file.file_size)).2

/-- Write a buffer: the number of bytes written and the state afterwards. -/
def fat32_write (st : Fat32) (fd : Int) (bytes : List UInt8) : Int × Fat32 :=
  match handle st fd with
  | none => (-1, st)
  | some i =>
    let (d, file, bytes_written) :=
      write_loop st.vol bytes.length st.disk (st.open_files i) st.vol.uninit bytes
    if 0 < bytes_written ∧ file.position > file.file_size then
      let file := { file with file_size := file.position }
      (int32 bytes_written, { st with
        disk := write_back_size st.vol d file
        open_files := Function.update st.open_files i file })
    else
      (int32 bytes_written, { st with disk := d, open_files := Function.update st.open_files i file })

end os_dev.fat32
