import OsDev.Fat32.FileIo
import OsDev.Fat32.Table

open os_dev.ata os_dev.libc little_endian

namespace os_dev.fat32

variable {v : Volume} {d d₁ d' : Disk}

/-- Through what a sector is addressed: a cluster number and an offset in the cluster, the table
    word of a cluster, or a slot of a directory cluster. -/
inductive Place
  | data (cluster offset : ℕ)
  | table (cluster : ℕ)
  | entry (cluster index : ℕ)
  deriving DecidableEq

/-- The sector number handed to `ata_write_sectors`. -/
def Place.lba (v : Volume) : Place → ℕ
  | .data cluster offset => u32 (cluster_to_lba v cluster + offset / 512)
  | .table cluster => u32 (v.fat_lba + u32 (cluster * 4) / 512)
  | .entry cluster index => u32 (cluster_to_lba v cluster + index / 16)

/-- A call of `ata_write_sectors`: the device at that moment, the place and what is written there. -/
structure SectorWrite where
  device : Disk
  place : Place
  buf : Sector

/-- The device after the call. -/
def SectorWrite.performed (v : Volume) (w : SectorWrite) : Disk :=
  (ata_write_sectors v.drive w.device (w.place.lba v) w.buf).2

/-- The calls, one after the other, lead from the first device to the second. -/
inductive Performs (v : Volume) : Disk → List SectorWrite → Disk → Prop
  | nil {d : Disk} : Performs v d [] d
  | cons {w : SectorWrite} {ws : List SectorWrite} {d d₁ d' : Disk} (hdevice : w.device = d)
      (hperformed : w.performed v = d₁) (hrest : Performs v d₁ ws d') : Performs v d (w :: ws) d'

theorem Performs.append {ws ws' : List SectorWrite} (h : Performs v d ws d₁) (h' : Performs v d₁ ws' d') :
    Performs v d (ws ++ ws') d' := by
  induction h with
  | nil => exact h'
  | cons hdevice hperformed _ ih => exact .cons hdevice hperformed (ih h')

/-- The call in `set_next_cluster`. -/
def link_call (v : Volume) (d : Disk) (cluster next : ℕ) : SectorWrite where
  device := d
  place := .table cluster
  buf := Sector.ofFn (put32 (ata_read_sectors v.drive d (Place.lba v (.table cluster)) v.uninit).2.byte
    (u32 (cluster * 4) % 512) next)

theorem link_call_performed (d : Disk) (cluster next : ℕ) :
    (link_call v d cluster next).performed v = set_next_cluster v d cluster next := rfl

/-- The calls that clear the last `n` sectors of a cluster, from sector `s` on. -/
def clear_calls (v : Volume) (cluster : ℕ) : ℕ → ℕ → Disk → List SectorWrite
  | 0, _, _ => []
  | n + 1, s, d =>
    let w : SectorWrite := ⟨d, .data cluster (512 * s), zero_buf⟩
    w :: clear_calls v cluster n (s + 1) (w.performed v)

theorem clear_calls_performs (cluster n s : ℕ) (d : Disk) :
    Performs v d (clear_calls v cluster n s d) (zero_sectors v (cluster_to_lba v cluster) n s d) := by
  induction n generalizing s d with
  | zero => exact .nil
  | succ n ih =>
    have hstep : SectorWrite.performed v ⟨d, .data cluster (512 * s), zero_buf⟩ =
        (ata_write_sectors v.drive d (u32 (cluster_to_lba v cluster + s)) zero_buf).2 := by
      rw [SectorWrite.performed, Place.lba, Nat.mul_div_cancel_left s (by decide)]
    rw [zero_sectors, ← hstep]
    exact .cons rfl rfl (ih (s + 1) _)

/-- The calls in which a file grows from its cluster `last` by the cluster `next`. -/
def append_calls (v : Volume) (d : Disk) (last next : ℕ) : List SectorWrite :=
  let linked := set_next_cluster v d last next
  link_call v d last next :: link_call v linked next FAT32_EOC ::
    clear_calls v next v.bpb.sectors_per_cluster 0 (set_next_cluster v linked next FAT32_EOC)

theorem append_calls_performs (d : Disk) (last next : ℕ) :
    Performs v d (append_calls v d last next) (append_cluster v d last next) :=
  .cons rfl (link_call_performed d last next) (.cons rfl (link_call_performed _ next FAT32_EOC)
    (clear_calls_performs next v.bpb.sectors_per_cluster 0 _))

/-- The call that transfers the bytes of one round. -/
def chunk_call (v : Volume) (d : Disk) (file : fat32_file_t) (sector_buf : Sector) (bytes : List UInt8) : SectorWrite where
  device := d
  place := .data file.current_cluster file.cluster_offset
  buf := (write_chunk v d file sector_buf bytes).2.2

theorem chunk_call_performed (d : Disk) (file : fat32_file_t) (sector_buf : Sector) (bytes : List UInt8) :
    (chunk_call v d file sector_buf bytes).performed v = (write_chunk v d file sector_buf bytes).1 := rfl

/-- The calls at the end of a round. -/
def advance_calls (v : Volume) (d : Disk) (file : fat32_file_t) : List SectorWrite :=
  if file.cluster_offset ≥ cluster_size v ∧ get_next_cluster v d file.current_cluster = FAT32_EOC ∧
      find_free_cluster v d ≠ 0 then
    append_calls v d file.current_cluster (find_free_cluster v d)
  else []

theorem advance_calls_performs (d : Disk) (file : fat32_file_t) :
    Performs v d (advance_calls v d file) (write_advance v d file).1 := by
  unfold advance_calls write_advance
  by_cases hend : file.cluster_offset ≥ cluster_size v
  case neg =>
    rw [if_neg fun h => hend h.1, if_neg hend]
    exact .nil
  by_cases hlast : get_next_cluster v d file.current_cluster = FAT32_EOC
  case neg =>
    rw [if_neg fun h => hlast h.2.1, if_pos hend]
    simp only [if_neg hlast]
    exact .nil
  by_cases hfree : find_free_cluster v d = 0
  · rw [if_neg fun h => h.2.2 hfree, if_pos hend]
    simp only [if_pos hlast, if_pos hfree]
    exact .nil
  · rw [if_pos ⟨hend, hlast, hfree⟩, if_pos hend]
    simp only [if_pos hlast, if_neg hfree]
    exact append_calls_performs d file.current_cluster _

/-- The calls of the loop of `fat32_write`. -/
def loop_calls (v : Volume) : ℕ → Disk → fat32_file_t → Sector → List UInt8 → List SectorWrite
  | 0, _, _, _, _ => []
  | n + 1, d, file, sector_buf, bytes =>
    if bytes = [] then []
    else
      let chunk := write_chunk v d file sector_buf bytes
      let step := write_advance v chunk.1 chunk.2.1
      chunk_call v d file sector_buf bytes :: advance_calls v chunk.1 chunk.2.1 ++
        if step.2.2 then loop_calls v n step.1 step.2.1 chunk.2.2 (bytes.drop (can_write file bytes)) else []

theorem loop_calls_performs (n : ℕ) (d : Disk) (file : fat32_file_t) (sector_buf : Sector) (bytes : List UInt8) :
    Performs v d (loop_calls v n d file sector_buf bytes) (write_loop v n d file sector_buf bytes).1 := by
  induction n generalizing d file sector_buf bytes with
  | zero => exact .nil
  | succ n ih =>
    unfold loop_calls write_loop
    by_cases hbytes : bytes = []
    case pos =>
      simp only [if_pos hbytes]
      exact .nil
    simp only [if_neg hbytes]
    refine .cons rfl (chunk_call_performed d file sector_buf bytes) ((advance_calls_performs _ _).append ?_)
    split
    case isTrue => exact ih _ _ _ _
    case isFalse => exact .nil

/-- The call that writes the size of a file back. -/
def size_call (v : Volume) (d : Disk) (file : fat32_file_t) : SectorWrite where
  device := d
  place := .entry file.dir_cluster file.dir_entry_index
  buf := put_size (ata_read_sectors v.drive d (Place.lba v (.entry file.dir_cluster file.dir_entry_index)) v.uninit).2
    (file.dir_entry_index % 16) file.file_size

theorem size_call_performed (d : Disk) (file : fat32_file_t) :
    (size_call v d file).performed v = write_back_size v d file := rfl

/-- The calls of `ata_write_sectors` that `fat32_write` makes for handle `i`, in order. -/
def write_calls (st : Fat32) (i : Fin 8) (bytes : List UInt8) : List SectorWrite :=
  let res := write_loop st.vol bytes.length st.disk (st.open_files i) st.vol.uninit bytes
  loop_calls st.vol bytes.length st.disk (st.open_files i) st.vol.uninit bytes ++
    if 0 < res.2.2 ∧ res.2.1.position > res.2.1.file_size then
      [size_call st.vol res.1 { res.2.1 with file_size := res.2.1.position }]
    else []

/-- What `fat32_write` makes of the device is what these calls make of it. -/
theorem fat32_write_performs {st : Fat32} {fd : Int} {i : Fin 8} (hfd : handle st fd = some i) (bytes : List UInt8) :
    Performs st.vol st.disk (write_calls st i bytes) (fat32_write st fd bytes).2.disk := by
  simp only [fat32_write, hfd, write_calls]
  refine (loop_calls_performs _ _ _ _ _).append ?_
  split
  case isTrue => exact .cons rfl (size_call_performed _ _) .nil
  case isFalse => exact .nil

end os_dev.fat32
