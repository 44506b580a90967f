import OsDev.Fat32.Removal

open os_dev.ata os_dev.libc fuel

namespace os_dev.fat32

variable {v : Volume} {st : Fat32}

theorem free_chain_stable (d : Disk) (c : ℕ) : Stable fun fuel => free_chain v fuel d c :=
  fun _ _ _ hle h => free_chain_mono hle h

theorem recursive_rm_stable (d : Disk) (c : ℕ) : Stable fun fuel => recursive_rm fuel v d c :=
  fun _ _ _ hle h => rm_loop_mono hle h

/-- What the sector loop of a search sees in the cluster at hand. -/
def round_scan (v : Volume) (d : Disk) (scan : Sector → Option ℕ) (s : ℕ × Sector) : Option (ℕ × ℕ) × Sector :=
  scan_sectors v d scan (cluster_to_lba v s.1) v.bpb.sectors_per_cluster 0 s.2

/-- A round of a cluster loop that goes on: the next link, and the buffer as the
    sector loop left it. -/
def next_round (v : Volume) (d : Disk) (scan : Sector → Option ℕ) (s : ℕ × Sector) : ℕ × Sector :=
  (get_next_cluster v d s.1, (round_scan v d scan s).2)

/-- The exit of the search loop. -/
def search_exit (v : Volume) (d : Disk) (hit : fat32_dir_entry_t → Bool) (s : ℕ × Sector) :
    Option (Option Found) :=
  if s.1 = FAT32_EOC then some none
  else (round_scan v d (hit_scan hit) s).1.map fun ji => some ⟨s.1, ji.1, ji.2, (round_scan v d (hit_scan hit) s).2⟩

theorem search_eq_loop (d : Disk) (hit : fat32_dir_entry_t → Bool) (fuel c : ℕ) (buf : Sector) :
    search v d hit fuel c buf =
      loop (search_exit v d hit) (next_round v d (hit_scan hit)) fuel (c, buf) := by
  induction fuel generalizing c buf with
  | zero => rfl
  | succ fuel ih =>
    simp only [search, loop, search_exit]
    by_cases hend : c = FAT32_EOC
    · simp [hend]
    · simp only [if_neg hend]
      cases hscan : scan_sectors v d (hit_scan hit) (cluster_to_lba v c) v.bpb.sectors_per_cluster 0 buf with
      | mk pos buf' =>
        cases pos with
        | some ji => simp [round_scan, hscan]
        | none => simp [round_scan, next_round, hscan, ih]

theorem search_stable (d : Disk) (hit : fat32_dir_entry_t → Bool) (c : ℕ) (buf : Sector) :
    Stable fun fuel => search v d hit fuel c buf := by
  simp only [search_eq_loop]
  exact loop_stable _ _ _

theorem find_name_stable (d : Disk) (skip_lfn : Bool) (c : ℕ) (name : CStr) :
    Stable fun fuel => find_name v d skip_lfn fuel c name := search_stable _ _ _ _

/-- The exit of the loop of `create_entry`, whose state holds the device as well. -/
def create_exit (v : Volume) (name : CStr) (attr : UInt8) (first_cluster size : ℕ) (s : Disk × ℕ × Sector) :
    Option (Int × Disk) :=
  if s.2.1 = FAT32_EOC then some (-1, s.1)
  else
    match round_scan v s.1 free_scan s.2 with
    | (some (j, i), buf) =>
      some (0, (ata_write_sectors v.drive s.1 (u32 (cluster_to_lba v s.2.1 + j))
        (put_entry buf i (standardize_base name) (standardize_ext name) attr first_cluster size)).2)
    | (none, _) =>
      if get_next_cluster v s.1 s.2.1 = FAT32_EOC ∧ find_free_cluster v s.1 = 0 then some (-1, s.1) else none

/-- A round of that loop that goes on, in the next cluster or in a new one. -/
def create_next (v : Volume) (s : Disk × ℕ × Sector) : Disk × ℕ × Sector :=
  if get_next_cluster v s.1 s.2.1 = FAT32_EOC then
    (append_cluster v s.1 s.2.1 (find_free_cluster v s.1), find_free_cluster v s.1, zero_buf)
  else (s.1, next_round v s.1 free_scan s.2)

theorem create_loop_eq_loop (name : CStr) (attr : UInt8) (fc size fuel : ℕ) (d : Disk) (c : ℕ) (buf : Sector) :
    create_loop v name attr fc size fuel d c buf =
      loop (create_exit v name attr fc size) (create_next v) fuel (d, c, buf) := by
  induction fuel generalizing d c buf with
  | zero => rfl
  | succ fuel ih =>
    simp only [create_loop, loop, create_exit]
    by_cases hend : c = FAT32_EOC
    · simp [hend]
    · simp only [if_neg hend, round_scan]
      cases hscan : scan_sectors v d free_scan (cluster_to_lba v c) v.bpb.sectors_per_cluster 0 buf with
      | mk pos buf' =>
        cases pos with
        | some ji => rfl
        | none =>
          by_cases hnext : get_next_cluster v d c = FAT32_EOC
          · by_cases hfull : find_free_cluster v d = 0
            · simp [hnext, hfull]
            · simp [hnext, hfull, create_next, ih]
          · simp [hnext, create_next, next_round, round_scan, hscan, ih]

theorem create_loop_stable (name : CStr) (attr : UInt8) (fc size : ℕ) (d : Disk) (c : ℕ) (buf : Sector) :
    Stable fun fuel => create_loop v name attr fc size fuel d c buf := by
  simp only [create_loop_eq_loop]
  exact loop_stable _ _ _

theorem create_entry_stable (d : Disk) (p : ℕ) (name : CStr) (attr : UInt8) (fc size : ℕ) :
    Stable fun fuel => create_entry fuel v d p name attr fc size := create_loop_stable _ _ _ _ _ _ _

theorem resolve_parts_stable (d : Disk) (c : ℕ) (parts : List CStr) :
    Stable fun fuel => resolve_parts v d fuel c parts := by
  induction parts generalizing c with
  | nil => exact .const _
  | cons part rest ih =>
    refine (find_name_stable d true c part).bind fun found => ?_
    cases found with
    | none => exact .const _
    | some f => exact ih f.entry.first_cluster

theorem fat32_resolve_path_stable (st : Fat32) (path : CStr) : Stable fun fuel => fat32_resolve_path fuel st path :=
  .ite _ (.const _) (.ite _ (.const _) (resolve_parts_stable _ _ _))

theorem parent_and_name_stable (st : Fat32) (path : CStr) : Stable fun fuel => parent_and_name fuel st path := by
  unfold parent_and_name
  split
  · exact .const _
  · exact .const _
  · exact (fat32_resolve_path_stable st _).bind fun _ => .const _

theorem fat32_mkdir_stable (st : Fat32) (path : CStr) : Stable fun fuel => fat32_mkdir fuel st path := by
  refine .ite _ (.const _) ((parent_and_name_stable st path).bind fun parent => ?_)
  obtain ⟨parent_cluster, dir_name, leading⟩ := parent
  refine .ite _ (.const _) ((fat32_resolve_path_stable st path).bind fun _ => ?_)
  refine .ite _ (.const _) (.ite _ (.const _) ?_)
  exact (create_entry_stable _ _ _ _ _ _).bind fun _ => .const _

theorem fat32_rmdir_stable (st : Fat32) (path : CStr) : Stable fun fuel => fat32_rmdir fuel st path := by
  refine .ite _ (.const _) (.ite _ (.const _) ((fat32_resolve_path_stable st path).bind fun cluster => ?_))
  refine .ite _ (.const _) ((parent_and_name_stable st path).bind fun parent => ?_)
  obtain ⟨parent_cluster, dir_name, leading⟩ := parent
  refine (recursive_rm_stable _ _).bind fun d => (find_name_stable _ _ _ _).bind fun found => ?_
  cases found with
  | none => exact .const _
  | some f => exact .const _

theorem open_handle_stable (st : Fat32) (path : CStr) (t : ℕ) : Stable fun fuel => open_handle fuel st path t := by
  unfold open_handle
  cases free_handle st.open_files with
  | none => exact .const _
  | some fd =>
    refine (find_name_stable _ _ _ _).bind fun found => ?_
    cases found with
    | none => exact .const _
    | some f => exact .const _

theorem create_file_stable (st : Fat32) (path : CStr) : Stable fun fuel => create_file fuel st path :=
  .ite _ (.const _) ((create_entry_stable _ _ _ _ _ _).bind fun _ => .const _)

theorem fat32_open_stable (st : Fat32) (path : CStr) (mode : UInt8) :
    Stable fun fuel => fat32_open fuel st path mode := by
  refine (fat32_resolve_path_stable st path).bind fun target_cluster => ?_
  refine .ite _ ((create_file_stable st path).bind fun created => ?_) (.ite _ (.const _) (open_handle_stable _ _ _))
  obtain ⟨rc, cluster, d⟩ := created
  exact .ite _ (.const _) (open_handle_stable _ _ _)

theorem fat32_unlink_stable (st : Fat32) (path : CStr) : Stable fun fuel => fat32_unlink fuel st path := by
  refine .ite _ (.const _) ((find_name_stable _ _ _ _).bind fun found => ?_)
  cases found with
  | none => exact .const _
  | some f => exact .ite _ (.const _) ((free_chain_stable _ _).bind fun _ => .const _)

theorem fat32_chdir_stable (st : Fat32) (path : CStr) : Stable fun fuel => fat32_chdir fuel st path :=
  (fat32_resolve_path_stable st path).bind fun _ => .const _

end os_dev.fat32
