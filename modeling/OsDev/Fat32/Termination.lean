import OsDev.Fat32.Stability
import OsDev.Fat32.Blank

open os_dev.ata os_dev.libc little_endian fuel

namespace os_dev.fat32

variable {v : Volume} {d : Disk}

/-- The links from cluster `c` on lead to an end-of-chain mark. -/
def ReachesEnd (v : Volume) (d : Disk) (c : ℕ) : Prop := ∃ n, (get_next_cluster v d)^[n] c = FAT32_EOC

/-- Some round of the walk from `c` stops at an entry. -/
def MeetsEntry (v : Volume) (d : Disk) (scan : Sector → Option ℕ) (c : ℕ) (buf : Sector) : Prop :=
  ∃ n, (round_scan v d scan ((next_round v d scan)^[n] (c, buf))).1.isSome

theorem next_round_fst (scan : Sector → Option ℕ) (n : ℕ) (s : ℕ × Sector) :
    ((next_round v d scan)^[n] s).1 = (get_next_cluster v d)^[n] s.1 := by
  induction n generalizing s with
  | zero => rfl
  | succ n ih => exact ih (next_round v d scan s)

/-- A search loop ends exactly if its chain does or if it stops at an entry before. -/
theorem search_ends_iff (hit : fat32_dir_entry_t → Bool) (c : ℕ) (buf : Sector) :
    (∃ r, Returns (fun fuel => search v d hit fuel c buf) r) ↔
      ReachesEnd v d c ∨ MeetsEntry v d (hit_scan hit) c buf := by
  simp only [search_eq_loop, loop_ends_iff, search_exit, ReachesEnd, MeetsEntry, next_round_fst]
  rw [← exists_or]
  refine exists_congr fun n => ?_
  by_cases hend : (get_next_cluster v d)^[n] c = FAT32_EOC
  · simp [hend]
  · simp [hend]

/-- What the sector loop of `fat32_list_dir` does in the cluster at hand. -/
def round_list (v : Volume) (d : Disk) (s : ℕ × Sector) : List Report × Option Int × Sector :=
  list_sectors v d (cluster_to_lba v s.1) v.bpb.sectors_per_cluster 0 s.2

def next_list (v : Volume) (d : Disk) (s : ℕ × Sector) : ℕ × Sector :=
  (get_next_cluster v d s.1, (round_list v d s).2.2)

theorem next_list_fst (n : ℕ) (s : ℕ × Sector) :
    ((next_list v d)^[n] s).1 = (get_next_cluster v d)^[n] s.1 := by
  induction n generalizing s with
  | zero => rfl
  | succ n ih => exact ih (next_list v d s)

/-- Some round of the listing from `c` ends it: a `0x00` entry or a failed read. -/
def MeetsStop (v : Volume) (d : Disk) (c : ℕ) (buf : Sector) : Prop :=
  ∃ n, (round_list v d ((next_list v d)^[n] (c, buf))).2.1.isSome

/-- The exit of the listing loop; the last part of its state are the calls made so far. -/
def list_exit (v : Volume) (d : Disk) (s : (ℕ × Sector) × List Report) : Option (Int × List Report) :=
  if s.1.1 ≠ FAT32_EOC ∧ s.1.1 ≠ FAT32_BAD then
    (round_list v d s.1).2.1.map fun rc => (rc, s.2 ++ (round_list v d s.1).1)
  else some (0, s.2)

theorem list_loop_eq_loop (fuel c : ℕ) (buf : Sector) (calls : List Report) :
    (list_loop v d fuel c buf).map (fun r => (r.1, calls ++ r.2)) =
      loop (list_exit v d) (fun s => (next_list v d s.1, s.2 ++ (round_list v d s.1).1)) fuel ((c, buf), calls) := by
  induction fuel generalizing c buf calls with
  | zero => rfl
  | succ fuel ih =>
    simp only [list_loop, loop, list_exit]
    by_cases hgo : c ≠ FAT32_EOC ∧ c ≠ FAT32_BAD
    · simp only [if_pos hgo]
      cases hlist : list_sectors v d (cluster_to_lba v c) v.bpb.sectors_per_cluster 0 buf with
      | mk new rest =>
        obtain ⟨rc, buf'⟩ := rest
        cases rc with
        | some rc => simp [round_list, hlist]
        | none =>
          have hrest := ih (get_next_cluster v d c) buf' (calls ++ new)
          simp only [round_list, hlist, next_list, Option.map_none] at hrest ⊢
          rw [← hrest]
          cases list_loop v d fuel (get_next_cluster v d c) buf' with
          | none => rfl
          | some r => simp
    · simp [if_neg hgo]

theorem next_list_calls (n : ℕ) (s : (ℕ × Sector) × List Report) :
    ((fun s : (ℕ × Sector) × List Report => (next_list v d s.1, s.2 ++ (round_list v d s.1).1))^[n] s).1 =
      (next_list v d)^[n] s.1 := by
  induction n generalizing s with
  | zero => rfl
  | succ n ih => exact ih _

theorem list_loop_fun (c : ℕ) (buf : Sector) : (fun fuel => list_loop v d fuel c buf) = fun fuel =>
    loop (list_exit v d) (fun s => (next_list v d s.1, s.2 ++ (round_list v d s.1).1)) fuel ((c, buf), []) := by
  funext fuel
  rw [← list_loop_eq_loop]
  simp

theorem list_loop_stable (c : ℕ) (buf : Sector) : Stable fun fuel => list_loop v d fuel c buf := by
  rw [list_loop_fun]
  exact loop_stable _ _ _

theorem fat32_list_dir_stable (st : Fat32) (c : ℕ) : Stable fun fuel => fat32_list_dir fuel st c :=
  .ite _ (.const _) (list_loop_stable _ _)

/-- The listing loop ends exactly if its chain does, also in a bad-cluster mark, or
    if a `0x00` entry or a failed read stops it before. -/
theorem list_loop_ends_iff (c : ℕ) (buf : Sector) :
    (∃ r, Returns (fun fuel => list_loop v d fuel c buf) r) ↔
      ReachesEnd v d c ∨ (∃ n, (get_next_cluster v d)^[n] c = FAT32_BAD) ∨ MeetsStop v d c buf := by
  rw [list_loop_fun, loop_ends_iff]
  simp only [list_exit, ReachesEnd, MeetsStop, next_list_calls, next_list_fst]
  rw [← exists_or, ← exists_or]
  refine exists_congr fun n => ?_
  by_cases hend : (get_next_cluster v d)^[n] c = FAT32_EOC
  · simp [hend]
  · by_cases hbad : (get_next_cluster v d)^[n] c = FAT32_BAD
    · simp [hbad]
    · simp [hend, hbad]

theorem zero_sectors_keeps_zero (lba n s : ℕ) {x : ℕ} (h : d x = zero_buf) : zero_sectors v lba n s d x = zero_buf := by
  induction n generalizing s d with
  | zero => exact h
  | succ n ih =>
    refine ih (s + 1) ?_
    by_cases hx : x = u32 (lba + s)
    · subst hx
      by_cases hholds : v.drive.Holds (u32 (lba + s))
      · simp [write_of_holds hholds]
      · rw [write_of_not_holds hholds]
        exact h
    · rw [write_of_ne hx, h]

/-- The first sector of a cluster that has just been cleared has a usable entry. -/
theorem append_cluster_scan (hpos : 0 < v.bpb.sectors_per_cluster) (last next : ℕ) :
    (round_scan v (append_cluster v d last next) free_scan (next, zero_buf)).1.isSome := by
  obtain ⟨n, hn⟩ := Nat.exists_eq_succ_of_ne_zero hpos.ne'
  have hread : (ata_read_sectors v.drive (append_cluster v d last next) (u32 (cluster_to_lba v next + 0)) zero_buf).2 =
      zero_buf := by
    by_cases hholds : v.drive.Holds (u32 (cluster_to_lba v next + 0))
    · rw [read_of_holds hholds, append_cluster, hn, zero_sectors]
      apply zero_sectors_keeps_zero
      rw [write_of_holds hholds]
      exact Function.update_self _ _ _
    · rw [read_of_not_holds hholds]
  have hfree : free_scan zero_buf = some 0 := by decide
  rw [round_scan, hn, scan_sectors, hread, hfree]
  rfl

theorem create_exit_isSome {name : CStr} {attr : UInt8} {fc size : ℕ} {s : Disk × ℕ × Sector} :
    (create_exit v name attr fc size s).isSome ↔
      s.2.1 = FAT32_EOC ∨ (round_scan v s.1 free_scan s.2).1.isSome ∨
        (get_next_cluster v s.1 s.2.1 = FAT32_EOC ∧ find_free_cluster v s.1 = 0) := by
  unfold create_exit
  by_cases hend : s.2.1 = FAT32_EOC
  · simp [hend]
  · simp only [hend, false_or]
    cases round_scan v s.1 free_scan s.2 with
    | mk pos buf =>
      cases pos with
      | some ji => simp
      | none =>
        by_cases hfull : get_next_cluster v s.1 s.2.1 = FAT32_EOC ∧ find_free_cluster v s.1 = 0
        · simp [hfull]
        · simp [hfull]

/-- The loop of `create_entry` ends exactly if the chain of the directory does or
    if it meets a usable entry before. -/
theorem create_loop_ends_iff (hpos : 0 < v.bpb.sectors_per_cluster) (name : CStr) (attr : UInt8) (fc size c : ℕ)
    (buf : Sector) : (∃ r, Returns (fun fuel => create_loop v name attr fc size fuel d c buf) r) ↔
      ReachesEnd v d c ∨ MeetsEntry v d free_scan c buf := by
  simp only [create_loop_eq_loop, loop_ends_iff]
  constructor
  · rintro ⟨n, hn⟩
    induction n generalizing c buf with
    | zero =>
      rcases create_exit_isSome.mp hn with hend | hscan | ⟨hnext, _⟩
      · exact .inl ⟨0, hend⟩
      · exact .inr ⟨0, hscan⟩
      · exact .inl ⟨1, hnext⟩
    | succ n ih =>
      by_cases hnext : get_next_cluster v d c = FAT32_EOC
      · exact .inl ⟨1, hnext⟩
      · rw [Function.iterate_succ_apply, create_next, if_neg hnext] at hn
        rcases ih _ _ hn with ⟨m, hm⟩ | ⟨m, hm⟩
        · exact .inl ⟨m + 1, hm⟩
        · exact .inr ⟨m + 1, hm⟩
  · -- behind the last cluster of the chain the volume is full or a new cluster is usable
    have hlast : ∀ {c buf}, get_next_cluster v d c = FAT32_EOC →
        ∃ n, (create_exit v name attr fc size ((create_next v)^[n] (d, c, buf))).isSome := by
      intro c buf hnext
      by_cases hfull : find_free_cluster v d = 0
      · refine ⟨0, create_exit_isSome.mpr (.inr (.inr ⟨hnext, hfull⟩))⟩
      · refine ⟨1, ?_⟩
        rw [Function.iterate_one, create_next, if_pos hnext]
        exact create_exit_isSome.mpr (.inr (.inl (append_cluster_scan hpos c _)))
    have hstep : ∀ {c buf}, (∃ n, (create_exit v name attr fc size
          ((create_next v)^[n] (d, next_round v d free_scan (c, buf)))).isSome) →
        ∃ n, (create_exit v name attr fc size ((create_next v)^[n] (d, c, buf))).isSome := by
      intro c buf hrest
      by_cases hnext : get_next_cluster v d c = FAT32_EOC
      · exact hlast hnext
      · obtain ⟨n, hn⟩ := hrest
        refine ⟨n + 1, ?_⟩
        rw [Function.iterate_succ_apply, create_next, if_neg hnext]
        exact hn
    rintro (⟨n, hn⟩ | ⟨n, hn⟩)
    · induction n generalizing c buf with
      | zero => exact ⟨0, create_exit_isSome.mpr (.inl hn)⟩
      | succ n ih => exact hstep (ih _ _ hn)
    · induction n generalizing c buf with
      | zero => exact ⟨0, create_exit_isSome.mpr (.inr (.inl hn))⟩
      | succ n ih => exact hstep (ih _ _ hn)

/-- The cluster in which `fat32_list_dir` starts: 0 stands for the current directory. -/
def list_start (st : Fat32) (c : ℕ) : ℕ :=
  if c ≠ 0 then c else if st.fat32_cwd_cluster ≠ 0 then st.fat32_cwd_cluster else st.vol.bpb.root_cluster

/-- When the directory walks of a mounted volume end. From the cluster `c`, the
    searches of `fat32_resolve_path` (which skips long-name parts), `fat32_open`,
    `fat32_unlink` and `fat32_rmdir`, the listing and the creation of an entry end
    exactly if the links from `c` lead to an end-of-chain mark or the walk meets
    something to stop at before. -/
theorem directory_walks_end_iff (st : Fat32) (c : ℕ) (name : CStr) (hmounted : st.mounted = true) :
    (∀ skip_lfn, (∃ r, Returns (fun fuel => find_name st.vol st.disk skip_lfn fuel c name) r) ↔
      ReachesEnd st.vol st.disk c ∨
        MeetsEntry st.vol st.disk (hit_scan (matches_name skip_lfn (standardize_name name))) c st.vol.uninit) ∧
    ((∃ r, Returns (fun fuel => fat32_list_dir fuel st c) r) ↔
      ReachesEnd st.vol st.disk (list_start st c) ∨
        (∃ n, (get_next_cluster st.vol st.disk)^[n] (list_start st c) = FAT32_BAD) ∨
        MeetsStop st.vol st.disk (list_start st c) st.vol.uninit) ∧
    ∀ attr first_cluster size, 0 < st.vol.bpb.sectors_per_cluster →
      ((∃ r, Returns (fun fuel => create_entry fuel st.vol st.disk c name attr first_cluster size) r) ↔
        ReachesEnd st.vol st.disk c ∨ MeetsEntry st.vol st.disk free_scan c st.vol.uninit) := by
  refine ⟨fun skip_lfn => search_ends_iff _ c _, ?_,
    fun attr fc size hpos => create_loop_ends_iff hpos name attr fc size c _⟩
  have hlist : (fun fuel => fat32_list_dir fuel st c) = fun fuel =>
      list_loop st.vol st.disk fuel (list_start st c) st.vol.uninit := by
    funext fuel
    simp only [fat32_list_dir, hmounted, list_start, ne_eq]
    by_cases hc : c = 0
    · by_cases hcwd : st.fat32_cwd_cluster = 0 <;> simp [hc, hcwd]
    · simp [hc]
  rw [hlist]
  exact list_loop_ends_iff _ _

/-- The small volume with a root directory whose only cluster links to itself. -/
def looped_state : Fat32 := { small_state with disk := set_next_cluster small_volume small_state.disk 2 2 }

theorem directory_walks_end_iff_looped :
    looped_state.mounted = true ∧
      ((∃ r, Returns (fun fuel => find_name looped_state.vol looped_state.disk true fuel 2 (ascii "A")) r) ↔
        ReachesEnd looped_state.vol looped_state.disk 2 ∨
          MeetsEntry looped_state.vol looped_state.disk
            (hit_scan (matches_name true (standardize_name (ascii "A")))) 2 looped_state.vol.uninit) ∧
      ((∃ r, Returns (fun fuel => create_entry fuel looped_state.vol looped_state.disk 2 (ascii "A") FAT_ATTR_ARCHIVE 3 0) r) ↔
        ReachesEnd looped_state.vol looped_state.disk 2 ∨
          MeetsEntry looped_state.vol looped_state.disk free_scan 2 looped_state.vol.uninit) := by
  obtain ⟨hsearch, _, hcreate⟩ := directory_walks_end_iff looped_state 2 (ascii "A") rfl
  exact ⟨rfl, hsearch true, hcreate FAT_ATTR_ARCHIVE 3 0 (by decide)⟩

theorem looped_next : get_next_cluster looped_state.vol looped_state.disk 2 = 2 := by decide +kernel

/-- On a root directory that links to itself the search for a missing name never ends. -/
theorem resolve_path_of_loop_diverges :
    looped_state.mounted = true ∧ Diverges fun fuel => fat32_resolve_path fuel looped_state (ascii "A") := by
  have hempty : hit_scan (matches_name true (standardize_name (ascii "A"))) (looped_state.disk 2) = none := by
    decide +kernel
  have hscan : ∀ buf, round_scan looped_state.vol looped_state.disk
      (hit_scan (matches_name true (standardize_name (ascii "A")))) (2, buf) = (none, looped_state.disk 2) := by
    intro buf
    have hread : ata_read_sectors looped_state.vol.drive looped_state.disk (u32 (cluster_to_lba looped_state.vol 2 + 0))
        buf = (0, looped_state.disk 2) := read_of_holds (by decide)
    simp only [round_scan, show looped_state.vol.bpb.sectors_per_cluster = 1 from rfl, scan_sectors, hread, hempty]
  have hwalk : ∀ n buf, ∃ buf', (next_round looped_state.vol looped_state.disk
      (hit_scan (matches_name true (standardize_name (ascii "A")))))^[n] (2, buf) = (2, buf') := by
    intro n
    induction n with
    | zero => exact fun buf => ⟨buf, rfl⟩
    | succ n ih =>
      intro buf
      rw [Function.iterate_succ_apply, next_round, looped_next]
      exact ih _
  have hforever : ¬ ∃ r, Returns (fun fuel => find_name looped_state.vol looped_state.disk true fuel 2 (ascii "A")) r := by
    rw [show (fun fuel => find_name looped_state.vol looped_state.disk true fuel 2 (ascii "A")) = fun fuel =>
      search looped_state.vol looped_state.disk (matches_name true (standardize_name (ascii "A"))) fuel 2
        looped_state.vol.uninit from rfl, search_ends_iff]
    rintro (⟨n, hn⟩ | ⟨n, hn⟩)
    · rw [Function.iterate_fixed looped_next] at hn
      cases hn
    · obtain ⟨buf', hbuf⟩ := hwalk n looped_state.vol.uninit
      rw [hbuf, hscan] at hn
      cases hn
  refine ⟨rfl, ?_⟩
  have hdiv := (find_name_stable looped_state.disk true 2 (ascii "A")).returns_or_diverges.resolve_left hforever
  intro fuel
  have hparts : components (ascii "A") = [ascii "A"] := by decide
  simp [fat32_resolve_path, show looped_state.mounted = true from rfl, show ascii "A" ≠ [] by decide, hparts,
    resolve_parts, show start_cluster looped_state (ascii "A") = 2 by decide, hdiv fuel]

end os_dev.fat32
