import OsDev.Fat32.Mkdir
import OsDev.Fat32.OpenedFile
import OsDev.Fat32.SearchOrder

open os_dev.ata os_dev.libc link_chain fuel

namespace os_dev.fat32

variable {v : Volume} {d d' : Disk} {st : Fat32} {path name : CStr} {l l' : List ℕ} {p y : ℕ} {front back : List (ℕ × ℕ)}
  {s t : ℕ × ℕ}

/-- The entry that `fat32_open` writes for a new file. -/
def file_entry (name : CStr) (y : ℕ) : fat32_dir_entry_t :=
  made_entry (standardize_base name) (standardize_ext name) FAT_ATTR_ARCHIVE y 0

theorem file_entry_first_cluster (hy : v.InRange y) : (file_entry name y).first_cluster = y :=
  made_entry_first_cluster (by have := hy.lt_eoc; omega)

theorem file_entry_matches (hmark : name.head? ≠ some 0xE5) (skip_lfn : Bool) :
    matches_name skip_lfn (standardize_name name) (file_entry name y) = true :=
  matches_name_iff.mpr ⟨standardize_base_ne_deleted hmark, fun _ => show FAT_ATTR_ARCHIVE ≠ FAT_ATTR_LFN by decide, rfl, rfl⟩

theorem file_entry_object (hzero : 0 ∉ name) (hmark : name.head? ≠ some 0xE5) (hy : v.InRange y) :
    named_object (file_entry name y) = some (false, y) := by
  have hdir : (file_entry name y).isDirectory = false := show (FAT_ATTR_ARCHIVE &&& FAT_ATTR_DIRECTORY != 0) = false by decide
  have hlive : (file_entry name y).isLive = true := by
    have hlfn : FAT_ATTR_ARCHIVE ≠ FAT_ATTR_LFN := by decide
    simpa [fat32_dir_entry_t.isLive, file_entry, made_entry, hlfn] using
      ⟨⟨standardize_base_ne_zero hzero, standardize_base_ne_deleted hmark⟩, standardize_base_ne_dot name⟩
  rw [named_object, if_pos ⟨hlive, (file_entry_first_cluster hy).trans_ne hy.ne_zero⟩, hdir, file_entry_first_cluster hy]

/-- A new file of one cleared cluster `y` has been entered into the directory `p` in the slot `s`. -/
structure CreatedFile (v : Volume) (d d' : Disk) (p : ℕ) (name : CStr) (l l' : List ℕ) (front back : List (ℕ × ℕ)) (s : ℕ × ℕ)
    (y : ℕ) : Prop where
  wf : WellFormed v d'
  inRange : v.InRange y
  live : LiveDir v d' p
  dir : Cells v d' p l'
  fills : Fills v d d' l l' front back s (file_entry name y)
  lists : ∃ k i, Lists v d' p k i false y
  own : Cells v d' y [y]
  cleared : ∀ j < v.bpb.sectors_per_cluster, d' (data_sector v y j) = zero_buf

section Created

variable {k j i : ℕ} (h : CreatedFile v d d' p name l l' front back s y) (hl : Cells v d p l) (hzero : 0 ∉ name)
  (hmark : name.head? ≠ some 0xE5)

include h

/-- Nothing but zeros is read from the new file, whatever size is taken for it. -/
theorem CreatedFile.delivered_zero (n : ℕ) : ∃ m, delivered v d' [y] n = List.replicate m 0 := by
  have hdata : chain_data v d' [y] = List.replicate (chain_data v d' [y]).length 0 := by
    refine List.eq_replicate_iff.mpr ⟨rfl, fun b hb => ?_⟩
    obtain ⟨x, hx, hcluster⟩ := List.mem_flatMap.mp hb
    obtain ⟨j, hj, hslice⟩ := List.mem_flatMap.mp hcluster
    obtain rfl := List.mem_singleton.mp hx
    rw [h.cleared j (List.mem_range.mp hj), Sector.slice, List.mem_map] at hslice
    obtain ⟨_, -, rfl⟩ := hslice
    exact zero_buf_byte _
  rw [delivered, file_content, hdata, List.take_replicate]
  exact ⟨_, rfl⟩

theorem CreatedFile.target_position (hfound : lookup v d' true l' name = some (position s)) : target_cluster v d' l' name = y := by
  rw [target_cluster, hfound]
  simp only [position, Nat.div_add_mod, h.fills.entry, file_entry_first_cluster h.inRange]

include hzero hmark

theorem CreatedFile.lookup_isSome : ∃ pos, lookup v d' false l' name = some pos :=
  ⟨_, h.fills.lookup_matching (h.dir.nodup not_inRange_eoc) (standardize_base_ne_zero hzero) (file_entry_matches hmark false)⟩

include hl

theorem CreatedFile.target_of_none (hnone : lookup v d true l name = none) : target_cluster v d' l' name = y :=
  h.target_position (h.fills.lookup_of_none (hl.nodup not_inRange_eoc) (h.dir.nodup not_inRange_eoc)
    (standardize_base_ne_zero hzero) (file_entry_matches hmark true) hnone)

/-- An entry of the name without clusters hides the new file, unless the new file's entry is in front of it. -/
theorem CreatedFile.target_of_empty (hfound : lookup v d true l name = some (k, j, i))
    (hempty : (slot v d k (16 * j + i)).first_cluster = 0) :
    target_cluster v d' l' name = if FreeBefore v d l (k, 16 * j + i) then y else 0 := by
  rw [lookup_eq_find_seen, Option.map_eq_some_iff] at hfound
  obtain ⟨t, ht, hposition⟩ := hfound
  have hseen : Seen v d true name t := by simpa using List.find?_some ht
  have hsame := h.fills.slot_of_seen (List.mem_of_find?_eq_some ht) hseen
  obtain ⟨rfl, rfl, rfl⟩ : t.1 = k ∧ t.2 / 16 = j ∧ t.2 % 16 = i := by simpa [position] using hposition
  rw [Nat.div_add_mod] at hempty ⊢
  have hlookup := h.fills.lookup_of_some (hl.nodup not_inRange_eoc) (h.dir.nodup not_inRange_eoc)
    (standardize_base_ne_zero hzero) (file_entry_matches hmark true) ht
  split at hlookup
  case isTrue hbefore =>
    rw [if_pos hbefore]
    exact h.target_position hlookup
  case isFalse hafter =>
    rw [if_neg hafter, target_cluster, hlookup]
    simpa only [position, Nat.div_add_mod, hsame] using hempty

end Created

/-- `fat32_open` with a path that resolves to nothing, on a volume with two free clusters. -/
theorem open_creates (hwf : WellFormed st.vol st.disk) (hresolve : Returns (fun fuel => fat32_resolve_path fuel st path) 0)
    (hguess : LiveDir st.vol st.disk (guessed_parent st path)) (hl : Cells st.vol st.disk (guessed_parent st path) l)
    (hzero : 0 ∉ base_name path) (hmark : (base_name path).head? ≠ some 0xE5) {a b : ℕ} (hab : a ≠ b) (ha : st.vol.InRange a)
    (hb : st.vol.InRange b) (hafree : IsFree st.vol st.disk a) (hbfree : IsFree st.vol st.disk b) :
    ∃ y d' l' front back s, Returns (fun fuel => fat32_open fuel st path mode_w) (opened { st with disk := d' } path y l') ∧
      CreatedFile st.vol st.disk d' (guessed_parent st path) (base_name path) l l' front back s y := by
  obtain ⟨hne, hin, hfree⟩ := hwf.sane.find_free_of_inRange ha hafree
  generalize hy : find_free_cluster st.vol st.disk = y at hne hin hfree
  have hclaimed := hwf.claimed_zero hin hfree
  have hcleared := fun j (hj : j < st.vol.bpb.sectors_per_cluster) =>
    hwf.sane.zero_cluster_same hin hj (set_next_cluster st.vol st.disk y FAT32_EOC)
  generalize hd₁ : zero_sectors st.vol (cluster_to_lba st.vol y) st.vol.bpb.sectors_per_cluster 0
    (set_next_cluster st.vol st.disk y FAT32_EOC) = d₁ at hclaimed hcleared
  obtain ⟨k, i, d', l', front, back, s, hcreate, hplaced, hl', -, hfills, hdata⟩ := hclaimed.create_entry hwf hguess hl
    hab ha hb hafree hbfree (base_name path) FAT_ATTR_ARCHIVE (fun hdir : false = true => absurd hdir (by decide))
    fun b c hobj => made_entry_object hin hobj
  obtain ⟨hown, -⟩ := claimed_kept hwf hclaimed hplaced
  have hlists : Lists st.vol d' (guessed_parent st path) k i false y :=
    (hplaced.lists _ _ _ _ _).mpr (.inr ⟨rfl, rfl, rfl, file_entry_object hzero hmark hin⟩)
  have hlive : LiveDir st.vol d' (guessed_parent st path) :=
    (hplaced.dirs _).mpr (.inl (((hclaimed.keeps hwf).shape hwf).2 _ |>.mpr hguess))
  refine ⟨y, d', l', front, back, s, ?_, hplaced.wf, hin, hlive, hl', hclaimed.fills hwf hguess hl hfills, ⟨k, i, hlists⟩, hown,
    fun j hj => ?_⟩
  · have hopen := open_handle_returns { st with disk := d' } path hwf.sane hl' y
    filter_upwards [hresolve, hcreate, hopen] with fuel h₁ h₂ h₃
    simp [fat32_open, create_file, h₁, hy, hne, hd₁, h₂, h₃]
  · rw [hdata y hin (fun hmem => ?_) j hj, hcleared j hj]
    exact hplaced.wf.dirCluster_not_mem hlists hown ⟨_, l', hlive, hl', hmem⟩ (List.mem_singleton_self y)

/-- `fat32_open` with a name that resolves to nothing. -/
theorem ValidName.open_new (hn : ValidName path) (hmounted : st.mounted = true) (hwf : WellFormed st.vol st.disk)
    (hcwd : LiveDir st.vol st.disk st.fat32_cwd_cluster) (hl : Cells st.vol st.disk st.fat32_cwd_cluster l)
    (habsent : target_cluster st.vol st.disk l path = 0) {a b : ℕ} (hab : a ≠ b) (ha : st.vol.InRange a) (hb : st.vol.InRange b)
    (hafree : IsFree st.vol st.disk a) (hbfree : IsFree st.vol st.disk b) :
    ∃ y d' l' front back s, Returns (fun fuel => fat32_open fuel st path mode_w) (opened { st with disk := d' } path y l') ∧
      CreatedFile st.vol st.disk d' st.fat32_cwd_cluster path l l' front back s y := by
  have hguess : fat32.guessed_parent st path = st.fat32_cwd_cluster := hn.guessed_parent
  have hbase := base_name_of_no_slash hn.no_slash
  have hresolve := hn.resolves hwf.sane hmounted hl
  rw [habsent] at hresolve
  rw [← hguess] at hcwd hl
  have hopen := open_creates hwf hresolve hcwd hl (by rw [hbase]; exact hn.no_zero) (by rw [hbase]; exact hn.no_mark) hab ha hb
    hafree hbfree
  rwa [hguess, hbase] at hopen

end os_dev.fat32
