import OsDev.Fat32.Scanners
import OsDev.Fat32.Rmdir

open os_dev.ata os_dev.libc little_endian forest link_chain fuel

namespace os_dev.fat32

variable {v : Volume} {d d' d₁ : Disk} {st : Fat32} {k j i : ℕ} {c : ℕ} {l lf : List ℕ} {n : CStr}

/-- The clusters of the file that an entry names: its chain, or none without a first cluster. -/
def FileCells (v : Volume) (d : Disk) (e : fat32_dir_entry_t) (lf : List ℕ) : Prop :=
  (e.first_cluster = 0 ∧ lf = []) ∨ (e.first_cluster ≠ 0 ∧ Cells v d e.first_cluster lf)

/-- The file in slot `16 * j + i` of cluster `k`, with the clusters `lf`, has been removed
    exactly: these clusters and no others have become free, and of the data area only
    the first name byte of the entry has changed. -/
structure RemovesFile (v : Volume) (d d' : Disk) (k j i : ℕ) (lf : List ℕ) : Prop where
  freed : ∀ x, x ∈ lf ↔ v.InTable x ∧ ¬ IsFree v d x ∧ IsFree v d' x
  table : ∀ x, v.InTable x → x ∉ lf → fat_word v d' x = fat_word v d x
  deleted : (d' (data_sector v k j)).byte (32 * i) = 0xE5
  entry : ∀ b < 512, b ≠ 32 * i → (d' (data_sector v k j)).byte b = (d (data_sector v k j)).byte b
  data : ∀ lba, v.data_lba ≤ lba → lba ≠ data_sector v k j → d' lba = d lba

theorem FileCells.inTable {e : fat32_dir_entry_t} (h : FileCells v d e lf) {x : ℕ} (hx : x ∈ lf) : v.InTable x := by
  rcases h with ⟨-, rfl⟩ | ⟨-, hcells⟩
  · cases hx
  · exact (hcells.inRange hx).inTable

theorem FileCells.not_free (hv : v.Sane) {e : fat32_dir_entry_t} (h : FileCells v d e lf) {x : ℕ} (hx : x ∈ lf) :
    ¬ IsFree v d x := by
  rcases h with ⟨-, rfl⟩ | ⟨-, hcells⟩
  · cases hx
  · exact hcells.not_free hv hx

theorem FileCells.head {e : fat32_dir_entry_t} (h : FileCells v d e lf) (hne : e.first_cluster ≠ 0) :
    e.first_cluster ∈ lf := by
  rcases h with ⟨hzero, -⟩ | ⟨-, hcells⟩
  · exact absurd hzero hne
  · exact hcells.head_mem

theorem FileCells.congr_words (hv : v.Sane) {e : fat32_dir_entry_t} (h : FileCells v d e lf)
    (hword : ∀ x, v.InTable x → fat_word v d₁ x = fat_word v d x) : FileCells v d₁ e lf := by
  rcases h with h | ⟨hne, hcells⟩
  · exact .inl h
  · exact .inr ⟨hne, hcells.congr_words hv fun x hx => hword x (hcells.inRange hx).inTable⟩

/-- The freeing loop of `fat32_unlink` clears the words of the file and nothing else. -/
theorem FileCells.free_chain_returns (hv : v.Sane) {e : fat32_dir_entry_t} (h : FileCells v d e lf) :
    ∃ d', Returns (fun fuel => free_chain v fuel d e.first_cluster) d' ∧ Frees v (· ∈ lf) d d' := by
  rcases h with ⟨hzero, rfl⟩ | ⟨-, hcells⟩
  · refine ⟨d, .of_gt 0 fun fuel hfuel => ?_, Frees.nothing fun x => List.not_mem_nil⟩
    rw [hzero]
    exact free_chain_stop hfuel (.inl rfl)
  · obtain ⟨d', heq, hsame, hclear⟩ := hv.free_chain_spec hcells (Nat.lt_succ_self _)
    exact ⟨d', (free_chain_stable d _).returns heq, hsame.data, fun x _ hx => hclear x hx, hsame.word⟩

/-- An entry marked deleted and the words of its file cleared: an exact removal. -/
theorem FileCells.removesFile (hv : v.Sane) {e : fat32_dir_entry_t} (h : FileCells v d e lf) (hi : i < 16)
    (hfrees : Frees v (· ∈ lf) (Function.update d (data_sector v k j) (mark_deleted (d (data_sector v k j)) i)) d') :
    RemovesFile v d d' k j i lf := by
  have hkept : ∀ x, v.InTable x → x ∉ lf → fat_word v d' x = fat_word v d x := fun x hx hout =>
    (hfrees.kept x hx hout).trans (fat_word_update_data hv hx)
  have hsector := hfrees.data _ (data_lba_le_data_sector k j)
  rw [Function.update_self] at hsector
  refine ⟨fun x => ⟨fun hx => ?_, fun hx => ?_⟩, hkept, ?_, fun b hb hne => ?_, fun lba hlba hne => ?_⟩
  · refine ⟨h.inTable hx, h.not_free hv hx, ?_⟩
    unfold IsFree
    rw [hfrees.cleared x (h.inTable hx) hx]
    rfl
  · obtain ⟨hin, hused, hfree⟩ := hx
    by_contra hout
    exact hused ((isFree_congr (hkept x hin hout)).mp hfree)
  · rw [hsector, mark_deleted, Sector.byte_ofFn (by omega), if_pos rfl]
  · rw [hsector, mark_deleted, Sector.byte_ofFn hb, if_neg hne]
  · exact (hfrees.data lba hlba).trans (Function.update_of_ne hne _ _)

/-- The entry of a regular file names a chain of its own, or nothing. -/
theorem WellFormed.file_cells (h : WellFormed v d) {c : ℕ} (hc : LiveDir v d c) (hl : Cells v d c l) (hk : k ∈ l)
    (hi : i < slots_per_cluster v) (hlive : (slot v d k i).isLive = true) : ∃ lf, FileCells v d (slot v d k i) lf := by
  by_cases hzero : (slot v d k i).first_cluster = 0
  · exact ⟨[], .inl ⟨hzero, rfl⟩⟩
  · obtain ⟨lf, hlf⟩ := h.tidy.2.chain (live_lists hc hl hk hi hlive hzero).owns
    exact ⟨lf, .inr ⟨hzero, hlf⟩⟩

section Names

variable (h : WellFormed st.vol st.disk) (hmounted : st.mounted = true)
  (hcwd : LiveDir st.vol st.disk st.fat32_cwd_cluster) (hl : Cells st.vol st.disk st.fat32_cwd_cluster l)
  (hslash : slash ∉ n) (hfound : lookup st.vol st.disk false l n = some (k, j, i))

include h hl hslash hfound

/-- `fat32_unlink` of a name that its search finds at a regular file. -/
theorem unlink_returns (hmounted : st.mounted = true) (hfile : (slot st.vol st.disk k (16 * j + i)).isDirectory = false)
    (hlf : FileCells st.vol st.disk (slot st.vol st.disk k (16 * j + i)) lf) :
    ∃ d', Returns (fun fuel => fat32_unlink fuel st n) (0, { st with disk := d' }) ∧
      RemovesFile st.vol st.disk d' k j i lf := by
  obtain ⟨hk, hj, hi, _⟩ := lookup_some hfound
  have hfind := h.sane.find_name_returns hl false n
  rw [hfound] at hfind
  have hguess : guessed_parent st n = st.fat32_cwd_cluster := if_neg (head_of_no_slash hslash)
  have hdelete := h.sane.delete_found_eq (i := i) (hl.inRange hk) hj st.disk
  have hentry := found_at_entry (v := st.vol) (d := st.disk) (k := k) (j := j) hi
  -- the entry is marked before its chain is freed
  have hlf₁ := hlf.congr_words h.sane fun x hx =>
    @fat_word_update_data _ st.disk h.sane _ k j (mark_deleted (st.disk (data_sector st.vol k j)) i) hx
  obtain ⟨d', hfree, hfrees⟩ := hlf₁.free_chain_returns h.sane
  refine ⟨d', ?_, hlf.removesFile h.sane hi hfrees⟩
  filter_upwards [hfind, hfree] with fuel h₁ h₂
  simp [fat32_unlink, hmounted, hguess, h₁, hentry, hfile, hdelete, h₂]

include hmounted hcwd

theorem unlink_removed (hlfn : (slot st.vol st.disk k (16 * j + i)).attributes ≠ FAT_ATTR_LFN)
    (hfile : (slot st.vol st.disk k (16 * j + i)).isDirectory = false)
    (hret : Returns (fun fuel => fat32_unlink fuel st n) (0, { st with disk := d' })) :
    Removed st.vol st.disk d' k (16 * j + i) := by
  have hguess : guessed_parent st n = st.fat32_cwd_cluster := if_neg (head_of_no_slash hslash)
  obtain ⟨res, hret', hcase⟩ : ∃ res, Returns (fun fuel => fat32_unlink fuel st n) res ∧ UnlinkCase st n l res :=
    h.unlink_spec hmounted (by rwa [hguess]) (by rwa [hguess]) fun k' j' i' hfound' => by
      cases hfound.symm.trans hfound'
      exact hlfn
  have heq := hret.unique hret'
  cases hcase with
  | absent hnone => cases hnone.symm.trans hfound
  | directory k' j' i' hfound' hdir =>
    cases hfound'.symm.trans hfound
    cases hdir.symm.trans hfile
  | removed k' j' i' d'' hfound' _ hremoved =>
    cases hfound'.symm.trans hfound
    obtain rfl : d' = d'' := congrArg (fun r => r.2.disk) heq
    exact hremoved

end Names

/-- The removal of a file leaves its directory a directory with the same chain. -/
theorem Removed.dir_of_file (h : Removed v d d' k i) {c : ℕ} (hc : LiveDir v d c) (hl : Cells v d c l)
    (hfile : (slot v d k i).isDirectory = false) : LiveDir v d' c ∧ Cells v d' c l := by
  have hc' : LiveDir v d' c := by
    refine (h.dirs c).mpr ⟨hc, fun y hent => ?_⟩
    obtain ⟨_, _, hdir, _⟩ := named_object_some (view_ent_some hent).2
    cases hdir.symm.trans hfile
  exact ⟨hc', (h.dir_cells c l hc').mpr hl⟩

/-- What a search finds after a removal is another entry, the same as before. -/
theorem Removed.lookup_some (h : Removed v d d' k i) (hin : ∀ x ∈ l, v.InRange x) {skip_lfn : Bool} {k' j' i' : ℕ}
    (hfound : lookup v d' skip_lfn l n = some (k', j', i')) :
    (k', 16 * j' + i') ≠ (k, i) ∧ slot v d' k' (16 * j' + i') = slot v d k' (16 * j' + i') := by
  obtain ⟨hk', hj', hi', _, hdeleted, _⟩ := fat32.lookup_some hfound
  have hother : (k', 16 * j' + i') ≠ (k, i) := by
    intro heq
    obtain ⟨rfl, rfl⟩ := Prod.mk.inj heq
    exact hdeleted h.deleted
  exact ⟨hother, h.slots k' (hin k' hk') _ (slot_index_lt hj' hi') hother⟩

section Removed

variable (hremoved : Removed v d d' k (16 * j + i)) (hl : Cells v d c l)

include hremoved hl

/-- Without another entry of the name nothing is found after the removal. -/
theorem lookup_none_of_removed {skip_lfn : Bool} (hlfn : NoLongNames v d l)
    (hunique : ∀ s ∈ chain_slots v l, s ≠ (k, 16 * j + i) → (slot v d s.1 s.2).Occupied → ¬ Named v d n s) :
    lookup v d' skip_lfn l n = none := by
  cases hfound : lookup v d' skip_lfn l n with
  | none => rfl
  | some pos =>
    obtain ⟨k', j', i'⟩ := pos
    obtain ⟨hk', hj', hi', hzero, hdeleted, _, hname, hext⟩ := lookup_some hfound
    obtain ⟨hother, hslot⟩ := hremoved.lookup_some (fun x hx => hl.inRange hx) hfound
    rw [hslot] at hzero hdeleted hname hext
    have hi := slot_index_lt hj' hi'
    exact absurd ⟨hname, hext⟩ (hunique (k', 16 * j' + i') (mem_chain_slots.mpr ⟨hk', hi⟩) hother
      ⟨hzero, hdeleted, hlfn k' hk' _ hi hzero hdeleted⟩)

/-- The name is never found at an entry with the first cluster of the removed file again. -/
theorem found_ne_of_removed (hc : LiveDir v d c) (hfile : (slot v d k (16 * j + i)).isDirectory = false)
    (hlf : FileCells v d (slot v d k (16 * j + i)) lf) (hremoves : RemovesFile v d d' k j i lf) {k' j' i' : ℕ}
    (hfound : lookup v d' true l n = some (k', j', i')) (hne : (slot v d' k' (16 * j' + i')).first_cluster ≠ 0) :
    (slot v d' k' (16 * j' + i')).first_cluster ≠ (slot v d k (16 * j + i)).first_cluster := by
  obtain ⟨_, _, _, _, _, hlfn, _⟩ := lookup_some hfound
  obtain ⟨hc', hl'⟩ := hremoved.dir_of_file hc hl hfile
  obtain ⟨lf', hlf'⟩ := hremoved.wf.tidy.2.chain (lookup_lists hc' hl' hfound (hlfn rfl) hne).owns
  intro heq
  -- the clusters of the removed file are free, those of the other entry are not
  have hmem := hlf.head (heq ▸ hne)
  refine Cells.not_free hremoved.wf.sane hlf' (Chain.head_mem hlf') ?_
  rw [heq]
  exact ((hremoves.freed _).mp hmem).2.2

end Removed

/-- Unlinking a regular file of the current directory, which is free of long names: the
    call returns 0, exactly the clusters of the file have become free, of the data area
    one byte has changed, and the name no longer leads to the file, nor anywhere unless
    the directory has another entry of the same 8.3 name. -/
theorem unlink_reclaims_file (h : WellFormed st.vol st.disk) (hmounted : st.mounted = true)
    (hcwd : LiveDir st.vol st.disk st.fat32_cwd_cluster) (hl : Cells st.vol st.disk st.fat32_cwd_cluster l)
    (hlfn : NoLongNames st.vol st.disk l) (hne : n ≠ []) (hslash : slash ∉ n)
    (hfound : lookup st.vol st.disk false l n = some (k, j, i))
    (hfile : (slot st.vol st.disk k (16 * j + i)).isDirectory = false) :
    ∃ d' lf, Returns (fun fuel => fat32_unlink fuel st n) (0, { st with disk := d' }) ∧
      FileCells st.vol st.disk (slot st.vol st.disk k (16 * j + i)) lf ∧
      RemovesFile st.vol st.disk d' k j i lf ∧
      (∃ c, Returns (fun fuel => fat32_resolve_path fuel { st with disk := d' } n) c ∧
        (c ≠ 0 → c ≠ (slot st.vol st.disk k (16 * j + i)).first_cluster)) ∧
      ((∀ s ∈ chain_slots st.vol l, s ≠ (k, 16 * j + i) → (slot st.vol st.disk s.1 s.2).Occupied →
          ¬ Named st.vol st.disk n s) →
        Returns (fun fuel => fat32_resolve_path fuel { st with disk := d' } n) 0) := by
  obtain ⟨hk, hj, hi, hzero, hdeleted, _⟩ := lookup_some hfound
  have hslot := slot_index_lt hj hi
  have hnolfn := hlfn k hk _ hslot hzero hdeleted
  obtain ⟨lf, hlf⟩ := h.file_cells hcwd hl hk hslot (lookup_isLive hfound hnolfn)
  obtain ⟨d', hret, hremoves⟩ := unlink_returns h hl hslash hfound hmounted hfile hlf
  have hremoved := unlink_removed h hmounted hcwd hl hslash hfound hnolfn hfile hret
  obtain ⟨_, hl'⟩ := hremoved.dir_of_file hcwd hl hfile
  have hresolve := @resolve_component { st with disk := d' } n hslash h.sane hmounted hne _ hl'
  refine ⟨d', lf, hret, hlf, hremoves, ⟨_, hresolve, ?_⟩, fun hunique => ?_⟩
  · cases hfound' : lookup st.vol d' true l n with
    | none => exact fun hne => absurd rfl hne
    | some pos => exact found_ne_of_removed hremoved hl hcwd hfile hlf hremoves hfound'
  · rwa [lookup_none_of_removed hremoved hl hlfn hunique] at hresolve

theorem file_noLongNames : NoLongNames small_volume file_disk [2] := by
  intro k hk i hi hzero
  obtain rfl := List.mem_singleton.mp hk
  rcases Nat.eq_zero_or_pos i with rfl | hpos
  · decide +kernel
  · exact absurd (file_table.2.2.2 i hi hpos) hzero

/-- The only file of the root. -/
theorem unlink_reclaims_file_only : ∃ d' lf, Returns (fun fuel => fat32_unlink fuel file_state (ascii "A")) (0, { file_state with disk := d' }) ∧
    FileCells small_volume file_disk (slot small_volume file_disk 2 0) lf ∧ RemovesFile small_volume file_disk d' 2 0 0 lf ∧
      Returns (fun fuel => fat32_resolve_path fuel { file_state with disk := d' } (ascii "A")) 0 := by
  obtain ⟨d', lf, hret, hlf, hremoves, -, hgone⟩ := unlink_reclaims_file
    (show WellFormed file_state.vol file_state.disk from file_shape.1) rfl
    ((file_shape.2 2).mpr rfl) file_root_cells file_noLongNames (by decide) (by decide)
    (show lookup small_volume file_disk false [2] (ascii "A") = some (2, 0, 0) by decide +kernel)
    (show (slot small_volume file_disk 2 0).isDirectory = false by decide +kernel)
  refine ⟨d', lf, hret, hlf, hremoves, hgone fun s hs hother hocc => ?_⟩
  obtain ⟨k, i⟩ := s
  obtain ⟨hk, hi⟩ := mem_chain_slots.mp hs
  obtain rfl := List.mem_singleton.mp hk
  refine absurd (file_table.2.2.2 i hi (Nat.pos_of_ne_zero fun hzero => hother ?_)) hocc.1
  rw [hzero]

/-- A volume whose root directory holds two files of one name. -/
def twin_state : Fat32 := { small_state with
  disk := Function.update
    (set_next_cluster small_volume (set_next_cluster small_volume small_state.disk 3 FAT32_EOC) 4 FAT32_EOC) 2
    (put_entry (put_entry zero_buf 0 (ascii "A       ") (ascii "   ") FAT_ATTR_ARCHIVE 3 512)
      1 (ascii "A       ") (ascii "   ") FAT_ATTR_ARCHIVE 4 512) }

theorem twin_table : (∀ x, 2 ≤ x → x ≤ 4 → get_next_cluster small_volume twin_state.disk x = FAT32_EOC) ∧
    (∀ i < slots_per_cluster small_volume, named_object (slot small_volume twin_state.disk 2 i) =
      if i = 0 then some (false, 3) else if i = 1 then some (false, 4) else none) ∧
    ∀ i < slots_per_cluster small_volume, (slot small_volume twin_state.disk 2 i).attributes ≠ FAT_ATTR_LFN := by
  refine ⟨fun x hlo hhi => ?_, ?_, ?_⟩
  · obtain rfl | rfl | rfl : x = 2 ∨ x = 3 ∨ x = 4 := by omega
    all_goals decide +kernel
  all_goals decide +kernel

theorem twin_shape : WellFormed small_volume twin_state.disk ∧ ∀ c, LiveDir small_volume twin_state.disk c ↔ c = 2 := by
  refine wellFormed_of_flat_root small_volume_sane small_root_inRange (twin_table.1 2 (by decide) (by decide))
    (fun i => if i = 0 then [3] else if i = 1 then [4] else []) (fun i hi isDir c hobj => ?_) fun i j hne x hx => ?_
  · rw [show small_volume.bpb.root_cluster = 2 from rfl, twin_table.2.1 i hi] at hobj
    split at hobj
    case isTrue hzero =>
      cases hobj
      rw [if_pos hzero]
      exact ⟨rfl, cells_last (by decide) (twin_table.1 3 (by decide) (by decide)), by decide⟩
    case isFalse hzero =>
      split at hobj
      case isTrue hone =>
        cases hobj
        rw [if_neg hzero, if_pos hone]
        exact ⟨rfl, cells_last (by decide) (twin_table.1 4 (by decide) (by decide)), by decide⟩
      case isFalse => cases hobj
  · grind

/-- Unlinking the first of two files of one name: the name still resolves, to the second. -/
theorem unlink_leaves_twin :
    WellFormed small_volume twin_state.disk ∧ twin_state.mounted = true ∧ LiveDir small_volume twin_state.disk 2 ∧
      Cells small_volume twin_state.disk 2 [2] ∧ NoLongNames small_volume twin_state.disk [2] ∧
      lookup small_volume twin_state.disk false [2] (ascii "A") = some (2, 0, 0) ∧
      (slot small_volume twin_state.disk 2 0).isDirectory = false ∧
      ∃ st', Returns (fun fuel => fat32_unlink fuel twin_state (ascii "A")) (0, st') ∧
        Returns (fun fuel => fat32_resolve_path fuel st' (ascii "A")) 4 := by
  refine ⟨twin_shape.1, rfl, (twin_shape.2 2).mpr rfl, cells_last small_root_inRange (twin_table.1 2 (by decide) (by decide)),
    fun k hk i hi _ _ => ?_, by decide +kernel, by decide +kernel, ?_⟩
  · obtain rfl := List.mem_singleton.mp hk
    exact twin_table.2.2 i hi
  · have hrun : (fat32_unlink 5 twin_state (ascii "A")).map (fun res =>
        decide (res.1 = 0 ∧ fat32_resolve_path 5 res.2 (ascii "A") = some 4)) = some true := by decide +kernel
    obtain ⟨⟨rc, st'⟩, hres, hcheck⟩ := Option.map_eq_some_iff.mp hrun
    obtain ⟨hrc, hresolve⟩ := of_decide_eq_true hcheck
    obtain rfl : rc = 0 := hrc
    exact ⟨st', (fat32_unlink_stable _ _).returns hres, (fat32_resolve_path_stable _ _).returns hresolve⟩

end os_dev.fat32
