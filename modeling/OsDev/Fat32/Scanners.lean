import OsDev.Fat32.Listing
import OsDev.Fat32.Blank

open os_dev.ata os_dev.libc little_endian forest link_chain fuel

namespace os_dev.fat32

variable {v : Volume} {d : Disk} {c k : ℕ} {l : List ℕ} {name : CStr}

/-- No slot in use of the chain is part of a long name. -/
def NoLongNames (v : Volume) (d : Disk) (l : List ℕ) : Prop :=
  ∀ k ∈ l, ∀ i < slots_per_cluster v, (slot v d k i).name0 ≠ 0 → (slot v d k i).name0 ≠ 0xE5 →
    (slot v d k i).attributes ≠ FAT_ATTR_LFN

/-- The slot has the 8.3 form of the name. -/
def Named (v : Volume) (d : Disk) (name : CStr) (s : ℕ × ℕ) : Prop :=
  (slot v d s.1 s.2).name = standardize_base name ∧ (slot v d s.1 s.2).ext = standardize_ext name

/-- No end mark stands in front of the slot in its sector, nor on it. -/
def SlotVisible (v : Volume) (d : Disk) (s : ℕ × ℕ) : Prop := Visible v d s.1 (s.2 / 16) (s.2 % 16)

/-- A live entry of the name stands behind the end mark of the directory, but not behind one
    of its own sector. -/
def Ghost (v : Volume) (d : Disk) (l : List ℕ) (name : CStr) : Prop :=
  ∃ s ∈ (chain_slots v l).dropWhile (fun s => ¬ Marked v d s),
    SlotVisible v d s ∧ (slot v d s.1 s.2).Occupied ∧ Named v d name s

/-- An entry of the name stands in front of the end mark of the directory. -/
def Listed (v : Volume) (d : Disk) (l : List ℕ) (name : CStr) : Prop :=
  ∃ s ∈ listed v d (chain_slots v l), Named v d name s

/-- What a search for a name can find: an entry that is visible in its sector. -/
theorem lookup_isSome_iff (hlfn : NoLongNames v d l) (skip_lfn : Bool) :
    (lookup v d skip_lfn l name).isSome = true ↔
      ∃ s ∈ chain_slots v l, SlotVisible v d s ∧ (slot v d s.1 s.2).Occupied ∧ Named v d name s := by
  constructor
  · intro hsome
    obtain ⟨⟨k, j, i⟩, hfound⟩ := Option.isSome_iff_exists.mp hsome
    obtain ⟨hk, hj, hi, hzero, hdeleted, _, hname, hext⟩ := lookup_some hfound
    have hslot := slot_index_lt hj hi
    refine ⟨(k, 16 * j + i), mem_chain_slots.mpr ⟨hk, hslot⟩, ?_,
      ⟨hzero, hdeleted, hlfn k hk _ hslot hzero hdeleted⟩, hname, hext⟩
    have hvisible := lookup_visible hfound
    rwa [SlotVisible, show (16 * j + i) / 16 = j by omega, show (16 * j + i) % 16 = i by omega]
  · rintro ⟨⟨k, i⟩, hmem, hvisible, hocc, hname, hext⟩
    obtain ⟨hk, hi⟩ := mem_chain_slots.mp hmem
    by_contra hnone
    have hmiss := chain_hit_scan_none (Option.not_isSome_iff_eq_none.mp hnone) hk (sector_of_slot hi)
      (Nat.mod_lt i (by decide)) hvisible
    rw [Nat.div_add_mod] at hmiss
    rw [matches_name_iff.mpr ⟨hocc.2.1, fun _ => hocc.2.2, hname, hext⟩] at hmiss
    cases hmiss

/-- In front of the first mark of a cluster there is no other one. -/
theorem unmarked_before {s : ℕ × ℕ} {start count : ℕ} (h : s ∈ (slots_from k start count).takeWhile fun s => ¬ Marked v d s) :
    s.1 = k ∧ ∀ i, start ≤ i → i ≤ s.2 → ¬ Marked v d (k, i) := by
  induction count generalizing start with
  | zero => exact absurd h List.not_mem_nil
  | succ count ih =>
    rw [slots_from_succ, List.takeWhile_cons] at h
    split at h
    case isTrue hfirst =>
      have hfirst := of_decide_eq_true hfirst
      obtain rfl | hrest := List.mem_cons.mp h
      · refine ⟨rfl, fun i hlo hhi => ?_⟩
        rwa [Nat.le_antisymm hhi hlo]
      · obtain ⟨hk, hbefore⟩ := ih hrest
        refine ⟨hk, fun i hlo hhi => ?_⟩
        obtain rfl | hlt := Nat.eq_or_lt_of_le hlo
        · exact hfirst
        · exact hbefore i hlt hhi
    case isFalse => exact absurd h List.not_mem_nil

/-- What is listed is visible in its sector. -/
theorem visible_of_unmarked {s : ℕ × ℕ} (h : s ∈ (chain_slots v l).takeWhile fun s => ¬ Marked v d s) : SlotVisible v d s := by
  have hcluster : ∃ k, s ∈ (slots_from k 0 (slots_per_cluster v)).takeWhile fun s => ¬ Marked v d s := by
    induction l with
    | nil => exact absurd h List.not_mem_nil
    | cons k l ih =>
      have hslots : chain_slots v (k :: l) = slots_from k 0 (slots_per_cluster v) ++ chain_slots v l := List.flatMap_cons
      rw [hslots, List.takeWhile_append] at h
      split at h
      case isTrue hall =>
        obtain hmem | hmem := List.mem_append.mp h
        · refine ⟨k, ?_⟩
          rwa [(List.takeWhile_sublist _).eq_of_length hall]
        · exact ih hmem
      case isFalse => exact ⟨k, h⟩
  obtain ⟨k, hmem⟩ := hcluster
  obtain ⟨rfl, hbefore⟩ := unmarked_before hmem
  intro i hi hmark
  exact hbefore (16 * (s.2 / 16) + i) (Nat.zero_le _) (by omega) hmark

theorem mem_listed {s : ℕ × ℕ} {slots : List (ℕ × ℕ)} :
    s ∈ listed v d slots ↔ s ∈ slots.takeWhile (fun s => ¬ Marked v d s) ∧ (slot v d s.1 s.2).Occupied := by
  rw [listed, List.mem_filter, decide_eq_true_eq]

/-- A search finds what is listed, and entries behind the end mark. -/
theorem lookup_isSome_iff_listed_or_ghost (hlfn : NoLongNames v d l) (skip_lfn : Bool) :
    (lookup v d skip_lfn l name).isSome = true ↔ Listed v d l name ∨ Ghost v d l name := by
  rw [lookup_isSome_iff hlfn]
  constructor
  · rintro ⟨s, hmem, hvisible, hocc, hname⟩
    rw [← List.takeWhile_append_dropWhile (p := fun s => decide (¬ Marked v d s)) (l := chain_slots v l)] at hmem
    obtain hmem | hmem := List.mem_append.mp hmem
    · exact .inl ⟨s, mem_listed.mpr ⟨hmem, hocc⟩, hname⟩
    · exact .inr ⟨s, hmem, hvisible, hocc, hname⟩
  · rintro (⟨s, hmem, hname⟩ | ⟨s, hmem, hrest⟩)
    · obtain ⟨hbefore, hocc⟩ := mem_listed.mp hmem
      exact ⟨s, (List.takeWhile_sublist _).subset hbefore, visible_of_unmarked hbefore, hocc, hname⟩
    · exact ⟨s, (List.dropWhile_sublist _).subset hmem, hrest⟩

/-- In a directory without long names: `fat32_list_dir` reports the live entries in front of
    the end mark, and the searches for a name, that of `fat32_resolve_path` (which skips long
    names) and those of `fat32_unlink` and `fat32_rmdir`, agree with it exactly if one of these
    has the name or no entry of the name is found behind the end mark. -/
theorem scanners_agree_iff (st : Fat32) (c : ℕ) (l : List ℕ) (name : CStr) (fuel : ℕ) (hmounted : st.mounted = true)
    (hv : st.vol.Sane) (hl : Cells st.vol st.disk c l) (hlfn : NoLongNames st.vol st.disk l) (hfuel : l.length < fuel) :
    fat32_list_dir fuel st c = some (0, reports st.vol st.disk (listed st.vol st.disk (chain_slots st.vol l))) ∧
      ((∀ skip_lfn, (∃ f, find_name st.vol st.disk skip_lfn fuel c name = some (some f)) ↔ Listed st.vol st.disk l name) ↔
        Listed st.vol st.disk l name ∨ ¬ Ghost st.vol st.disk l name) := by
  have hne : c ≠ 0 := (hl.inRange hl.head_mem).ne_zero
  have hfind : ∀ skip_lfn, (∃ f, find_name st.vol st.disk skip_lfn fuel c name = some (some f)) ↔
      Listed st.vol st.disk l name ∨ Ghost st.vol st.disk l name := by
    intro skip_lfn
    rw [← lookup_isSome_iff_listed_or_ghost hlfn skip_lfn, hv.find_name_eq hl hfuel]
    cases lookup st.vol st.disk skip_lfn l name with
    | none => simp
    | some pos => simp
  refine ⟨?_, ?_⟩
  · simp only [fat32_list_dir, hmounted, Bool.true_eq_false, if_false, hne]
    exact hv.list_loop_listed hl hfuel st.vol.uninit
  · simp only [hfind]
    constructor
    · intro hagree
      by_cases hlisted : Listed st.vol st.disk l name
      · exact .inl hlisted
      · exact .inr fun hghost => hlisted ((hagree true).mp (.inr hghost))
    · intro hcond _
      constructor
      · rintro (hlisted | hghost)
        · exact hlisted
        · exact hcond.resolve_right (not_not_intro hghost)
      · exact .inl

/-- A root of two clusters: in the first the file A and deleted entries, in the second the file B. -/
def two_cluster_state : Fat32 :=
  { small_state with
    disk :=
      let d := set_next_cluster small_volume (set_next_cluster small_volume small_state.disk 2 3) 3 FAT32_EOC
      let d := Function.update d 2 (put_entry (Sector.ofFn fun j => if j % 32 = 0 then 0xE5 else 0) 0
        (ascii "A       ") (ascii "   ") FAT_ATTR_ARCHIVE 4 0)
      Function.update d 3 (put_entry zero_buf 0 (ascii "B       ") (ascii "   ") FAT_ATTR_ARCHIVE 5 0) }

theorem two_cluster_cells : Cells small_volume two_cluster_state.disk 2 [2, 3] :=
  cells_step (show small_volume.InRange 2 by decide) (by decide +kernel)
    (cells_last (show small_volume.InRange 3 by decide) (by decide +kernel))

theorem two_cluster_noLongNames : NoLongNames small_volume two_cluster_state.disk [2, 3] := by
  have hall : ∀ k ∈ [2, 3], ∀ i < 16, (slot small_volume two_cluster_state.disk k i).name0 ≠ 0 →
      (slot small_volume two_cluster_state.disk k i).attributes ≠ FAT_ATTR_LFN := by decide +kernel
  exact fun k hk i hi hzero _ => hall k hk i hi hzero

/-- Both files are reported, and a search for B finds it. -/
theorem scanners_agree_two_clusters :
    fat32_list_dir 3 two_cluster_state 2 = some (0, reports small_volume two_cluster_state.disk [(2, 0), (3, 0)]) ∧
      Listed small_volume two_cluster_state.disk [2, 3] (ascii "B") ∧
      ∀ skip_lfn, (∃ f, find_name small_volume two_cluster_state.disk skip_lfn 3 2 (ascii "B") = some (some f)) ↔
        Listed small_volume two_cluster_state.disk [2, 3] (ascii "B") := by
  obtain ⟨hlist, hagree⟩ := scanners_agree_iff two_cluster_state 2 [2, 3] (ascii "B") 3 rfl small_volume_sane
    two_cluster_cells two_cluster_noLongNames (by decide)
  have hslots : listed small_volume two_cluster_state.disk (chain_slots small_volume [2, 3]) = [(2, 0), (3, 0)] := by
    decide +kernel
  have hlisted : Listed small_volume two_cluster_state.disk [2, 3] (ascii "B") := by
    refine ⟨(3, 0), ?_, by decide +kernel, by decide +kernel⟩
    rw [hslots]
    exact List.mem_cons_of_mem _ List.mem_cons_self
  refine ⟨?_, hlisted, hagree.mpr (.inl hlisted)⟩
  rw [hlist]
  exact congrArg (fun slots => some (0, reports small_volume two_cluster_state.disk slots)) hslots

/-- A root of two clusters, with an entry in the second behind the end mark in the first. -/
def stale_state : Fat32 :=
  { small_state with
    disk := fill_slot small_volume (set_next_cluster small_volume (set_next_cluster small_volume small_state.disk 2 3) 3 FAT32_EOC)
      (3, 0, 0) (ascii "A") FAT_ATTR_ARCHIVE 4 0 }

/-- The entry is found, but not listed. -/
theorem stale_entry_found_not_listed :
    Cells stale_state.vol stale_state.disk 2 [2, 3] ∧ NoLongNames stale_state.vol stale_state.disk [2, 3] ∧
      (find_name stale_state.vol stale_state.disk true 3 2 (ascii "A")).map Option.isSome = some true ∧
      (find_name stale_state.vol stale_state.disk false 3 2 (ascii "A")).map Option.isSome = some true ∧
      fat32_list_dir 3 stale_state 2 = some (0, []) := by
  have hin : ∀ k, 2 ≤ k → k < 128 → small_volume.InRange k := fun k htwo hlt => small_volume_table k htwo hlt
  refine ⟨.step (hin 2 (by decide) (by decide)) (b := 3) (by decide +kernel)
    (.last (hin 3 (by decide) (by decide)) (by decide +kernel)), ?_, by decide +kernel, by decide +kernel, by decide +kernel⟩
  have hall : ∀ k ∈ [2, 3], ∀ i < 16, (slot small_volume stale_state.disk k i).name0 ≠ 0 →
      (slot small_volume stale_state.disk k i).attributes ≠ FAT_ATTR_LFN := by decide +kernel
  exact fun k hk i hi hzero _ => hall k hk i hi hzero

end os_dev.fat32
