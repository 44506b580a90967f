import OsDev.Fat32.FlatDir
import OsDev.Fat32.Blank

open os_dev.ata os_dev.libc little_endian forest link_chain fuel

namespace os_dev.fat32

variable {v : Volume} {d d₁ : Disk} {S T : ℕ → Prop}

/-- The second device is the first with the table words of the clusters in `S`
    cleared and nothing else of the table or the data area changed. -/
structure Frees (v : Volume) (S : ℕ → Prop) (d d' : Disk) : Prop where
  data : ∀ lba, v.data_lba ≤ lba → d' lba = d lba
  cleared : ∀ x, v.InTable x → S x → fat_word v d' x = 0
  kept : ∀ x, v.InTable x → ¬ S x → fat_word v d' x = fat_word v d x

theorem Frees.nothing (hS : ∀ x, ¬ S x) : Frees v S d d :=
  ⟨fun _ _ => rfl, fun x _ hx => absurd hx (hS x), fun _ _ _ => rfl⟩

theorem Frees.congr (h : Frees v S d d₁) (hiff : ∀ x, S x ↔ T x) : Frees v T d d₁ :=
  ⟨h.data, fun x hx hT => h.cleared x hx ((hiff x).mpr hT), fun x hx hT => h.kept x hx (mt (hiff x).mp hT)⟩

theorem Frees.sameOn (h : Frees v S d d₁) : SameOn v (¬ S ·) d d₁ := ⟨h.data, h.kept⟩

/-- No directory at or below `y` has an entry behind an end mark. -/
def CleanBelow (v : Volume) (d : Disk) (y : ℕ) : Prop :=
  ∀ c l, (view v d).Under y c → Cells v d c l → CleanTail v d l

/-- The specification of a procedure `rm` that removes exactly the directory `z`. -/
def FreesTree (v : Volume) (d : Disk) (rm : Disk → ℕ → Option Disk) (z : ℕ) : Prop :=
  ∀ d₁, SameOn v (TreeCell v d z) d d₁ → ∃ d₂, rm d₁ z = some d₂ ∧ Frees v (TreeCell v d z) d₁ d₂

theorem ClearsTree.freesTree {all : Prop} {rm : Disk → ℕ → Option Disk} {z : ℕ} (h : ClearsTree v d all rm z) (hall : all) :
    FreesTree v d rm z := by
  intro d₁ hsame
  obtain ⟨d₂, heq, hclears⟩ := h d₁ hsame
  exact ⟨d₂, heq, hclears.data, hclears.cleared hall, hclears.kept⟩

/-- `recursive_rm` of a live directory without entries behind end marks returns, and
    frees exactly the clusters of the directory and of everything below it. -/
theorem WellFormed.recursive_rm_frees (h : WellFormed v d) {y : ℕ} (hy : LiveDir v d y)
    (hclean : CleanBelow v d y) :
    ∃ d', Returns (fun fuel => recursive_rm fuel v d y) d' ∧ Frees v (TreeCell v d y) d d' := by
  obtain ⟨fuel, hclears⟩ := h.exists_clearsTree hy (fun (_ : True) c l hunder hl => (hclean c l hunder hl).within)
  obtain ⟨d', heq, hfrees⟩ := hclears.freesTree trivial d .refl
  exact ⟨d', Stable.returns (fun _ _ _ hle hm => rm_loop_mono hle hm) heq, hfrees⟩

/-- Cluster `x` is on the chain of the directory `y`, of a directory below it, or of a
    file in one of these. -/
def InTree (v : Volume) (d : Disk) (y x : ℕ) : Prop :=
  ∃ c, (view v d).Under y c ∧ ((∃ l, Cells v d c l ∧ x ∈ l) ∨
    ∃ k i f l, Lists v d c k i false f ∧ Cells v d f l ∧ x ∈ l)

theorem Lists.inTree {y c k i z x : ℕ} {b : Bool} {l : List ℕ} (h : Lists v d c k i b z)
    (hunder : (view v d).Under y c) (hl : Cells v d z l) (hx : x ∈ l) : InTree v d y x := by
  cases b with
  | false => exact ⟨c, hunder, .inr ⟨k, i, z, l, h, hl, hx⟩⟩
  | true =>
    obtain ⟨_, ⟨lc, hlc, hk⟩, hent⟩ := h
    exact ⟨z, hunder.sub hlc hk hent, .inl ⟨l, hl, hx⟩⟩

theorem Lists.treeCell {y c k i z x : ℕ} {b : Bool} {l : List ℕ} (h : Lists v d c k i b z) (hy : LiveDir v d y)
    (hunder : (view v d).Under y c) (hl : Cells v d z l) (hx : x ∈ l) : TreeCell v d y x := by
  rcases hunder.head with rfl | ⟨k', ly, i', y', hly, hk', hent', hunder'⟩
  · exact .inr ⟨(k, i), b, z, h, h.belowCell_self hl hx⟩
  · exact .inr ⟨(k', i'), true, y', ⟨hy, ⟨ly, hly, hk'⟩, hent'⟩, (k, i), z, l,
      .inr ⟨y', c, b, z, hent', hunder', h⟩, h.owns, hl, hx⟩

theorem treeCell_iff_inTree (h : WellFormed v d) {y x : ℕ} (hy : LiveDir v d y) :
    TreeCell v d y x ↔ InTree v d y x := by
  obtain ⟨depth, hforest⟩ := h.exists_forest
  constructor
  · rintro (⟨l, hl, hx⟩ | ⟨t, b, z, ⟨_, ⟨l, hl, hk⟩, hent⟩, o, c, lc, hbelow, ⟨p, b', hlists⟩, hlc, hx⟩)
    · exact ⟨y, .self, .inl ⟨l, hl, hx⟩⟩
    · have hunder : (view v d).Under y p := by
        rcases hbelow with rfl | ⟨z', p', _, _, hent', hunder, hlists'⟩
        · rw [hforest.lists_dir hlists ⟨hy, ⟨l, hl, hk⟩, hent⟩]
          exact .self
        · rw [hforest.lists_dir hlists hlists']
          exact (View.Under.self.sub hl hk hent').trans hunder
      exact Lists.inTree hlists hunder hlc hx
  · rintro ⟨c, hunder, ⟨l, hl, hx⟩ | ⟨k, i, f, l, hlists, hl, hx⟩⟩
    · cases hunder with
      | self => exact .inl ⟨l, hl, hx⟩
      | sub hp hlp hk hent =>
        have hlists : Lists v d _ _ _ true c := ⟨(hforest.under_mem hy hp).1, ⟨_, hlp, hk⟩, hent⟩
        exact Lists.treeCell hlists hy hp hl hx
    · exact Lists.treeCell hlists hy hunder hl hx

/-- A volume whose root directory holds one file of one cluster. -/
def file_disk : Disk :=
  Function.update (set_next_cluster small_volume (set_next_cluster small_volume small_state.disk 0 FAT32_EOC) 3 FAT32_EOC)
    2 (put_entry zero_buf 0 (ascii "A       ") (ascii "   ") FAT_ATTR_ARCHIVE 3 512)

theorem file_table : get_next_cluster small_volume file_disk 2 = FAT32_EOC ∧
    get_next_cluster small_volume file_disk 3 = FAT32_EOC ∧
    (∀ i < slots_per_cluster small_volume,
      named_object (slot small_volume file_disk 2 i) = if i = 0 then some (false, 3) else none) ∧
    ∀ i < slots_per_cluster small_volume, 0 < i → (slot small_volume file_disk 2 i).name0 = 0 := by
  decide +kernel

theorem file_cells : Cells small_volume file_disk 3 [3] := .last (show small_volume.InRange 3 by decide) file_table.2.1

theorem file_root_cells : Cells small_volume file_disk 2 [2] := .last small_root_inRange file_table.1

theorem file_shape : WellFormed small_volume file_disk ∧ ∀ c, LiveDir small_volume file_disk c ↔ c = 2 :=
  wellFormed_of_one_file small_volume_sane small_root_inRange file_table.1 file_cells file_table.2.2.1 (by decide)

/-- A volume whose root directory holds the directory D with the directory E in it, which holds the
    file F, and the file G. -/
def tree_disk : Disk :=
  let d := [2, 3, 4, 5, 6].foldl (fun d c => set_next_cluster small_volume d c FAT32_EOC)
    (set_next_cluster small_volume small_state.disk 0 FAT32_EOC)
  let dots := fun c parent => put_entry (put_entry zero_buf 0 (ascii ".       ") (ascii "   ") FAT_ATTR_DIRECTORY c 0)
    1 (ascii "..      ") (ascii "   ") FAT_ATTR_DIRECTORY parent 0
  let d := Function.update d 2 (put_entry (put_entry zero_buf 0 (ascii "D       ") (ascii "   ") FAT_ATTR_DIRECTORY 3 0)
    1 (ascii "G       ") (ascii "   ") FAT_ATTR_ARCHIVE 6 512)
  let d := Function.update d 3 (put_entry (dots 3 0) 2 (ascii "E       ") (ascii "   ") FAT_ATTR_DIRECTORY 4 0)
  Function.update d 4 (put_entry (dots 4 3) 2 (ascii "F       ") (ascii "   ") FAT_ATTR_ARCHIVE 5 512)

theorem tree_table : (∀ c ∈ [0, 2, 3, 4, 5, 6], get_next_cluster small_volume tree_disk c = FAT32_EOC) ∧
    (∀ i < slots_per_cluster small_volume, named_object (slot small_volume tree_disk 2 i) =
      if i = 0 then some (true, 3) else if i = 1 then some (false, 6) else none) ∧
    (∀ i < slots_per_cluster small_volume, named_object (slot small_volume tree_disk 3 i) =
      if i = 2 then some (true, 4) else none) ∧
    ∀ i < slots_per_cluster small_volume, named_object (slot small_volume tree_disk 4 i) =
      if i = 2 then some (false, 5) else none := by
  decide +kernel

theorem tree_marks : ∀ k ∈ [2, 3, 4], (∀ i < 2, (slot small_volume tree_disk k i).name0 ≠ 0) ∧
    ∀ i < slots_per_cluster small_volume, 2 < i → (slot small_volume tree_disk k i).name0 = 0 := by
  decide +kernel

theorem tree_cells {c : ℕ} (hc : c ∈ [2, 3, 4, 5, 6]) : Cells small_volume tree_disk c [c] := by
  have hin : ∀ c ∈ [2, 3, 4, 5, 6], small_volume.InRange c := by decide
  exact cells_last (hin c hc) (tree_table.1 c (List.mem_cons_of_mem _ hc))

/-- The slot that names the object at cluster `c`. -/
def tree_home (c : ℕ) : ℕ × ℕ := if c = 3 then (2, 0) else if c = 6 then (2, 1) else if c = 4 then (3, 2) else (4, 2)

theorem tree_ents {k i c : ℕ} {isDir : Bool} (hk : k ∈ [2, 3, 4]) (hi : i < slots_per_cluster small_volume)
    (hobj : named_object (slot small_volume tree_disk k i) = some (isDir, c)) :
    c ∈ [3, 4, 5, 6] ∧ tree_home c = (k, i) ∧ (isDir = true → c ∈ [3, 4] ∧ c = k + 1) := by
  obtain ⟨-, hroot, hd, he⟩ := tree_table
  simp only [List.mem_cons, List.not_mem_nil, or_false] at hk
  rcases hk with rfl | rfl | rfl
  · rw [hroot i hi] at hobj
    split at hobj
    case isTrue hzero =>
      cases hobj
      exact ⟨by decide, by rw [hzero]; rfl, fun _ => ⟨by decide, rfl⟩⟩
    case isFalse =>
      split at hobj
      case isTrue hone =>
        cases hobj
        exact ⟨by decide, by rw [hone]; rfl, nofun⟩
      case isFalse => cases hobj
  · rw [hd i hi] at hobj
    split at hobj
    case isTrue htwo =>
      cases hobj
      exact ⟨by decide, by rw [htwo]; rfl, fun _ => ⟨by decide, rfl⟩⟩
    case isFalse => cases hobj
  · rw [he i hi] at hobj
    split at hobj
    case isTrue htwo =>
      cases hobj
      exact ⟨by decide, by rw [htwo]; rfl, nofun⟩
    case isFalse => cases hobj

theorem tree_shape : WellFormed small_volume tree_disk ∧ ∀ c, LiveDir small_volume tree_disk c ↔ c ∈ [2, 3, 4] := by
  have hmem : ∀ c ∈ [3, 4, 5, 6], c ∈ [2, 3, 4, 5, 6] ∧ c ≠ 2 := by decide
  have hdirs : ∀ c ∈ [2, 3, 4], c ∈ [2, 3, 4, 5, 6] := by decide
  refine wellFormed_of_tree small_volume_sane (fun c => c) tree_home (by decide) (fun c hc => tree_cells (hdirs c hc))
    (fun k hk i hi isDir c hobj => ?_) fun c hc => ?_
  · obtain ⟨hc, hhome, hdir⟩ := tree_ents hk hi hobj
    exact ⟨tree_cells (hmem c hc).1, (hmem c hc).2, hhome, fun heq => (hdir heq).imp_left (List.mem_cons_of_mem _)⟩
  · simp only [List.mem_cons, List.not_mem_nil, or_false] at hc
    rcases hc with rfl | rfl | rfl
    · exact .inl rfl
    · exact .inr ⟨2, by decide, 0, by decide, tree_table.2.1 0 (by decide)⟩
    · exact .inr ⟨3, by decide, 2, by decide, tree_table.2.2.1 2 (by decide)⟩

theorem tree_cleanTail {c : ℕ} {l : List ℕ} (hc : LiveDir small_volume tree_disk c)
    (hl : Cells small_volume tree_disk c l) : CleanTail small_volume tree_disk l := by
  have hmem : ∀ c ∈ [2, 3, 4], c ∈ [2, 3, 4, 5, 6] := by decide
  have hdir := (tree_shape.2 c).mp hc
  obtain rfl := Cells.unique hl (tree_cells (hmem c hdir))
  obtain ⟨hfront, hback⟩ := tree_marks c hdir
  exact cleanTail_single hfront hback

/-- The directory 3 and the one below it. -/
theorem tree_under {c : ℕ} (hc : (view small_volume tree_disk).Under 3 c) : c = 3 ∨ c = 4 := by
  induction hc with
  | self => exact .inl rfl
  | sub _ hcells hk hent ih =>
    obtain ⟨hi, hobj⟩ := view_ent_some hent
    rcases ih with rfl | rfl
    · obtain rfl := Cells.unique hcells (tree_cells (by decide))
      obtain rfl := List.mem_singleton.mp hk
      exact .inr ((tree_ents (by decide) hi hobj).2.2 rfl).2
    · obtain rfl := Cells.unique hcells (tree_cells (by decide))
      obtain rfl := List.mem_singleton.mp hk
      have hmem := (tree_ents (by decide) hi hobj).2.2 rfl
      simp [hmem.2] at hmem

/-- D is the directory at cluster 3; below it lie E, at 4, and F, at 5. -/
theorem tree_inTree (x : ℕ) : InTree small_volume tree_disk 3 x ↔ x ∈ [3, 4, 5] := by
  have hd : Cells small_volume tree_disk 3 [3] := tree_cells (by decide)
  have he : Cells small_volume tree_disk 4 [4] := tree_cells (by decide)
  have hf : Cells small_volume tree_disk 5 [5] := tree_cells (by decide)
  have hsub : (view small_volume tree_disk).Under 3 4 :=
    View.Under.self.sub hd List.mem_cons_self ((view_ent_of_lt (by decide)).trans (tree_table.2.2.1 2 (by decide)))
  constructor
  · rintro ⟨c, hc, ⟨l, hl, hx⟩ | ⟨k, i, f, l, ⟨_, ⟨lc, hlc, hk⟩, hent⟩, hl, hx⟩⟩
    · rcases tree_under hc with rfl | rfl
      · rw [Cells.unique hl hd] at hx
        exact List.mem_append_left [4, 5] hx
      · rw [Cells.unique hl he] at hx
        exact List.mem_cons_of_mem _ (List.mem_append_left [5] hx)
    · obtain ⟨hi, hobj⟩ := view_ent_some hent
      rcases tree_under hc with rfl | rfl
      · obtain rfl := Cells.unique hlc hd
        obtain rfl := List.mem_singleton.mp hk
        rw [tree_table.2.2.1 i hi] at hobj
        split at hobj <;> cases hobj
      · obtain rfl := Cells.unique hlc he
        obtain rfl := List.mem_singleton.mp hk
        rw [tree_table.2.2.2 i hi] at hobj
        split at hobj
        case isTrue =>
          cases hobj
          rw [Cells.unique hl hf] at hx
          exact List.mem_cons_of_mem _ (List.mem_cons_of_mem _ hx)
        case isFalse => cases hobj
  · intro hx
    simp only [List.mem_cons, List.not_mem_nil, or_false] at hx
    rcases hx with rfl | rfl | rfl
    · exact ⟨3, .self, .inl ⟨_, hd, List.mem_cons_self⟩⟩
    · exact ⟨4, hsub, .inl ⟨_, he, List.mem_cons_self⟩⟩
    · refine ⟨4, hsub, .inr ⟨4, 2, 5, _, ⟨(tree_shape.2 4).mpr (by decide), ⟨_, he, List.mem_cons_self⟩, ?_⟩, hf, List.mem_cons_self⟩⟩
      exact (view_ent_of_lt (by decide)).trans (tree_table.2.2.2 2 (by decide))

/-- Recursive removal is exact: for a directory of a well-formed volume with nothing
    behind the end marks of its subtree, it ends, and the table words of the subtree are
    cleared and nothing else of the table or the data area is changed. -/
theorem recursive_rm_exact (h : WellFormed v d) {y : ℕ} (hy : LiveDir v d y) (hclean : CleanBelow v d y) :
    ∃ d', Returns (fun fuel => recursive_rm fuel v d y) d' ∧
      (∀ x, v.InTable x → InTree v d y x → fat_word v d' x = 0) ∧
      (∀ x, v.InTable x → ¬ InTree v d y x → fat_word v d' x = fat_word v d x) ∧
      ∀ lba, v.data_lba ≤ lba → d' lba = d lba := by
  obtain ⟨d', hret, hfrees⟩ := h.recursive_rm_frees hy hclean
  have hexact := hfrees.congr fun x => treeCell_iff_inTree h hy
  exact ⟨d', hret, hexact.cleared, hexact.kept, hexact.data⟩

theorem recursive_rm_exact_tree :
    ∃ d', Returns (fun fuel => recursive_rm fuel small_volume tree_disk 3) d' ∧
      (∀ x ∈ [3, 4, 5], fat_word small_volume d' x = 0) ∧
      (∀ x, small_volume.InTable x → x ∉ [3, 4, 5] → fat_word small_volume d' x = fat_word small_volume tree_disk x) ∧
      ∀ lba, 2 ≤ lba → d' lba = tree_disk lba := by
  have hdir : LiveDir small_volume tree_disk 3 := (tree_shape.2 3).mpr (by decide)
  have htable : ∀ x ∈ [3, 4, 5], small_volume.InTable x := by decide
  obtain ⟨depth, hforest⟩ := tree_shape.1.exists_forest
  obtain ⟨d', hret, hcleared, hkept, hdata⟩ := recursive_rm_exact tree_shape.1 hdir
    fun c l hunder hl => tree_cleanTail (hforest.under_mem hdir hunder).1 hl
  exact ⟨d', hret, fun x hx => hcleared x (htable x hx) ((tree_inTree x).mpr hx),
    fun x hin hx => hkept x hin (mt (tree_inTree x).mp hx), hdata⟩

end os_dev.fat32
