import OsDev.Fat32.Removal

open os_dev.ata os_dev.libc little_endian forest link_chain fuel

namespace os_dev.fat32

variable {v : Volume} {d d' : Disk}

/-- On `d'` the cluster `y` has become a chain of its own; the rest of the device is
    as on `d`. -/
structure Allocated (v : Volume) (d d' : Disk) (y : ℕ) : Prop where
  inRange : v.InRange y
  word : ∀ c, v.InTable c → fat_word v d' c = if c = y then FAT32_EOC else fat_word v d c
  data : ∀ k, v.InRange k → k ≠ y → ∀ j < v.bpb.sectors_per_cluster,
    d' (data_sector v k j) = d (data_sector v k j)

/-- On `d'` a cluster that nothing used has become a chain of its own. -/
structure Claimed (v : Volume) (d d' : Disk) (y : ℕ) : Prop extends Allocated v d d' y where
  unused : ¬ InUse v d y

theorem Allocated.link (hv : v.Sane) {y : ℕ} (h : Allocated v d d' y) : get_next_cluster v d' y = FAT32_EOC := by
  rw [hv.get_next_cluster_eq h.inRange.inTable, h.word y h.inRange.inTable, if_pos rfl]
  exact link_of_word_eoc

theorem Allocated.not_free {y : ℕ} (h : Allocated v d d' y) : ¬ IsFree v d' y := by
  unfold IsFree
  rw [h.word y h.inRange.inTable, if_pos rfl]
  decide

theorem Claimed.keeps (hwf : WellFormed v d) {y : ℕ} (h : Claimed v d d' y) : Keeps v d d' := by
  constructor
  · intro x hx
    rw [h.word x hx.inRange.inTable, if_neg]
    rintro rfl
    exact h.unused hx
  · intro k hk i hi
    have huse := hwf.inUse_of_dirCluster hk
    rw [slot_congr]
    apply h.data k huse.inRange _ _ (sector_of_slot hi)
    rintro rfl
    exact h.unused huse

/-- The clusters that come after an allocated one. -/
theorem Allocated.takesInRange {y n : ℕ} (h : Allocated v d d' y) (htakes : TakesInRange v d (n + 1)) :
    TakesInRange v d' n := by
  have hword : ∀ c, v.InTable c → c ≠ y → (IsFree v d' c ↔ IsFree v d c) := fun c hc hne =>
    isFree_congr (by rw [h.word c hc, if_neg hne])
  refine htakes.take (y := y) (fun c hc hne => (hword c hc.inTable hne).mpr) fun c hc hisfree => ?_
  by_cases heq : c = y
  · exact .inr (heq ▸ h.inRange)
  · exact .inl ((hword c hc heq).mp hisfree)

/-- Allocating a cluster and clearing it. -/
theorem Volume.Sane.allocated_zero (hv : v.Sane) {y : ℕ} (hy : v.InRange y) (d : Disk) :
    Allocated v d (zero_sectors v (cluster_to_lba v y) v.bpb.sectors_per_cluster 0
      (set_next_cluster v d y FAT32_EOC)) y := by
  refine ⟨hy, ?_, ?_⟩
  · intro c hc
    rw [hv.fat_word_congr hc fun lba hlba => hv.zero_cluster_table hy hlba _,
      hv.fat_word_set_next hy.inTable (by decide)]
  · intro k hk hne j hj
    rw [hv.zero_cluster_other hy hk hne hj,
      hv.set_next_cluster_data hy.inTable _ _ (data_lba_le_data_sector k j)]

theorem WellFormed.claimed_zero (h : WellFormed v d) {y : ℕ} (hy : v.InRange y) (hfree : IsFree v d y) :
    Claimed v d (zero_sectors v (cluster_to_lba v y) v.bpb.sectors_per_cluster 0
      (set_next_cluster v d y FAT32_EOC)) y :=
  ⟨h.sane.allocated_zero hy d, h.not_inUse_of_free hfree⟩

/-- The sectors of a new directory after its initialisation. -/
theorem Volume.Sane.init_directory_apply (hv : v.Sane) {y : ℕ} (hy : v.InRange y) (d : Disk) (parent x : ℕ) :
    init_directory v d y parent x =
      if x = data_sector v y 0 then dot_sector y parent
      else if data_sector v y 0 < x ∧ x < data_sector v y v.bpb.sectors_per_cluster then zero_buf
      else d x := by
  have hpos := hv.cluster_pos
  have hlast := (hv.sector_bound hy (Nat.sub_lt hpos Nat.one_pos)).1
  have hfirst : v.drive.Holds (data_sector v y 0) := ⟨hv.present, (hv.sector_bound hy hpos).1⟩
  have hend : data_sector v y 0 + 1 + (v.bpb.sectors_per_cluster - 1) = data_sector v y v.bpb.sectors_per_cluster := by
    unfold data_sector
    omega
  have hbound : data_sector v y 0 + 1 + (v.bpb.sectors_per_cluster - 1) ≤ v.drive.total_sectors := by
    rw [hend]
    unfold data_sector at *
    omega
  unfold init_directory
  simp only [hv.cluster_to_lba_eq hy]
  rw [hv.zero_sectors_apply _ _ _ hbound, write_of_holds hfirst, hend]
  by_cases hx : x = data_sector v y 0
  · subst hx
    simp
  · simp only [Function.update_of_ne hx, if_neg hx, Nat.succ_le_iff]

theorem Volume.Sane.allocated_directory (hv : v.Sane) {y : ℕ} (hy : v.InRange y) (d : Disk) (parent : ℕ) :
    Allocated v d (init_directory v (set_next_cluster v d y FAT32_EOC) y parent) y := by
  have hout : ∀ {x : ℕ}, ¬ (data_sector v y 0 ≤ x ∧ x < data_sector v y v.bpb.sectors_per_cluster) →
      init_directory v (set_next_cluster v d y FAT32_EOC) y parent x = set_next_cluster v d y FAT32_EOC x := by
    intro x hx
    have hpos := hv.cluster_pos
    have hstep : data_sector v y 0 < data_sector v y v.bpb.sectors_per_cluster := by
      unfold data_sector
      omega
    rw [hv.init_directory_apply hy, if_neg (by omega), if_neg (by omega)]
  refine ⟨hy, ?_, ?_⟩
  · intro c hc
    have hsame : fat_word v (init_directory v (set_next_cluster v d y FAT32_EOC) y parent) c =
        fat_word v (set_next_cluster v d y FAT32_EOC) c := by
      apply hv.fat_word_congr hc
      intro lba hlba
      apply hout
      have := data_lba_le_data_sector (v := v) y 0
      omega
    rw [hsame, hv.fat_word_set_next hy.inTable (by decide)]
  · intro k hk hne j hj
    rw [hout, hv.set_next_cluster_data hy.inTable _ _ (data_lba_le_data_sector k j)]
    rintro ⟨hlo, hhi⟩
    have hoff : data_sector v k j = data_sector v y (data_sector v k j - data_sector v y 0) := by
      unfold data_sector at *
      omega
    have hlt : data_sector v k j - data_sector v y 0 < v.bpb.sectors_per_cluster := by
      unfold data_sector at *
      omega
    exact hne (data_sector_inj hk.1 hy.1 hj hlt hoff).1

theorem WellFormed.claimed_directory (h : WellFormed v d) {y : ℕ} (hy : v.InRange y) (hfree : IsFree v d y)
    (parent : ℕ) : Claimed v d (init_directory v (set_next_cluster v d y FAT32_EOC) y parent) y :=
  ⟨h.sane.allocated_directory hy d parent, h.not_inUse_of_free hfree⟩

/-- Entry `e` has been placed in slot `i` of cluster `k` of the directory `p`. If
    `p` had no usable slot it has grown by the cluster `k`, whose other slots are
    end marks; nothing else has changed. -/
structure Placed (v : Volume) (d d' : Disk) (p k i : ℕ) (e : fat32_dir_entry_t) : Prop where
  wf : WellFormed v d'
  dirs : ∀ c, LiveDir v d' c ↔ LiveDir v d c ∨ named_object e = some (true, c)
  lists : ∀ p' k' i' b c, Lists v d' p' k' i' b c ↔
    Lists v d p' k' i' b c ∨ (p' = p ∧ k' = k ∧ i' = i ∧ named_object e = some (b, c))
  cells : ∀ o c l, Owns v d o c → Cells v d c l → Cells v d' c l ∨ (¬ InUse v d k ∧ Cells v d' c (l ++ [k]))
  here : ∃ l, Cells v d' p l ∧ k ∈ l
  slot_lt : i < slots_per_cluster v
  entry : slot v d' k i = e
  front : ∀ i' < i, i' / 16 = i / 16 → (slot v d' k i').name0 ≠ 0
  place : InUse v d k ∨ IsFree v d k
  word : ∀ c, v.InTable c → ¬ InUse v d c → c ≠ k → fat_word v d' c = fat_word v d c
  slots : ∀ k', v.InRange k' → (k' = k → InUse v d k) → ∀ i' < slots_per_cluster v, (k', i') ≠ (k, i) →
    slot v d' k' i' = slot v d k' i'
  grown : ¬ InUse v d k → ∀ i' < slots_per_cluster v, i' ≠ i → (slot v d' k i').name0 = 0

/-- The cluster `y` is a chain of its own that nothing uses and, for a
    directory, lists nothing. -/
structure Ready (v : Volume) (d : Disk) (y : ℕ) (isDir : Bool) : Prop where
  inRange : v.InRange y
  unused : ¬ InUse v d y
  used : ¬ IsFree v d y
  link : get_next_cluster v d y = FAT32_EOC
  empty : isDir = true → ∀ j < slots_per_cluster v, named_object (slot v d y j) = none

/-- Writing an entry for a ready cluster into a vacant slot. -/
theorem WellFormed.placed_fill (h : WellFormed v d) {p k j i y : ℕ} {l : List ℕ} (name : CStr) (attr : UInt8)
    (hp : LiveDir v d p) (hl : Cells v d p l) (hk : k ∈ l) (hj : j < v.bpb.sectors_per_cluster) (hi : i < 16)
    (hvacant : (slot v d k (16 * j + i)).name0 = 0 ∨ (slot v d k (16 * j + i)).name0 = 0xE5)
    (hbefore : ∀ i' < i, (slot v d k (16 * j + i')).name0 ≠ 0) {isDir : Bool}
    (hready : Ready v d y isDir)
    (hobj : ∀ b c, named_object (made_entry (standardize_base name) (standardize_ext name) attr y 0) = some (b, c) →
      b = isDir ∧ c = y) :
    Placed v d (fill_slot v d (k, j, i) name attr y 0) p k (16 * j + i)
      (made_entry (standardize_base name) (standardize_ext name) attr y 0) := by
  have hslot : 16 * j + i < slots_per_cluster v := slot_index_lt hj hi
  have huse : InUse v d k := h.inUse_of_dirCluster ⟨p, l, hp, hl, hk⟩
  have hword : ∀ c, v.InTable c → fat_word v (fill_slot v d (k, j, i) name attr y 0) c = fat_word v d c :=
    fun c hc => fat_word_fill h.sane hc
  have hsame := @slot_fill_same v d k j i name attr y 0 hi (by decide)
  have hother : ∀ k', v.InRange k' → ∀ i' < slots_per_cluster v, (k', i') ≠ (k, 16 * j + i) →
      slot v (fill_slot v d (k, j, i) name attr y 0) k' i' = slot v d k' i' :=
    fun k' hk' i' hi' hne => slot_fill_other huse.inRange.1 hk'.1 hj hi' hne
  have hfront : ∀ i' < 16 * j + i, i' / 16 = (16 * j + i) / 16 →
      (slot v (fill_slot v d (k, j, i) name attr y 0) k i').name0 ≠ 0 := by
    intro i' hlt hsector
    obtain ⟨i₀, rfl⟩ : ∃ i₀, i' = 16 * j + i₀ := ⟨i' - 16 * j, by omega⟩
    rw [hother k huse.inRange _ (by omega) (by simp; omega)]
    exact hbefore i₀ (by omega)
  have hnone := named_object_of_free hvacant
  have hcells : ∀ o c l, Owns v d o c → Cells v d c l →
      Cells v (fill_slot v d (k, j, i) name attr y 0) c l := fun _ _ _ ho hl => insert_cells h hword ho hl
  obtain ⟨o, ho⟩ := h.dir_owner hp
  cases hcase : named_object (made_entry (standardize_base name) (standardize_ext name) attr y 0) with
  | none =>
    -- the entry is written but names nothing, so the shape stays
    have hkeep : Keeps v d (fill_slot v d (k, j, i) name attr y 0) := by
      refine ⟨fun x hx => hword x hx.inRange.inTable, fun k' hk' i' hi' => ?_⟩
      by_cases heq : (k', i') = (k, 16 * j + i)
      · cases heq
        rw [hsame, hcase, hnone]
      · rw [hother k' (h.inUse_of_dirCluster hk').inRange i' hi' heq]
    obtain ⟨hwf, hdirs⟩ := hkeep.shape h
    exact {
      wf := hwf
      dirs := by simpa [hcase] using hdirs
      lists := by simpa [hcase] using hkeep.lists_iff h
      cells := fun o c l ho hl => .inl (hcells o c l ho hl)
      here := ⟨l, hcells o p l ho hl, hk⟩
      slot_lt := hslot
      entry := hsame
      front := hfront
      place := .inl huse
      word := fun c hc _ _ => hword c hc
      slots := fun k' hk' _ i' hi' hne => hother k' hk' i' hi' hne
      grown := fun hunused => absurd huse hunused }
  | some obj =>
    obtain ⟨b, c⟩ := obj
    obtain ⟨rfl, rfl⟩ := hobj b c hcase
    have hnew := hsame ▸ hcase
    obtain ⟨hwf, hdirs⟩ := insert_shape h hp hl hk hslot hnone hnew hready.inRange hready.unused hready.link
      hready.empty hword hother
    have hlists := insert_lists_iff h hp hl hk hslot hnone hnew hready.inRange hready.unused hready.link
      hready.empty hword hother
    exact {
      wf := hwf
      dirs := by
        intro c'
        rw [hdirs c', hcase]
        simp [eq_comm]
      lists := by
        intro p' k' i' b' c'
        rw [hlists p' k' i' b' c', hcase]
        simp [eq_comm]
      cells := fun o c l ho hl => .inl (hcells o c l ho hl)
      here := ⟨l, hcells o p l ho hl, hk⟩
      slot_lt := hslot
      entry := hsame
      front := hfront
      place := .inl huse
      word := fun c hc _ _ => hword c hc
      slots := fun k' hk' _ i' hi' hne => hother k' hk' i' hi' hne
      grown := fun hunused => absurd huse hunused }

section Grow

variable (h : WellFormed v d) {x y : ℕ} (hx : InUse v d x) (hlast : get_next_cluster v d x = FAT32_EOC)
  (hy : v.InRange y) (hfree : IsFree v d y)

include h hx hlast hy hfree

omit hlast hfree in
/-- The clusters that come after one by which an object has grown. -/
theorem append_takesInRange {n : ℕ} (htakes : TakesInRange v d (n + 1)) :
    TakesInRange v (append_cluster v d x y) n := by
  have hword : ∀ c, v.InTable c → c ≠ y → c ≠ x → (IsFree v (append_cluster v d x y) c ↔ IsFree v d c) :=
    fun c hc hcy hcx => isFree_congr (by rw [h.sane.fat_word_append hx.inRange hy hc, if_neg hcy, if_neg hcx])
  refine htakes.take (y := y) (fun c hc hcy hisfree => ?_) fun c hc hisfree => ?_
  · refine (hword c hc.inTable hcy fun heq => ?_).mpr hisfree
    exact h.not_free hx (heq ▸ hisfree)
  · by_cases hcy : c = y
    · exact .inr (hcy ▸ hy)
    · by_cases hcx : c = x
      · exact .inr (hcx ▸ hx.inRange)
      · exact .inl ((hword c hc hcy hcx).mp hisfree)

/-- A ready cluster stays ready while an object grows. -/
theorem Ready.append {z : ℕ} {isDir : Bool} (hready : Ready v d z isDir) :
    Ready v (append_cluster v d x y) z isDir := by
  have hzy : z ≠ y := by
    rintro rfl
    exact hready.used hfree
  have hzx : z ≠ x := by
    rintro rfl
    exact hready.unused hx
  have hword : fat_word v (append_cluster v d x y) z = fat_word v d z := by
    rw [h.sane.fat_word_append hx.inRange hy hready.inRange.inTable, if_neg hzy, if_neg hzx]
  refine ⟨hready.inRange, ?_, ?_, ?_, ?_⟩
  · intro huse
    rcases append_inUse h hx hlast hy hfree huse with hold | heq
    · exact hready.unused hold
    · exact hzy heq
  · rw [isFree_congr hword]
    exact hready.used
  · rw [h.sane.link_congr hready.inRange.inTable hword]
    exact hready.link
  · intro hdir j hj
    rw [slot_congr (h.sane.append_cluster_data hx.inRange hy hready.inRange hzy (sector_of_slot hj))]
    exact hready.empty hdir j hj

/-- Placing an entry in the first slot of a cluster by which the directory has grown. -/
theorem Placed.of_append {p i : ℕ} {e : fat32_dir_entry_t} {l : List ℕ} (hp : LiveDir v d p)
    (hl : Cells v d p l) (hxl : x ∈ l) (hplaced : Placed v (append_cluster v d x y) d' p y i e) :
    Placed v d d' p y i e := by
  have hunused := h.not_inUse_of_free hfree
  have hlists := append_lists_iff h hx hlast hy hfree
  have howns := owns_congr hlists
  have hdirs := (append_shape h hx hlast hy hfree).2
  have hyuse : InUse v (append_cluster v d x y) y := by
    obtain ⟨o, ho⟩ := h.dir_owner hp
    have hgrown := append_cells h hx hlast hy hfree ho hl
    rw [if_pos hxl] at hgrown
    exact ⟨o, p, _, (howns o p).mpr ho, hgrown, by simp⟩
  refine ⟨hplaced.wf, ?_, ?_, ?_,
    hplaced.here, hplaced.slot_lt, hplaced.entry, hplaced.front, .inr hfree, ?_, ?_, ?_⟩
  · intro c
    rw [hplaced.dirs c, hdirs c]
  · intro p' k' i' b c
    rw [hplaced.lists p' k' i' b c, hlists p' k' i' b c]
  · intro o c l₁ ho hl₁
    have hgrown := append_cells h hx hlast hy hfree ho hl₁
    rcases hplaced.cells o c _ ((howns o c).mpr ho) hgrown with hcells | ⟨hnot, _⟩
    · split at hcells
      · exact .inr ⟨hunused, hcells⟩
      · exact .inl hcells
    · exact absurd hyuse hnot
  · intro c hc huse hcy
    have hcx : c ≠ x := by
      rintro rfl
      exact huse hx
    have hold : ¬ InUse v (append_cluster v d x y) c := fun hc' =>
      (append_inUse h hx hlast hy hfree hc').elim huse hcy
    rw [hplaced.word c hc hold hcy, h.sane.fat_word_append hx.inRange hy hc, if_neg hcy, if_neg hcx]
  · intro k' hk' huse i' hi' hne
    have hky : k' ≠ y := by
      rintro rfl
      exact hunused (huse rfl)
    rw [hplaced.slots k' hk' (fun heq => absurd heq hky) i' hi' hne]
    exact slot_congr (h.sane.append_cluster_data hx.inRange hy hk' hky (sector_of_slot hi'))
  · intro _ i' hi' hne
    rw [hplaced.slots y hy (fun _ => hyuse) i' hi' (by simpa using hne)]
    exact append_new_slots h hy hi'

end Grow

/-- The first usable slot of a chain. -/
theorem free_hit_some {l : List ℕ} {k j i : ℕ} (h : chain_hit v d free_scan l = some (k, j, i)) :
    k ∈ l ∧ j < v.bpb.sectors_per_cluster ∧ i < 16 ∧
      ((slot v d k (16 * j + i)).name0 = 0 ∨ (slot v d k (16 * j + i)).name0 = 0xE5) ∧
      ∀ i' < i, (slot v d k (16 * j + i')).name0 ≠ 0 := by
  obtain ⟨hk, hj, hscan⟩ := chain_hit_some h
  obtain ⟨_, hi, hname, hbefore⟩ := scan_free_some hscan
  rw [slot_eq_dir_entry (by omega)]
  refine ⟨hk, hj, by omega, hname, fun i' hlt => ?_⟩
  rw [slot_eq_dir_entry (by omega)]
  exact (hbefore i' (Nat.zero_le i') hlt).1

/-- `create_entry` for a ready cluster in a live directory: it places the entry,
    or the directory and the volume are full and nothing changes. -/
theorem WellFormed.create_entry_spec (h : WellFormed v d) {p y : ℕ} {l : List ℕ}
    (hnext : chain_hit v d free_scan l = none → NextInRange v d) (name : CStr) (attr : UInt8)
    (hp : LiveDir v d p) (hl : Cells v d p l) {isDir : Bool}
    (hready : Ready v d y isDir)
    (hobj : ∀ b c, named_object (made_entry (standardize_base name) (standardize_ext name) attr y 0) = some (b, c) →
      b = isDir ∧ c = y) :
    (chain_hit v d free_scan l = none ∧ find_free_cluster v d = 0 ∧
      Returns (fun fuel => create_entry fuel v d p name attr y 0) (-1, d)) ∨
    ((chain_hit v d free_scan l ≠ none ∨ find_free_cluster v d ≠ 0) ∧
      ∃ k i d', Returns (fun fuel => create_entry fuel v d p name attr y 0) (0, d') ∧
        Placed v d d' p k i (made_entry (standardize_base name) (standardize_ext name) attr y 0)) := by
  have hcases := fun fuel (hfuel : l.length + 1 < fuel) =>
    h.sane.create_entry_cases hnext hl hfuel name attr y 0
  cases hhit : chain_hit v d free_scan l with
  | some pos =>
    obtain ⟨k, j, i⟩ := pos
    obtain ⟨hk, hj, hi, hvacant, hbefore⟩ := free_hit_some hhit
    refine .inr ⟨.inl (by simp), k, 16 * j + i, _, ?_,
      h.placed_fill name attr hp hl hk hj hi hvacant hbefore hready hobj⟩
    refine .of_gt (l.length + 1) fun fuel hfuel => ?_
    rcases hcases fuel hfuel with ⟨pos, hpos, heq⟩ | ⟨hnone, _⟩ | ⟨_, _, hnone, _⟩
    · rw [hhit] at hpos
      cases hpos
      exact heq
    · rw [hhit] at hnone
      cases hnone
    · rw [hhit] at hnone
      cases hnone
  | none =>
    by_cases hzero : find_free_cluster v d = 0
    · refine .inl ⟨rfl, hzero, .of_gt (l.length + 1) fun fuel hfuel => ?_⟩
      rcases hcases fuel hfuel with ⟨pos, hpos, _⟩ | ⟨_, _, heq⟩ | ⟨_, _, _, _, hne, _⟩
      · rw [hhit] at hpos
        cases hpos
      · exact heq
      · exact absurd hzero hne
    · have hin := hnext hhit hzero
      have hfree := h.sane.find_free_isFree hzero
      obtain ⟨x, hx, hlast⟩ := hl.exists_last
      have huse : InUse v d x := h.inUse_of_dirCluster ⟨p, l, hp, hl, hx⟩
      obtain ⟨o, ho⟩ := h.dir_owner hp
      have hgrown := append_cells h huse hlast hin hfree ho hl
      rw [if_pos hx] at hgrown
      have hwf := append_shape h huse hlast hin hfree
      have hplaced := hwf.1.placed_fill (j := 0) (i := 0) name attr ((hwf.2 p).mpr hp) hgrown
        (show find_free_cluster v d ∈ l ++ [find_free_cluster v d] by simp) h.sane.cluster_pos (by omega)
        (.inl (append_new_slots h hin (slot_index_lt h.sane.cluster_pos (by omega)))) (by simp)
        (hready.append h huse hlast hin hfree) hobj
      refine .inr ⟨.inr hzero, _, _, _, ?_, hplaced.of_append h huse hlast hin hfree hp hl hx⟩
      refine .of_gt (l.length + 1) fun fuel hfuel => ?_
      rcases hcases fuel hfuel with ⟨pos, hpos, _⟩ | ⟨_, hz, _⟩ | ⟨x', hx', _, hlast', _, _, _, heq⟩
      · rw [hhit] at hpos
        cases hpos
      · exact absurd hz hzero
      · rw [Chain.last_unique (not_inRange_eoc (v := v)) hl hx hlast hx' hlast']
        exact heq

end os_dev.fat32
