import OsDev.Fat32.Stability
import OsDev.Fat32.Walk

open os_dev.ata os_dev.libc little_endian forest link_chain fuel

namespace os_dev.fat32

variable {v : Volume} {d d' : Disk} {st : Fat32} {path : CStr}

theorem Claimed.ready (hwf : WellFormed v d) {y : ℕ} (h : Claimed v d d' y) {isDir : Bool}
    (hempty : isDir = true → ∀ j < slots_per_cluster v, named_object (slot v d' y j) = none) :
    Ready v d' y isDir := by
  refine ⟨h.inRange, ?_, h.not_free, h.link hwf.sane, hempty⟩
  rw [(h.keeps hwf).inUse_iff hwf]
  exact h.unused

/-- The directory at `p` has no usable slot and no two clusters are free. -/
def Cramped (v : Volume) (d : Disk) (p : ℕ) : Prop :=
  (∀ l, Cells v d p l → chain_hit v d free_scan l = none) ∧
    ∀ c c', 2 ≤ c → v.InTable c → IsFree v d c → 2 ≤ c' → v.InTable c' → IsFree v d c' → c = c'

/-- The clusters that a new object in the directory at `p` may take are clusters of the
    drive: its own and, where no slot is usable, one by which the directory grows. -/
def EntrySupply (v : Volume) (d : Disk) (p : ℕ) : Prop :=
  NextInRange v d ∧ ((∀ l, Cells v d p l → chain_hit v d free_scan l = none) → TakesInRange v d 2)

theorem entrySupply_of_takes (hv : v.Sane) (h : TakesInRange v d 2) (p : ℕ) : EntrySupply v d p :=
  ⟨h.next hv (by omega), fun _ => h⟩

section Allocated

variable {y p : ℕ} {l : List ℕ} (hv : v.Sane) (h : Allocated v d d' y) (hfree : IsFree v d y) (hl : Cells v d p l)

include hv h hfree hl

/-- A chain stays as it is when a free cluster is allocated. -/
theorem Allocated.cells : Cells v d' p l := by
  refine hl.congr_words hv fun x hx => ?_
  rw [h.word x (hl.inRange hx).inTable, if_neg]
  rintro rfl
  exact hl.not_free hv hx hfree

theorem Allocated.chain_hit (scan : Sector → Option ℕ) : chain_hit v d' scan l = fat32.chain_hit v d scan l := by
  refine chain_hit_congr fun k hk j hj => h.data k (hl.inRange hk) ?_ j hj
  rintro rfl
  exact hl.not_free hv hk hfree

/-- Once the object has its cluster, the directory grows by a cluster of the drive. -/
theorem Allocated.grows (hsupply : EntrySupply v d p) : fat32.chain_hit v d' free_scan l = none → NextInRange v d' := by
  intro hnone
  rw [h.chain_hit hv hfree hl] at hnone
  have htakes := hsupply.2 fun l' hl' => by rwa [Cells.unique hl' hl]
  exact (h.takesInRange htakes).next hv Nat.one_pos

/-- Whether `create_entry` can make room once a cluster has been allocated. -/
theorem Allocated.cramped_iff :
    (fat32.chain_hit v d' free_scan l = none ∧ find_free_cluster v d' = 0) ↔ Cramped v d p := by
  have hword : ∀ c, v.InTable c → c ≠ y → (IsFree v d' c ↔ IsFree v d c) := by
    intro c hc hne
    rw [isFree_congr]
    rw [h.word c hc, if_neg hne]
  have hfull : find_free_cluster v d' = 0 ↔ ∀ c, 2 ≤ c → v.InTable c → IsFree v d c → c = y := by
    rcases hv.find_free_cluster_spec d' with ⟨hzero, hnone⟩ | ⟨htwo, hin, hisfree, _⟩
    · refine ⟨fun _ c hc hc' hcfree => ?_, fun _ => hzero⟩
      by_contra hne
      exact hnone c hc hc' ((hword c hc' hne).mpr hcfree)
    · refine ⟨fun hzero => by omega, fun honly => ?_⟩
      have hne : find_free_cluster v d' ≠ y := by
        intro heq
        rw [heq] at hisfree
        exact h.not_free hisfree
      exact absurd (honly _ htwo hin ((hword _ hin hne).mp hisfree)) hne
  rw [h.chain_hit hv hfree hl, hfull]
  constructor
  · rintro ⟨hnone, honly⟩
    refine ⟨fun l' hl' => by rwa [Cells.unique hl' hl], fun c c' h₁ h₂ h₃ h₁' h₂' h₃' => ?_⟩
    rw [honly c h₁ h₂ h₃, honly c' h₁' h₂' h₃']
  · rintro ⟨hnone, honly⟩
    exact ⟨hnone l hl, fun c h₁ h₂ h₃ => honly c y h₁ h₂ h₃ h.inRange.1 h.inRange.inTable hfree⟩

end Allocated

/-- The slots of a new directory: the two dot entries and end marks. -/
theorem Volume.Sane.init_directory_slots (hv : v.Sane) {y : ℕ} (hy : v.InRange y) (d : Disk) (parent : ℕ) :
    slot v (init_directory v d y parent) y 0 = made_entry dot_name blank_ext FAT_ATTR_DIRECTORY y 0 ∧
      slot v (init_directory v d y parent) y 1 = made_entry dotdot_name blank_ext FAT_ATTR_DIRECTORY parent 0 ∧
      ∀ i < slots_per_cluster v, 2 ≤ i → (slot v (init_directory v d y parent) y i).name0 = 0 := by
  have hfirst : init_directory v d y parent (data_sector v y 0) = dot_sector y parent := by
    rw [hv.init_directory_apply hy, if_pos rfl]
  refine ⟨?_, ?_, ?_⟩
  · rw [show slot v (init_directory v d y parent) y 0 = dir_entry _ 0 from rfl, Nat.zero_div, hfirst, dot_sector,
      dir_entry_put_entry_other (by omega) (by omega)]
    exact dir_entry_put_entry (by omega) rfl rfl (by decide)
  · rw [show slot v (init_directory v d y parent) y 1 = dir_entry _ 1 from rfl,
      show 1 / 16 = 0 from rfl, hfirst, dot_sector]
    exact dir_entry_put_entry (by omega) rfl rfl (by decide)
  · intro i hi htwo
    unfold slot
    by_cases hsector : i / 16 = 0
    · rw [hsector, hfirst, dot_sector, dir_entry_put_entry_other (by omega) (by omega),
        dir_entry_put_entry_other (by omega) (by omega)]
      exact dir_entry_zero_name0 _
    · have hj := sector_of_slot hi
      rw [hv.init_directory_apply hy, if_neg, if_pos]
      · exact dir_entry_zero_name0 _
      · unfold data_sector
        omega
      · unfold data_sector
        omega

theorem Volume.Sane.init_directory_empty (hv : v.Sane) {y parent : ℕ} (hy : v.InRange y) (d : Disk) (j : ℕ)
    (hj : j < slots_per_cluster v) : named_object (slot v (init_directory v d y parent) y j) = none := by
  obtain ⟨h0, h1, hrest⟩ := hv.init_directory_slots hy d parent
  by_cases hj0 : j = 0
  · subst hj0
    rw [h0]
    exact named_object_of_dot rfl
  · by_cases hj1 : j = 1
    · subst hj1
      rw [h1]
      exact named_object_of_dot rfl
    · exact named_object_of_free (.inl (hrest j hj (by omega)))

/-- What an entry made by the driver names. -/
theorem made_entry_object {name : CStr} {attr : UInt8} {y : ℕ} (hy : v.InRange y) {b : Bool} {c : ℕ}
    (h : named_object (made_entry (standardize_base name) (standardize_ext name) attr y 0) = some (b, c)) :
    b = (attr &&& FAT_ATTR_DIRECTORY != 0) ∧ c = y := by
  obtain ⟨_, _, hdir, hfc⟩ := named_object_some h
  have hlt : y < 2 ^ 32 := by
    have := hy.lt_eoc
    omega
  rw [made_entry_first_cluster hlt] at hfc
  exact ⟨hdir.symm, hfc.symm⟩

/-- The parent that `fat32_mkdir` and `fat32_rmdir` compute can be followed and is
    a live directory, if there is one. -/
def SafeParent (st : Fat32) (path : CStr) : Prop :=
  match split_last_slash path with
  | none => LiveDir st.vol st.disk st.fat32_cwd_cluster
  | some ([], _) => True
  | some (front, _) => SafePath st front ∧ ∀ r, Returns (fun fuel => fat32_resolve_path fuel st front) r →
    r ≠ 0 → LiveDir st.vol st.disk r

theorem WellFormed.root_ne_zero (h : WellFormed v d) : v.bpb.root_cluster ≠ 0 := by
  obtain ⟨l, hl⟩ := h.dir_cells liveDir_root
  exact (hl.inRange hl.head_mem).ne_zero

theorem WellFormed.parent_and_name_returns (h : WellFormed st.vol st.disk) (hmounted : st.mounted = true)
    (hsafe : SafeParent st path) :
    ∃ p name leading, Returns (fun fuel => parent_and_name fuel st path) (p, name, leading) ∧
      (p ≠ 0 → LiveDir st.vol st.disk p) ∧ (leading = true → p ≠ 0) := by
  unfold SafeParent at hsafe
  split at hsafe
  case h_1 hsplit =>
    refine ⟨st.fat32_cwd_cluster, path, false, .of_forall fun fuel => ?_, fun _ => hsafe, by simp⟩
    simp [parent_and_name, hsplit]
  case h_2 name hsplit =>
    refine ⟨st.vol.bpb.root_cluster, name, true, .of_forall fun fuel => ?_, fun _ => liveDir_root,
      fun _ => h.root_ne_zero⟩
    simp [parent_and_name, hsplit]
  case h_3 front name hfront hsplit =>
    obtain ⟨r, hr, _⟩ := h.resolve_path hmounted hsafe.1
    refine ⟨r, name, false, ?_, hsafe.2 r hr, by simp⟩
    filter_upwards [hr] with fuel hfuel
    cases front with
    | nil => exact (hfront rfl).elim
    | cons c cs => simp [parent_and_name, hsplit, hfuel]

/-- What `fat32_mkdir` does on a well-formed volume. -/
inductive MkdirCase (st : Fat32) (path : CStr) : Int × Fat32 → Prop where
  | refused (p : ℕ) (name : CStr) (leading : Bool) (r : ℕ)
      (hparent : Returns (fun fuel => parent_and_name fuel st path) (p, name, leading))
      (hpath : Returns (fun fuel => fat32_resolve_path fuel st path) r)
      (hwhy : (p = 0 ∧ leading = false) ∨ r ≠ 0 ∨ find_free_cluster st.vol st.disk = 0) :
      MkdirCase st path (-1, st)
  | leaked (p : ℕ) (name : CStr) (leading : Bool) (y : ℕ) (d : Disk)
      (hparent : Returns (fun fuel => parent_and_name fuel st path) (p, name, leading))
      (hpath : Returns (fun fuel => fat32_resolve_path fuel st path) 0)
      (hy : y = find_free_cluster st.vol st.disk) (hfree : IsFree st.vol st.disk y)
      (hclaimed : Claimed st.vol st.disk d y) (hdir : LiveDir st.vol st.disk p) (hcramped : Cramped st.vol st.disk p) :
      MkdirCase st path (-1, { st with disk := d })
  | made (p : ℕ) (name : CStr) (leading : Bool) (y parent : ℕ) (d d' : Disk) (k i : ℕ)
      (hparent : Returns (fun fuel => parent_and_name fuel st path) (p, name, leading))
      (hpath : Returns (fun fuel => fat32_resolve_path fuel st path) 0) (hdir : LiveDir st.vol st.disk p)
      (hd : d = init_directory st.vol (set_next_cluster st.vol st.disk y FAT32_EOC) y parent)
      (hclaimed : Claimed st.vol st.disk d y)
      (hplaced : Placed st.vol d d' p k i
        (made_entry (standardize_base name) (standardize_ext name) FAT_ATTR_DIRECTORY y 0))
      (hroom : ¬ Cramped st.vol st.disk p) : MkdirCase st path (0, { st with disk := d' })

/-- What `fat32_mkdir` takes from the table, if it gets so far, are clusters of the drive. -/
def MkdirSupply (st : Fat32) (path : CStr) : Prop :=
  Returns (fun fuel => fat32_resolve_path fuel st path) 0 →
    ∀ p name leading, Returns (fun fuel => parent_and_name fuel st path) (p, name, leading) → p ≠ 0 →
      EntrySupply st.vol st.disk p

/-- `fat32_mkdir` ends, and does one of three things. -/
theorem WellFormed.mkdir_spec (h : WellFormed st.vol st.disk) (hsupply : MkdirSupply st path)
    (hmounted : st.mounted = true) (hsafe : SafePath st path) (hparent : SafeParent st path) :
    ∃ res, Returns (fun fuel => fat32_mkdir fuel st path) res ∧ MkdirCase st path res := by
  obtain ⟨p, name, leading, hp, hlive, hlead⟩ := h.parent_and_name_returns hmounted hparent
  obtain ⟨r, hr, _⟩ := h.resolve_path hmounted hsafe
  by_cases hzero : p = 0 ∧ leading = false
  · refine ⟨_, ?_, .refused p name leading r hp hr (.inl hzero)⟩
    filter_upwards [hp] with fuel h₁
    simp [fat32_mkdir, hmounted, h₁, hzero]
  have hp0 : p ≠ 0 := by
    intro hp0
    cases leading with
    | false => exact hzero ⟨hp0, rfl⟩
    | true => exact hlead rfl hp0
  by_cases hexists : r = 0
  case neg =>
    refine ⟨_, ?_, .refused p name leading r hp hr (.inr (.inl hexists))⟩
    filter_upwards [hp, hr] with fuel h₁ h₂
    simp [fat32_mkdir, hmounted, h₁, h₂, hexists]
  subst hexists
  by_cases hfull : find_free_cluster st.vol st.disk = 0
  · refine ⟨_, ?_, .refused p name leading 0 hp hr (.inr (.inr hfull))⟩
    filter_upwards [hp, hr] with fuel h₁ h₂
    simp [fat32_mkdir, hmounted, h₁, h₂, hfull]
  have htakes := hsupply hr p name leading hp hp0
  have hin := htakes.1 hfull
  have hfree := h.sane.find_free_isFree hfull
  generalize hy : find_free_cluster st.vol st.disk = y at hin hfree hfull
  generalize hparent : (if p = st.vol.bpb.root_cluster then 0 else p) = parent
  have hclaimed := h.claimed_directory hin hfree parent
  generalize hd : init_directory st.vol (set_next_cluster st.vol st.disk y FAT32_EOC) y parent = d at hclaimed
  have hkeep := hclaimed.keeps h
  obtain ⟨hwf, hdirs⟩ := hkeep.shape h
  obtain ⟨l, hl⟩ := h.dir_cells (hlive hp0)
  have hready : Ready st.vol d y true :=
    hclaimed.ready h fun _ j hj => by rw [← hd]; exact h.sane.init_directory_empty hin _ j hj
  have hcreate := hwf.create_entry_spec (hclaimed.grows h.sane hfree hl htakes) name FAT_ATTR_DIRECTORY
    ((hdirs p).mpr (hlive hp0)) ((hkeep.dir_cells h (hlive hp0)).mpr hl) hready
    fun b c hobj => made_entry_object hin hobj
  have hcramped := hclaimed.cramped_iff h.sane hfree hl
  rcases hcreate with ⟨hnone, hempty, hfail⟩ | ⟨hroom, k, i, d', hok, hplaced⟩
  · refine ⟨_, ?_, .leaked p name leading y d hp hr hy.symm hfree hclaimed (hlive hp0) (hcramped.mp ⟨hnone, hempty⟩)⟩
    filter_upwards [hp, hr, hfail] with fuel h₁ h₂ h₃
    simp [fat32_mkdir, hmounted, h₁, h₂, hp0, hy, hfull, hparent, hd, h₃]
  · refine ⟨_, ?_, .made p name leading y parent d d' k i hp hr (hlive hp0) hd.symm hclaimed hplaced ?_⟩
    case refine_2 =>
      rw [← hcramped]
      tauto
    filter_upwards [hp, hr, hok] with fuel h₁ h₂ h₃
    simp [fat32_mkdir, hmounted, h₁, h₂, hp0, hy, hfull, hparent, hd, h₃]

/-- The result of the second half of `fat32_open` when the search runs along the chain `l`. -/
def opened (st : Fat32) (path : CStr) (target_cluster : ℕ) (l : List ℕ) : Int × Fat32 :=
  match free_handle st.open_files with
  | none => (-1, st)
  | some fd =>
    let file := fresh_handle (st.open_files fd) path target_cluster
    match lookup st.vol st.disk false l (base_name path) with
    | none =>
      (-1, { st with open_files := Function.update st.open_files fd { file with valid := false } })
    | some (k, j, i) =>
      (fd.val, { st with open_files := Function.update st.open_files fd { file with
        file_size := (slot st.vol st.disk k (16 * j + i)).file_size
        dir_cluster := k
        dir_entry_index := j * 16 + i } })

/-- Taking a handle changes the handle table only. -/
theorem opened_fields (st : Fat32) (path : CStr) (t : ℕ) (l : List ℕ) :
    (opened st path t l).2.vol = st.vol ∧ (opened st path t l).2.disk = st.disk ∧
      (opened st path t l).2.mounted = st.mounted := by
  unfold opened
  cases free_handle st.open_files with
  | none => exact ⟨rfl, rfl, rfl⟩
  | some fd =>
    cases lookup st.vol st.disk false l (base_name path) with
    | none => exact ⟨rfl, rfl, rfl⟩
    | some pos => exact ⟨rfl, rfl, rfl⟩

theorem open_handle_returns (st : Fat32) (path : CStr) (hv : st.vol.Sane) {l : List ℕ}
    (hl : Cells st.vol st.disk (guessed_parent st path) l) (target_cluster : ℕ) :
    Returns (fun fuel => open_handle fuel st path target_cluster) (opened st path target_cluster l) := by
  filter_upwards [hv.find_name_returns hl false (base_name path)] with fuel hfind
  unfold open_handle opened
  cases free_handle st.open_files with
  | none => rfl
  | some fd =>
    simp only [hfind]
    cases hlookup : lookup st.vol st.disk false l (base_name path) with
    | none => rfl
    | some pos =>
      obtain ⟨k, j, i⟩ := pos
      have hentry := found_at_entry (v := st.vol) (d := st.disk) (k := k) (j := j) (lookup_some hlookup).2.2.1
      simp only [Option.map_some, hentry, Option.bind_eq_bind, Option.bind_some]
      rfl

/-- What `fat32_open` does on a well-formed volume. -/
inductive OpenCase (st : Fat32) (path : CStr) (mode : UInt8) : Int × Fat32 → Prop where
  | existing (r : ℕ) (l : List ℕ) (hpath : Returns (fun fuel => fat32_resolve_path fuel st path) r)
      (hr : r ≠ 0) (hl : Cells st.vol st.disk (guessed_parent st path) l) :
      OpenCase st path mode (opened st path r l)
  | absent (hpath : Returns (fun fuel => fat32_resolve_path fuel st path) 0)
      (hwhy : mode ≠ mode_w ∨ find_free_cluster st.vol st.disk = 0) : OpenCase st path mode (-1, st)
  | leaked (y : ℕ) (d : Disk) (hpath : Returns (fun fuel => fat32_resolve_path fuel st path) 0)
      (hmode : mode = mode_w) (hy : y = find_free_cluster st.vol st.disk) (hfree : IsFree st.vol st.disk y)
      (hclaimed : Claimed st.vol st.disk d y) (hcramped : Cramped st.vol st.disk (guessed_parent st path)) :
      OpenCase st path mode (-1, { st with disk := d })
  | created (y : ℕ) (d d' : Disk) (k i : ℕ) (l : List ℕ)
      (hpath : Returns (fun fuel => fat32_resolve_path fuel st path) 0) (hmode : mode = mode_w)
      (hy : y = find_free_cluster st.vol st.disk) (hfree : IsFree st.vol st.disk y)
      (hd : d = zero_sectors st.vol (cluster_to_lba st.vol y) st.vol.bpb.sectors_per_cluster 0
        (set_next_cluster st.vol st.disk y FAT32_EOC))
      (hclaimed : Claimed st.vol st.disk d y)
      (hplaced : Placed st.vol d d' (guessed_parent st path) k i
        (made_entry (standardize_base (base_name path)) (standardize_ext (base_name path)) FAT_ATTR_ARCHIVE y 0))
      (hl : Cells st.vol d' (guessed_parent st path) l)
      (hroom : ¬ Cramped st.vol st.disk (guessed_parent st path)) :
      OpenCase st path mode (opened { st with disk := d' } path y l)

/-- What `fat32_open` takes from the table, if it gets so far, are clusters of the drive. -/
def OpenSupply (st : Fat32) (path : CStr) (mode : UInt8) : Prop :=
  mode = mode_w → Returns (fun fuel => fat32_resolve_path fuel st path) 0 →
    EntrySupply st.vol st.disk (guessed_parent st path)

/-- `fat32_open` ends, and does one of four things. -/
theorem WellFormed.open_spec (h : WellFormed st.vol st.disk) {mode : UInt8} (hsupply : OpenSupply st path mode)
    (hmounted : st.mounted = true) (hsafe : SafePath st path)
    (hguess : LiveDir st.vol st.disk (guessed_parent st path)) :
    ∃ res, Returns (fun fuel => fat32_open fuel st path mode) res ∧ OpenCase st path mode res := by
  obtain ⟨r, hr, _⟩ := h.resolve_path hmounted hsafe
  obtain ⟨l, hl⟩ := h.dir_cells hguess
  by_cases hexists : r = 0
  case neg =>
    refine ⟨_, ?_, .existing r l hr hexists hl⟩
    filter_upwards [hr, open_handle_returns st path h.sane hl r] with fuel h₁ h₂
    simp [fat32_open, h₁, h₂, hexists]
  subst hexists
  by_cases hmode : mode = mode_w
  case neg =>
    refine ⟨_, ?_, .absent hr (.inl hmode)⟩
    filter_upwards [hr] with fuel h₁
    simp [fat32_open, h₁, hmode]
  by_cases hfull : find_free_cluster st.vol st.disk = 0
  · refine ⟨_, ?_, .absent hr (.inr hfull)⟩
    filter_upwards [hr] with fuel h₁
    simp [fat32_open, h₁, hmode, create_file, hfull]
  have htakes := hsupply hmode hr
  have hin := htakes.1 hfull
  have hfree := h.sane.find_free_isFree hfull
  generalize hy : find_free_cluster st.vol st.disk = y at hin hfree hfull
  have hclaimed := h.claimed_zero hin hfree
  generalize hd : zero_sectors st.vol (cluster_to_lba st.vol y) st.vol.bpb.sectors_per_cluster 0
    (set_next_cluster st.vol st.disk y FAT32_EOC) = d at hclaimed
  have hkeep := hclaimed.keeps h
  obtain ⟨hwf, hdirs⟩ := hkeep.shape h
  have hready : Ready st.vol d y false := hclaimed.ready h (by simp)
  have hcreate := hwf.create_entry_spec (hclaimed.grows h.sane hfree hl htakes) (base_name path) FAT_ATTR_ARCHIVE
    ((hdirs _).mpr hguess) ((hkeep.dir_cells h hguess).mpr hl) hready
    fun b c hobj => made_entry_object hin hobj
  have hcramped := hclaimed.cramped_iff h.sane hfree hl
  rcases hcreate with ⟨hnone, hempty, hfail⟩ | ⟨hroom, k, i, d', hok, hplaced⟩
  · refine ⟨_, ?_, .leaked y d hr hmode hy.symm hfree hclaimed (hcramped.mp ⟨hnone, hempty⟩)⟩
    filter_upwards [hr, hfail] with fuel h₁ h₂
    simp [fat32_open, create_file, h₁, hmode, hy, hfull, hd, h₂]
  · obtain ⟨l', hl', _⟩ := hplaced.here
    refine ⟨_, ?_, .created y d d' k i l' hr hmode hy.symm hfree hd.symm hclaimed hplaced hl' ?_⟩
    case refine_2 =>
      rw [← hcramped]
      tauto
    have hopen := open_handle_returns { st with disk := d' } path h.sane hl' y
    filter_upwards [hr, hok, hopen] with fuel h₁ h₂ h₃
    simp [fat32_open, create_file, h₁, hmode, hy, hfull, hd, h₂, h₃]

/-- What `fat32_unlink` does on a well-formed volume. -/
inductive UnlinkCase (st : Fat32) (path : CStr) (l : List ℕ) : Int × Fat32 → Prop where
  | absent (hlookup : lookup st.vol st.disk false l path = none) : UnlinkCase st path l (-1, st)
  | directory (k j i : ℕ) (hlookup : lookup st.vol st.disk false l path = some (k, j, i))
      (hdir : (slot st.vol st.disk k (16 * j + i)).isDirectory = true) : UnlinkCase st path l (-1, st)
  | removed (k j i : ℕ) (d : Disk) (hlookup : lookup st.vol st.disk false l path = some (k, j, i))
      (hdir : (slot st.vol st.disk k (16 * j + i)).isDirectory = false)
      (hremoved : Removed st.vol st.disk d k (16 * j + i)) : UnlinkCase st path l (0, { st with disk := d })

theorem WellFormed.delete_file (h : WellFormed v d) {p k j i : ℕ} {l : List ℕ} (hp : LiveDir v d p)
    (hl : Cells v d p l) (hk : k ∈ l) (hj : j < v.bpb.sectors_per_cluster) (hi : i < 16)
    (hlive : (slot v d k (16 * j + i)).isLive = true) :
    ∃ d', Returns (fun fuel => free_chain v fuel (delete_found v d (found_at v d (k, j, i)))
        (slot v d k (16 * j + i)).first_cluster) d' ∧ Removed v d d' k (16 * j + i) := by
  have hslot := slot_index_lt hj hi
  have hin : v.InRange k := hl.inRange hk
  rw [h.sane.delete_found_eq hin hj]
  generalize hd₁ : Function.update d (data_sector v k j) (mark_deleted (d (data_sector v k j)) i) = d₁
  have hword₁ : ∀ x, v.InTable x → fat_word v d₁ x = fat_word v d x := by
    intro x hx
    rw [← hd₁]
    exact fat_word_update_data h.sane hx
  have hdeleted : (slot v d₁ k (16 * j + i)).name0 = 0xE5 := hd₁ ▸ slot_delete_same hi
  have hother : ∀ k', v.InRange k' → ∀ i' < slots_per_cluster v, (k', i') ≠ (k, 16 * j + i) →
      slot v d₁ k' i' = slot v d k' i' := by
    intro k' hk' i' hi' hne
    rw [← hd₁]
    exact slot_delete_other hin.1 hk'.1 hj hi' hne
  by_cases hzero : (slot v d k (16 * j + i)).first_cluster = 0
  · refine ⟨d₁, .of_gt 0 fun fuel hfuel => ?_, ?_⟩
    · rw [hzero]
      exact free_chain_stop hfuel (.inl rfl)
    · exact h.removed hp hl hk hslot hdeleted hother fun x hx _ => hword₁ x hx
  · have hlists := live_lists hp hl hk hslot hlive hzero
    obtain ⟨lf, hlf⟩ := h.tidy.2.chain hlists.owns
    have hcells : Cells v d₁ (slot v d k (16 * j + i)).first_cluster lf :=
      Cells.congr_words h.sane hlf fun x hx => hword₁ x (Cells.inRange hlf hx).inTable
    obtain ⟨d₂, heq, hsame, _⟩ := h.sane.free_chain_spec hcells (Nat.lt_succ_self _)
    refine ⟨d₂, Stable.returns (fun _ _ _ hle hm => free_chain_mono hle hm) heq, ?_⟩
    apply h.removed hp hl hk hslot
    · rw [hsame.slot]
      exact hdeleted
    · intro k' hk' i' hi' hne
      rw [hsame.slot]
      exact hother k' hk' i' hi' hne
    · intro x hx hout
      refine (hsame.word x hx ?_).trans (hword₁ x hx)
      exact fun hmem => hout (hlists.belowCell_self hlf hmem)

/-- `fat32_unlink` ends, and removes the first entry of the name it searches
    for, provided this is no long-name part. -/
theorem WellFormed.unlink_spec (h : WellFormed st.vol st.disk) (hmounted : st.mounted = true) {l : List ℕ}
    (hguess : LiveDir st.vol st.disk (guessed_parent st path))
    (hl : Cells st.vol st.disk (guessed_parent st path) l)
    (hlfn : ∀ k j i, lookup st.vol st.disk false l path = some (k, j, i) →
      (slot st.vol st.disk k (16 * j + i)).attributes ≠ FAT_ATTR_LFN) :
    ∃ res, Returns (fun fuel => fat32_unlink fuel st path) res ∧ UnlinkCase st path l res := by
  have hfind := h.sane.find_name_returns hl false path
  cases hlookup : lookup st.vol st.disk false l path with
  | none =>
    refine ⟨_, ?_, .absent hlookup⟩
    filter_upwards [hfind] with fuel h₁
    simp [fat32_unlink, hmounted, h₁, hlookup]
  | some pos =>
    obtain ⟨k, j, i⟩ := pos
    obtain ⟨hk, hj, hi, _⟩ := lookup_some hlookup
    have hentry := found_at_entry (v := st.vol) (d := st.disk) (k := k) (j := j) hi
    cases hdir : (slot st.vol st.disk k (16 * j + i)).isDirectory with
    | true =>
      refine ⟨_, ?_, .directory k j i hlookup hdir⟩
      filter_upwards [hfind] with fuel h₁
      simp [fat32_unlink, hmounted, h₁, hlookup, hentry, hdir]
    | false =>
      obtain ⟨d', hfree, hremoved⟩ := h.delete_file hguess hl hk hj hi
        (lookup_isLive hlookup (hlfn k j i hlookup))
      refine ⟨_, ?_, .removed k j i d' hlookup hdir hremoved⟩
      filter_upwards [hfind, hfree] with fuel h₁ h₂
      simp [fat32_unlink, hmounted, h₁, hlookup, hentry, hdir, h₂]

/-- `fat32_rmdir` deletes the entry its path resolves to: the entry that its own
    search for the name finds is a directory entry with that first cluster. -/
structure SafeRmdir (st : Fat32) (path : CStr) (p : ℕ) (name : CStr) (l : List ℕ) (k j i : ℕ) : Prop where
  parent : ∃ leading, Returns (fun fuel => parent_and_name fuel st path) (p, name, leading)
  live : LiveDir st.vol st.disk p
  cells : Cells st.vol st.disk p l
  found : lookup st.vol st.disk false l name = some (k, j, i)
  not_lfn : (slot st.vol st.disk k (16 * j + i)).attributes ≠ FAT_ATTR_LFN
  directory : (slot st.vol st.disk k (16 * j + i)).isDirectory = true
  target : Returns (fun fuel => fat32_resolve_path fuel st path) (slot st.vol st.disk k (16 * j + i)).first_cluster

/-- A name search depends on the data area and the chain only. -/
theorem lookup_congr_data {skip_lfn : Bool} {l : List ℕ} {name : CStr}
    (hsame : ∀ lba, v.data_lba ≤ lba → d' lba = d lba) :
    lookup v d' skip_lfn l name = lookup v d skip_lfn l name := by
  apply chain_hit_scan_congr
  intro k _ i _
  rw [slot_congr (hsame _ (data_lba_le_data_sector _ _))]
  exact ⟨Iff.rfl, rfl⟩

theorem WellFormed.rmdir_spec (h : WellFormed st.vol st.disk) (hmounted : st.mounted = true)
    (hpath : path ≠ [slash]) {p : ℕ} {name : CStr} {l : List ℕ} {k j i : ℕ}
    (hsafe : SafeRmdir st path p name l k j i)
    (hzero : (slot st.vol st.disk k (16 * j + i)).first_cluster ≠ 0) :
    ∃ d, Returns (fun fuel => fat32_rmdir fuel st path) (0, { st with disk := d }) ∧
      Removed st.vol st.disk d k (16 * j + i) := by
  obtain ⟨hk, hj, hi, _⟩ := lookup_some hsafe.found
  have hin : st.vol.InRange k := hsafe.cells.inRange hk
  obtain ⟨leading, hparent⟩ := hsafe.parent
  have hlists := lookup_lists hsafe.live hsafe.cells hsafe.found hsafe.not_lfn hzero
  rw [hsafe.directory] at hlists
  have hy : LiveDir st.vol st.disk (slot st.vol st.disk k (16 * j + i)).first_cluster :=
    LiveEntry.liveDir ⟨p, hlists⟩
  obtain ⟨depth, hforest⟩ := h.exists_forest
  obtain ⟨d₁, hrm, hsame⟩ := h.recursive_rm_returns hy
  have hbelow : ∀ x, TreeCell st.vol st.disk (slot st.vol st.disk k (16 * j + i)).first_cluster x →
      BelowCell st.vol st.disk (k, 16 * j + i) x := fun x hx => hlists.below_of_treeCell hx
  -- the parent directory is no part of the subtree
  have hcells : Cells st.vol d₁ p l := by
    refine hsame.cells h.sane hsafe.cells fun x hx htree => ?_
    exact hforest.not_belowCell_of_dir hlists hsafe.cells hx (hbelow x htree)
  have hfound : lookup st.vol d₁ false l name = some (k, j, i) := by
    rw [lookup_congr_data hsame.data]
    exact hsafe.found
  refine ⟨delete_found st.vol d₁ (found_at st.vol d₁ (k, j, i)), ?_, ?_⟩
  · filter_upwards [hsafe.target, hparent, hrm, h.sane.find_name_returns hcells false name] with fuel h₁ h₂ h₃ h₄
    simp [fat32_rmdir, hmounted, hpath, h₁, hzero, h₂, h₃, h₄, hfound]
  · rw [h.sane.delete_found_eq hin hj]
    apply h.removed hsafe.live hsafe.cells hk (slot_index_lt hj hi)
    · exact slot_delete_same hi
    · intro k' hk' i' hi' hne
      rw [slot_delete_other hin.1 hk'.1 hj hi' hne, hsame.slot]
    · intro x hx hout
      rw [fat_word_update_data h.sane hx]
      exact hsame.word x hx fun htree => hout (hbelow x htree)

end os_dev.fat32
