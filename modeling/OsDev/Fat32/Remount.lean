import OsDev.Fat32.Isolation

open os_dev.ata os_dev.libc fuel

namespace os_dev.fat32

variable {v : Volume} {d d₁ d' : Disk} {st st' : Fat32}

/-- The table starts so far below the 32-bit limit that the sector of no table word wraps, whatever the cluster number. -/
def TableLow (v : Volume) : Prop := v.fat_lba + 2 ^ 23 ≤ 2 ^ 32

theorem TableLow.set_next (h : TableLow v) (c next : ℕ) : KeepsFront v d (set_next_cluster v d c next) := by
  intro lba hlba
  unfold TableLow at h
  have hoffset : u32 (c * 4) / 512 < 2 ^ 23 := by
    unfold u32
    omega
  have hsector : u32 (v.fat_lba + u32 (c * 4) / 512) = v.fat_lba + u32 (c * 4) / 512 := u32_of_lt (by omega)
  apply write_of_ne
  rw [hsector]
  omega

/-- Freeing a chain touches the table only, even where the chain is damaged. -/
theorem free_chain_front (h : TableLow v) {fuel c : ℕ} (hfree : free_chain v fuel d c = some d') : KeepsFront v d d' := by
  induction fuel generalizing d c with
  | zero => cases hfree
  | succ fuel ih =>
    rw [free_chain] at hfree
    split at hfree
    · exact (h.set_next c FAT32_FREE).trans (ih hfree)
    · cases hfree
      exact .refl

section remove

variable {fuel n i : ℕ} {buf buf' : Sector} {rm : Disk → ℕ → Option Disk}
  (hrm : ∀ d c d', rm d c = some d' → KeepsFront v d d')

include hrm

theorem rm_entry_front (h : TableLow v) {e : fat32_dir_entry_t} (hres : rm_entry v fuel rm d e = some d') : KeepsFront v d d' := by
  unfold rm_entry at hres
  split at hres
  · exact hrm d _ d' hres
  · exact free_chain_front h hres

theorem rm_entries_front (h : TableLow v) (hres : rm_entries v fuel rm buf n i d = some d') : KeepsFront v d d' := by
  induction n generalizing i d with
  | zero =>
    cases hres
    exact .refl
  | succ n ih =>
    simp only [rm_entries] at hres
    split at hres
    · cases hres
      exact .refl
    · split at hres
      · exact ih hres
      · obtain ⟨d₁, hentry, hrest⟩ := Option.bind_eq_some_iff.mp hres
        exact (rm_entry_front hrm h hentry).trans (ih hrest)

theorem rm_sectors_front (h : TableLow v) {lba : ℕ} (hres : rm_sectors v fuel rm lba n i buf d = some (buf', d')) :
    KeepsFront v d d' := by
  induction n generalizing i buf d with
  | zero =>
    cases hres
    exact .refl
  | succ n ih =>
    obtain ⟨d₁, hentries, hrest⟩ := Option.bind_eq_some_iff.mp hres
    exact (rm_entries_front hrm h hentries).trans (ih hrest)

end remove

theorem rm_loop_front (h : TableLow v) {fuel c : ℕ} {buf : Sector} (hres : rm_loop v fuel d c buf = some d') :
    KeepsFront v d d' := by
  induction fuel generalizing d d' c buf with
  | zero => cases hres
  | succ fuel ih =>
    rw [rm_loop] at hres
    split at hres
    · obtain ⟨⟨buf', d₁⟩, hsectors, hrest⟩ := Option.bind_eq_some_iff.mp hres
      have hfirst := rm_sectors_front (fun d c d' hrm => ih hrm) h hsectors
      exact (hfirst.trans (h.set_next c FAT32_FREE)).trans (ih hrest)
    · cases hres
      exact .refl

theorem create_entry_front (hv : v.Sane) {p fuel : ℕ} {lp : List ℕ}
    (hnext : chain_hit v d free_scan lp = none → NextInRange v d) (hlp : Cells v d p lp) (hfuel : lp.length + 1 < fuel) {name : CStr} {attr : UInt8} {fc size : ℕ} {res : Int × Disk}
    (hcreate : create_entry fuel v d p name attr fc size = some res) : KeepsFront v d res.2 := by
  obtain ⟨pos, -, heq⟩ | ⟨-, -, heq⟩ | ⟨x, hx, -, -, -, hin, -, heq⟩ := hv.create_entry_cases hnext hlp hfuel name attr fc size
  · cases hcreate.symm.trans heq
    exact hv.keepsFront_update _ _ _
  · cases hcreate.symm.trans heq
    exact .refl
  · cases hcreate.symm.trans heq
    exact (hv.keepsFront_append (hlp.inRange hx) hin).trans (hv.keepsFront_update _ _ _)

theorem Volume.Sane.keepsFront_init_directory (hv : v.Sane) {y : ℕ} (hy : v.InRange y) (parent : ℕ) :
    KeepsFront v d (init_directory v d y parent) := by
  intro lba hlba
  have hdata := data_lba_le_data_sector (v := v) y 0
  have htable := hv.table_before_data
  rw [hv.init_directory_apply hy, if_neg (by omega), if_neg (by omega)]

/-- The volume stays mounted as it is, with the same boot sector. -/
structure SameVolume (st st' : Fat32) : Prop where
  vol : st'.vol = st.vol
  front : KeepsFront st.vol st.disk st'.disk

theorem SameVolume.of_disk (hvol : st'.vol = st.vol) (hdisk : st'.disk = st.disk) : SameVolume st st' := by
  refine ⟨hvol, ?_⟩
  rw [hdisk]
  exact .refl

theorem SameVolume.trans {st₁ : Fat32} (h₁ : SameVolume st st₁) (h₂ : SameVolume st₁ st') : SameVolume st st' := by
  refine ⟨h₂.vol.trans h₁.vol, h₁.front.trans ?_⟩
  have hfront := h₂.front
  rwa [h₁.vol] at hfront

section calls

variable (h : Sound st) {path : CStr} {res : Int × Fat32}

include h

theorem open_same_volume {mode : UInt8} (hsupply : OpenSupply st path mode) (hsafe : Safe st (.open path mode))
    (hret : Returns (fun fuel => fat32_open fuel st path mode) res) : SameVolume st res.2 := by
  obtain ⟨-, hguess, -⟩ := hsafe
  obtain ⟨lp, hlp⟩ := h.wf.dir_cells hguess
  obtain ⟨fuel, hopen, hfuel⟩ := (hret.and (Filter.eventually_gt_atTop (lp.length + 1))).exists
  have hvol := open_vol hopen
  obtain hback | ⟨⟨hmode, hresolve, hne⟩, rc, hcreate⟩ := open_disk hopen
  · exact .of_disk hvol hback
  · have htakes := hsupply hmode ((fat32_resolve_path_stable st path).returns hresolve)
    have hin := htakes.1 hne
    have hfree := h.wf.sane.find_free_isFree hne
    have hclaimed := h.wf.claimed_zero hin hfree
    have hcells := ((hclaimed.keeps h.wf).dir_cells h.wf hguess).mpr hlp
    have hentry := create_entry_front h.wf.sane (hclaimed.grows h.wf.sane hfree hlp htakes) hcells hfuel hcreate
    have hclear := h.wf.sane.keepsFront_set_next (d := st.disk) hin.inTable FAT32_EOC
    exact ⟨hvol, (hclear.trans (h.wf.sane.keepsFront_zero hin)).trans hentry⟩

theorem mkdir_same_volume (hsupply : MkdirSupply st path) (hsafe : Safe st (.mkdir path))
    (hret : Returns (fun fuel => fat32_mkdir fuel st path) res) : SameVolume st res.2 := by
  obtain ⟨p, name, leading, hparent, hlive, hleading⟩ := h.wf.parent_and_name_returns h.mounted hsafe.2
  by_cases hp : p = 0
  · obtain ⟨fuel, hmkdir, hnamed⟩ := (hret.and hparent).exists
    obtain rfl | ⟨-, p', name', leading', -, -, -, hnamed', hfollowed, -⟩ := mkdir_cases hmkdir
    · exact .of_disk rfl rfl
    · cases hnamed.symm.trans hnamed'
      exact absurd ⟨hp, Bool.eq_false_of_not_eq_true fun hlead => hleading hlead hp⟩ hfollowed
  obtain ⟨lp, hlp⟩ := h.wf.dir_cells (hlive hp)
  obtain ⟨fuel, hmkdir, hnamed, hfuel⟩ := (hret.and (hparent.and (Filter.eventually_gt_atTop (lp.length + 1)))).exists
  obtain rfl | ⟨⟨hresolve, hne⟩, p', name', leading', dotdot, rc, d, hnamed', -, hcreate, rfl⟩ := mkdir_cases hmkdir
  · exact .of_disk rfl rfl
  cases hnamed.symm.trans hnamed'
  rw [if_neg hp] at hcreate
  have htakes := hsupply ((fat32_resolve_path_stable st path).returns hresolve) p name leading hparent hp
  have hin := htakes.1 hne
  have hfree := h.wf.sane.find_free_isFree hne
  have hclaimed := h.wf.claimed_directory hin hfree dotdot
  have hcells := ((hclaimed.keeps h.wf).dir_cells h.wf (hlive hp)).mpr hlp
  have hentry := create_entry_front h.wf.sane (hclaimed.grows h.wf.sane hfree hlp htakes) hcells hfuel hcreate
  have hclear := h.wf.sane.keepsFront_set_next (d := st.disk) hin.inTable FAT32_EOC
  exact ⟨rfl, (hclear.trans (h.wf.sane.keepsFront_init_directory hin dotdot)).trans hentry⟩

theorem unlink_same_volume (hlow : TableLow st.vol) (hsafe : Safe st (.unlink path))
    (hret : Returns (fun fuel => fat32_unlink fuel st path) res) : SameVolume st res.2 := by
  obtain ⟨lp, hlp⟩ := h.wf.dir_cells hsafe.1
  obtain ⟨fuel, hunlink, hfind⟩ := (hret.and (h.wf.sane.find_name_returns hlp false path)).exists
  have hvol := unlink_vol hunlink
  obtain hback | ⟨f, hf, hchain⟩ := unlink_disk hunlink
  · exact .of_disk hvol hback
  · refine ⟨hvol, .trans ?_ (free_chain_front hlow hchain)⟩
    obtain ⟨⟨k, j, i⟩, hlookup, rfl⟩ := Option.map_eq_some_iff.mp (Option.some.inj (hf.symm.trans hfind)).symm
    obtain ⟨hk, hj, -⟩ := lookup_some hlookup
    rw [h.wf.sane.delete_found_eq (hlp.inRange hk) hj]
    exact h.wf.sane.keepsFront_update _ _ _

theorem rmdir_same_volume (hlow : TableLow st.vol) (hsafe : Safe st (.rmdir path))
    (hret : Returns (fun fuel => fat32_rmdir fuel st path) res) : SameVolume st res.2 := by
  have hrefused : Returns (fun fuel => fat32_rmdir fuel st path) (-1, st) → SameVolume st res.2 := by
    intro hback
    rw [hret.unique hback]
    exact .of_disk rfl rfl
  by_cases hroot : path = [slash]
  · exact hrefused (.of_forall fun fuel => by simp [fat32_rmdir, h.mounted, hroot])
  obtain hslash | ⟨hpath, hentry⟩ := hsafe
  · exact absurd hslash hroot
  obtain ⟨r, hr, -⟩ := h.wf.resolve_path h.mounted hpath
  by_cases hzero : r = 0
  · apply hrefused
    filter_upwards [hr] with fuel hresolve
    simp [fat32_rmdir, h.mounted, hroot, hresolve, hzero]
  obtain ⟨p, name, lp, k, j, i, hrmdir, -⟩ := hentry r hr hzero
  have htarget : (slot st.vol st.disk k (16 * j + i)).first_cluster ≠ 0 := by rwa [← hr.unique hrmdir.target]
  obtain ⟨d, hdone, -⟩ := h.wf.rmdir_spec h.mounted hroot hrmdir htarget
  obtain ⟨d₁, buf, y, hrm, -, hdisk⟩ := hrmdir.disk h.wf h.mounted hroot htarget hret
  obtain ⟨fuel, hrm⟩ := hrm.exists
  have hvol : res.2.vol = st.vol := by rw [hret.unique hdone]
  refine ⟨hvol, ?_⟩
  rw [hdisk]
  exact (rm_loop_front hlow hrm).trans (h.wf.sane.keepsFront_update _ _ _)

theorem write_same_volume {fd : Int} {bytes : List UInt8} (hsupply : Supplied st (.write fd bytes))
    (hsafe : Safe st (.write fd bytes)) :
    SameVolume st (fat32_write st fd bytes).2 := by
  refine ⟨write_vol st fd bytes, ?_⟩
  unfold fat32_write
  cases hfd : handle st fd with
  | none => exact .refl
  | some i =>
    by_cases hbytes : bytes = []
    · subst hbytes
      exact .refl
    · obtain ⟨⟨p, k, s, hlists⟩, hcur, hoffset⟩ := hsafe i hfd hbytes
      have hok := h.handles i (handle_valid hfd)
      obtain ⟨lw, hlw, hmem⟩ := hok.position
      have hfile : Writable st.vol st.disk k s (st.open_files i) :=
        ⟨⟨p, hlists⟩, ⟨lw, hlw, hmem.resolve_right hcur⟩, hoffset⟩
      obtain ⟨hothers, hhandle, -⟩ := write_loop_spec h.wf hfile (hsupply i hfd) bytes.length st.vol.uninit
      simp only
      generalize write_loop st.vol bytes.length st.disk (st.open_files i) st.vol.uninit bytes = written at hothers hhandle ⊢
      split
      case isFalse => exact hothers.front
      case isTrue =>
        apply hothers.front.trans
        have hdir : st.vol.InRange written.2.1.dir_cluster := by
          rw [hhandle.dir_cluster]
          exact hok.dir_cluster
        have hindex : written.2.1.dir_entry_index < slots_per_cluster st.vol := by
          rw [hhandle.dir_entry_index]
          exact hok.dir_entry_index
        have hback := @write_back_size_eq st.vol h.wf.sane written.1 { written.2.1 with file_size := written.2.1.position } hdir hindex
        simp only at hback ⊢
        rw [hback]
        exact h.wf.sane.keepsFront_update _ _ _

end calls

/-- A safe call keeps the volume and its boot sector. -/
theorem step_same_volume {op : Op} (h : Sound st) (hlow : TableLow st.vol) (hsupply : Supplied st op)
    (hsafe : Safe st op) (hret : Returns (fun fuel => step fuel st op) st') : SameVolume st st' := by
  obtain ⟨fuel, hstep⟩ := hret.exists
  cases op with
  | «open» path mode =>
    obtain ⟨res, hopen, rfl⟩ := Option.map_eq_some_iff.mp hstep
    exact open_same_volume h hsupply hsafe ((fat32_open_stable st path mode).returns hopen)
  | read fd len =>
    cases hstep
    obtain ⟨hvol, hdisk⟩ := read_device st fd len
    exact .of_disk hvol hdisk
  | write fd bytes =>
    cases hstep
    exact write_same_volume h hsupply hsafe
  | seek fd pos =>
    obtain ⟨res, hseek, rfl⟩ := Option.map_eq_some_iff.mp hstep
    obtain ⟨hvol, hdisk⟩ := seek_device hseek
    exact .of_disk hvol hdisk
  | close fd =>
    cases hstep
    obtain ⟨hvol, hdisk⟩ := close_device st fd
    exact .of_disk hvol hdisk
  | mkdir path =>
    obtain ⟨res, hmkdir, rfl⟩ := Option.map_eq_some_iff.mp hstep
    exact mkdir_same_volume h hsupply hsafe ((fat32_mkdir_stable st path).returns hmkdir)
  | unlink path =>
    obtain ⟨res, hunlink, rfl⟩ := Option.map_eq_some_iff.mp hstep
    exact unlink_same_volume h hlow hsafe ((fat32_unlink_stable st path).returns hunlink)
  | rmdir path =>
    obtain ⟨res, hrmdir, rfl⟩ := Option.map_eq_some_iff.mp hstep
    exact rmdir_same_volume h hlow hsafe ((fat32_rmdir_stable st path).returns hrmdir)
  | chdir path =>
    obtain ⟨res, hchdir, rfl⟩ := Option.map_eq_some_iff.mp hstep
    obtain ⟨r, -, hcwd⟩ := Option.bind_eq_some_iff.mp hchdir
    obtain ⟨hvol, hdisk⟩ := change_cwd_device hcwd
    exact .of_disk hvol hdisk

theorem run_same_volume (ops : List Op) (h : Sound st) (hlow : TableLow st.vol) (hsafe : SafeRun st ops) :
    ∃ st', Returns (fun fuel => run fuel st ops) st' ∧ Sound st' ∧ SameVolume st st' := by
  induction ops generalizing st with
  | nil => exact ⟨st, .of_forall fun _ => rfl, h, .of_disk rfl rfl⟩
  | cons op ops ih =>
    obtain ⟨st₁, hret, hsound⟩ := step_sound h hsafe.1.2.1 hsafe.1.2.2
    have hfirst := step_same_volume h hlow hsafe.1.2.1 hsafe.1.2.2 hret
    have hlow₁ : TableLow st₁.vol := by rwa [hfirst.vol]
    obtain ⟨st₂, hret₂, hsound₂, hrest⟩ := ih hsound hlow₁ (hsafe.2 st₁ hret)
    exact ⟨st₂, hret.bind hret₂, hsound₂, hfirst.trans hrest⟩

/-- A mount depends on the drive and the boot sector only. -/
theorem mount_congr {st₀ st₁ : Fat32} {lba : ℕ} (hmount : fat32_mount st₀ lba = (0, st₁)) {st : Fat32}
    (hdrive : st.vol.drive = st₁.vol.drive) (huninit : st.vol.uninit = st₁.vol.uninit) (hboot : st.disk lba = st₁.disk lba) :
    ∃ st', fat32_mount st lba = (0, st') ∧ st'.vol = st₁.vol ∧ st'.disk = st.disk := by
  have hfields : st₁.vol.drive = st₀.vol.drive ∧ st₁.vol.uninit = st₀.vol.uninit ∧ st₁.disk = st₀.disk := by
    unfold fat32_mount at hmount
    simp only at hmount
    split at hmount
    · cases hmount
    · split at hmount
      · cases hmount
      · cases hmount
        exact ⟨rfl, rfl, rfl⟩
  obtain ⟨hdrive₀, huninit₀, hdisk₀⟩ := hfields
  have hread : ata_read_sectors st.vol.drive st.disk lba st.vol.uninit =
      ata_read_sectors st₀.vol.drive st₀.disk lba st₀.vol.uninit := by
    rw [hdrive, hdrive₀, huninit, huninit₀]
    by_cases hholds : st₀.vol.drive.Holds lba
    · rw [read_of_holds hholds, read_of_holds hholds, hboot, hdisk₀]
    · rw [read_of_not_holds hholds, read_of_not_holds hholds]
  unfold fat32_mount at hmount ⊢
  simp only [hread] at hmount ⊢
  split at hmount
  · cases hmount
  · rename_i hok
    split at hmount
    · cases hmount
    · rename_i hbytes
      rw [if_neg hok, if_neg hbytes]
      cases hmount
      exact ⟨_, rfl, by rw [hdrive, huninit], rfl⟩

/-- What the calls leave on the drive is what the next boot finds: after any run of safe calls on a mounted volume, a mount of
    the drive succeeds whatever the driver's variables hold by then, with the same volume and contents, sound, in the root
    directory and without open files, and every absolute path leads to where it led. -/
theorem remount_keeps_volume {st₀ st₁ : Fat32} {lba : ℕ} (ops : List Op) (hmount : fat32_mount st₀ lba = (0, st₁))
    (hwf : WellFormed st₁.vol st₁.disk) (hlow : TableLow st₁.vol)
    (hbehind : lba < st₁.vol.fat_lba) (hsafe : SafeRun st₁ ops) :
    ∃ st₂, Returns (fun fuel => run fuel st₁ ops) st₂ ∧ ∀ st : Fat32, st.vol.drive = st₂.vol.drive →
      st.vol.uninit = st₂.vol.uninit → st.disk = st₂.disk → ∃ st₃, fat32_mount st lba = (0, st₃) ∧
        st₃.vol = st₂.vol ∧ st₃.disk = st₂.disk ∧ Sound st₃ ∧ st₃.fat32_cwd_path = [slash] ∧
        (∀ i, (st₃.open_files i).valid = false) ∧
        ∀ path : CStr, path.head? = some slash → ∀ fuel, fat32_resolve_path fuel st₃ path = fat32_resolve_path fuel st₂ path := by
  obtain ⟨st₂, hret, hsound, hsame⟩ := run_same_volume ops (mount_sound hmount hwf) hlow hsafe
  refine ⟨st₂, hret, fun st hdrive huninit hdisk => ?_⟩
  rw [hsame.vol] at hdrive huninit
  have hboot : st.disk lba = st₁.disk lba := by
    rw [hdisk]
    exact hsame.front lba hbehind
  obtain ⟨st₃, hmount₃, hvol₃, hdisk₃⟩ := mount_congr hmount hdrive huninit hboot
  rw [hdisk] at hdisk₃
  rw [← hsame.vol] at hvol₃
  obtain ⟨hmounted, hpath, -, hclosed⟩ := mount_state hmount₃
  have hsound₃ : Sound st₃ := by
    apply mount_sound hmount₃
    rw [hvol₃, hdisk₃]
    exact hsound.wf
  refine ⟨st₃, hmount₃, hvol₃, hdisk₃, hsound₃, hpath, hclosed, fun path habs fuel => ?_⟩
  simp only [fat32_resolve_path, start_cluster, if_pos habs, hmounted, hsound.mounted, hvol₃, hdisk₃]

theorem remount_keeps_volume_booted :
    ∃ st₂, Returns (fun fuel => run fuel booted_state [.mkdir (ascii "/A"), .open (ascii "/B") mode_w, .close 0]) st₂ ∧
      ∀ st : Fat32, st.vol.drive = st₂.vol.drive → st.vol.uninit = st₂.vol.uninit → st.disk = st₂.disk →
        ∃ st₃, fat32_mount st 0 = (0, st₃) ∧ st₃.vol = st₂.vol ∧ st₃.disk = st₂.disk ∧ Sound st₃ ∧
          st₃.fat32_cwd_path = [slash] ∧ (∀ i, (st₃.open_files i).valid = false) ∧
          ∀ path : CStr, path.head? = some slash →
            ∀ fuel, fat32_resolve_path fuel st₃ path = fat32_resolve_path fuel st₂ path := by
  have hsafe : SafeRun booted_state [.mkdir (ascii "/A"), .open (ascii "/B") mode_w, .close 0] := by
    refine ⟨⟨And.intro (by decide) (And.intro (by decide) (by decide)), supplied_small rfl _,
      safePath_of_single (by decide) (by decide), trivial⟩, fun st₁ hst₁ => ?_⟩
    refine ⟨⟨And.intro (by decide) (by decide), supplied_small (step_vol hst₁) _,
      safePath_of_single (by decide) (by decide), liveDir_root, ?_⟩,
      fun st₂ _ => ⟨⟨trivial, trivial, trivial⟩, fun _ _ => trivial⟩⟩
    exact fun hparts => absurd hparts (by decide)
  have hlow : TableLow booted_state.vol := by
    unfold TableLow
    decide
  exact remount_keeps_volume _ mount_boot booted_shape.1 hlow (by decide) hsafe

end os_dev.fat32
