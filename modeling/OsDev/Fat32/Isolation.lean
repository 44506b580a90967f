import OsDev.Fat32.FileUpdate
import OsDev.Fat32.UniqueNames

open os_dev.ata os_dev.libc link_chain fuel

namespace os_dev.fat32

variable {v : Volume} {d d₁ d' : Disk} {st st' : Fat32} {k s c : ℕ} {l : List ℕ}

/-- The regular file at `c` with the clusters `l`, whose entry is slot `s` of cluster `k`. -/
structure FileAt (v : Volume) (d : Disk) (k s c : ℕ) (l : List ℕ) : Prop where
  entry : ∃ p, Lists v d p k s false c
  cells : Cells v d c l

/-- The file is on `d'` what it is on `d`: its entry, its chain and its bytes. -/
structure SameFile (v : Volume) (d d' : Disk) (k s c : ℕ) (l : List ℕ) : Prop where
  file : FileAt v d' k s c l
  entry : slot v d' k s = slot v d k s
  data : ∀ x ∈ l, ∀ j < v.bpb.sectors_per_cluster, d' (data_sector v x j) = d (data_sector v x j)

theorem SameFile.refl (h : FileAt v d k s c l) : SameFile v d d k s c l := ⟨h, rfl, fun _ _ _ _ => rfl⟩

theorem SameFile.trans (h₁ : SameFile v d d₁ k s c l) (h₂ : SameFile v d₁ d' k s c l) : SameFile v d d' k s c l :=
  ⟨h₂.file, h₂.entry.trans h₁.entry, fun x hx j hj => (h₂.data x hx j hj).trans (h₁.data x hx j hj)⟩

theorem FileAt.inUse (h : FileAt v d k s c l) {x : ℕ} (hx : x ∈ l) : InUse v d x := by
  obtain ⟨p, hlists⟩ := h.entry
  exact .of_cells hlists.owns h.cells hx

theorem FileAt.dirCluster (h : FileAt v d k s c l) : DirCluster v d k := by
  obtain ⟨p, hlists⟩ := h.entry
  exact hlists.dirCluster

theorem FileAt.slot_lt (h : FileAt v d k s c l) : s < slots_per_cluster v := by
  obtain ⟨p, hlists⟩ := h.entry
  exact (view_ent_some hlists.2.2).1

theorem FileAt.not_dirCluster (h : FileAt v d k s c l) (hwf : WellFormed v d) {x : ℕ} (hx : x ∈ l) : ¬ DirCluster v d x := by
  obtain ⟨p, hlists⟩ := h.entry
  exact fun hdir => hwf.dirCluster_not_mem hlists h.cells hdir hx

/-- The clusters in use that belong to no directory hold what they held. -/
def KeepsFiles (v : Volume) (d d' : Disk) : Prop :=
  ∀ x, InUse v d x → ¬ DirCluster v d x → ∀ j < v.bpb.sectors_per_cluster, d' (data_sector v x j) = d (data_sector v x j)

theorem keepsFiles_update (h : WellFormed v d) {j : ℕ} (hk : DirCluster v d k) (hj : j < v.bpb.sectors_per_cluster)
    (buf : Sector) : KeepsFiles v d (Function.update d (data_sector v k j) buf) := by
  intro x hx hdir j' hj'
  apply Function.update_of_ne
  intro heq
  obtain ⟨rfl, -⟩ := data_sector_inj hx.inRange.1 (h.inUse_of_dirCluster hk).inRange.1 hj' hj heq
  exact hdir hk

/-- `create_entry` writes to the directory it is given and to free clusters. -/
theorem create_entry_keepsFiles (h : WellFormed v d) {p fuel : ℕ} {lp : List ℕ}
    (hnext : chain_hit v d free_scan lp = none → NextInRange v d) (hp : LiveDir v d p) (hlp : Cells v d p lp)
    (hfuel : lp.length + 1 < fuel) {name : CStr} {attr : UInt8} {fc size : ℕ} {res : Int × Disk} (hcreate : create_entry fuel v d p name attr fc size = some res) : KeepsFiles v d res.2 := by
  obtain ⟨⟨k, j, i⟩, hhit, heq⟩ | ⟨-, -, heq⟩ | ⟨x, hx, -, -, -, hin, hfree, heq⟩ :=
    h.sane.create_entry_cases hnext hlp hfuel name attr fc size
  · cases hcreate.symm.trans heq
    obtain ⟨hk, hj, -⟩ := chain_hit_some hhit
    exact keepsFiles_update h ⟨p, lp, hp, hlp, hk⟩ hj _
  · cases hcreate.symm.trans heq
    exact fun _ _ _ _ _ => rfl
  · cases hcreate.symm.trans heq
    intro z hz hdir j hj
    have hne : z ≠ find_free_cluster v d := by
      rintro rfl
      exact h.not_free hz hfree
    have haddr : data_sector v z j ≠ data_sector v (find_free_cluster v d) 0 :=
      fun heq => hne (data_sector_inj hz.inRange.1 hin.1 hj h.sane.cluster_pos heq).1
    exact (Function.update_of_ne haddr _ _).trans (h.sane.append_cluster_data (hlp.inRange hx) hin hz.inRange hne hj)

section effects

variable (hfile : FileAt v d k s c l) (hwf : WellFormed v d)

include hfile hwf

theorem FileAt.claimed {y : ℕ} (h : Claimed v d d' y) : SameFile v d d' k s c l := by
  obtain ⟨p, hlists⟩ := hfile.entry
  have hkeep := h.keeps hwf
  have hdata : ∀ x, InUse v d x → ∀ j < v.bpb.sectors_per_cluster, d' (data_sector v x j) = d (data_sector v x j) :=
    fun x hx j hj => h.data x hx.inRange (fun heq => h.unused (heq ▸ hx)) j hj
  refine ⟨⟨⟨p, (hkeep.lists_iff hwf p k s false c).mpr hlists⟩, hkeep.cells hwf hlists.owns hfile.cells⟩, ?_,
    fun x hx => hdata x (hfile.inUse hx)⟩
  exact slot_congr (hdata k (hwf.inUse_of_dirCluster hfile.dirCluster) _ (sector_of_slot hfile.slot_lt))

theorem FileAt.data_of_keepsFiles (h : KeepsFiles v d d') :
    ∀ x ∈ l, ∀ j < v.bpb.sectors_per_cluster, d' (data_sector v x j) = d (data_sector v x j) :=
  fun x hx => h x (hfile.inUse hx) (hfile.not_dirCluster hwf hx)

theorem FileAt.placed {p k' i' : ℕ} {e : fat32_dir_entry_t} (h : Placed v d d' p k' i' e) (hp : LiveDir v d p)
    (hnew : ∀ b, named_object e ≠ some (b, c))
    (hdata : ∀ x ∈ l, ∀ j < v.bpb.sectors_per_cluster, d' (data_sector v x j) = d (data_sector v x j)) :
    SameFile v d d' k s c l := by
  obtain ⟨p₀, hlists⟩ := hfile.entry
  obtain ⟨lp, hlp, hk'⟩ := h.here
  have hlists' : Lists v d' p₀ k s false c := (h.lists p₀ k s false c).mpr (.inl hlists)
  have huse := hwf.inUse_of_dirCluster hfile.dirCluster
  have hcells : Cells v d' c l := by
    obtain hsame | ⟨-, hgrown⟩ := h.cells _ _ _ hlists.owns hfile.cells
    · exact hsame
    · -- it is a directory that has grown, not the file
      have hdir : DirCluster v d' k' := ⟨p, lp, (h.dirs p).mpr (.inl hp), hlp, hk'⟩
      exact absurd (List.mem_append_right l (List.mem_singleton_self k')) (h.wf.dirCluster_not_mem hlists' hgrown hdir)
  have hne : (k, s) ≠ (k', i') := by
    intro heq
    obtain ⟨rfl, rfl⟩ := Prod.mk.inj heq
    obtain ⟨-, hobj⟩ := view_ent_some hlists'.2.2
    rw [h.entry] at hobj
    exact hnew false hobj
  refine ⟨⟨⟨p₀, hlists'⟩, hcells⟩, ?_, hdata⟩
  exact h.slots k huse.inRange (fun heq => heq ▸ huse) s hfile.slot_lt hne

theorem FileAt.removed {k' i' : ℕ} (h : Removed v d d' k' i') (hout : ¬ (view v d).Below (LiveDir v d) (k', i') (k, s))
    (hdata : KeepsFiles v d d') : SameFile v d d' k s c l := by
  obtain ⟨p, hlists⟩ := hfile.entry
  have huse := hwf.inUse_of_dirCluster hfile.dirCluster
  refine ⟨⟨⟨p, (h.lists p k s false c).mpr ⟨hlists, hout⟩⟩, h.cells _ _ _ hlists.owns hfile.cells ?_⟩, ?_,
    hfile.data_of_keepsFiles hwf hdata⟩
  · rintro o ho
    cases ho
    exact hout
  · exact h.slots k huse.inRange s hfile.slot_lt fun heq => hout (.inl heq)

end effects

/-- Writing a size back changes no other slot. -/
theorem write_back_size_slot (hv : v.Sane) {file : fat32_file_t} (hin : v.InRange file.dir_cluster)
    (hi : file.dir_entry_index < slots_per_cluster v) (hk : v.InRange k) (hs : s < slots_per_cluster v)
    (hne : (file.dir_cluster, file.dir_entry_index) ≠ (k, s)) : slot v (write_back_size v d file) k s = slot v d k s := by
  rw [write_back_size_eq hv d hin hi]
  by_cases hsector : k = file.dir_cluster ∧ s / 16 = file.dir_entry_index / 16
  · obtain ⟨rfl, hsec⟩ := hsector
    rw [← hsec, slot_update_same, dir_entry_put_size_other (by omega), slot]
    intro hentry
    exact hne (by rw [show file.dir_entry_index = s by omega])
  · exact slot_update_of_ne hin.1 hk.1 hs (sector_of_slot hi) (not_and_or.mp hsector)

theorem FileAt.write_back (hfile : FileAt v d k s c l) (hwf : WellFormed v d) {file : fat32_file_t}
    (hdir : DirCluster v d file.dir_cluster) (hi : file.dir_entry_index < slots_per_cluster v)
    (hne : (file.dir_cluster, file.dir_entry_index) ≠ (k, s)) : SameFile v d (write_back_size v d file) k s c l := by
  obtain ⟨p, hlists⟩ := hfile.entry
  have hin := (hwf.inUse_of_dirCluster hdir).inRange
  have hk := (hwf.inUse_of_dirCluster hfile.dirCluster).inRange
  refine ⟨⟨⟨p, ((hwf.write_size file hin hi).lists p k s false c).mpr hlists⟩, ?_⟩,
    write_back_size_slot hwf.sane hin hi hk hfile.slot_lt hne, fun x hx j hj => ?_⟩
  · exact hfile.cells.congr_words hwf.sane fun x hx => write_back_size_word hwf.sane file hin hi (hfile.cells.inRange hx).inTable
  · apply write_back_size_data hwf.sane file hin hi (hfile.cells.inRange hx) _ hj
    rintro rfl
    exact hfile.not_dirCluster hwf hx hdir

theorem FileAt.keepsOthers (hfile : FileAt v d k s c l) (hwf : WellFormed v d) {p k₀ s₀ c₀ : ℕ}
    (hlists : Lists v d p k₀ s₀ false c₀) (hne : c₀ ≠ c) (h : KeepsOthers v d d' (some (k₀, s₀))) : SameFile v d d' k s c l := by
  obtain ⟨p₁, hlists₁⟩ := hfile.entry
  have hother : some (k, s) ≠ some (k₀, s₀) := by
    intro heq
    obtain ⟨rfl, rfl⟩ := Prod.mk.inj (Option.some.inj heq)
    exact hne (hlists.owns.unique hlists₁.owns)
  refine ⟨⟨⟨p₁, (h.lists p₁ k s false c).mpr hlists₁⟩, h.chains _ c l hlists₁.owns hother hfile.cells⟩, ?_,
    h.data _ c l hlists₁.owns hother hfile.cells⟩
  -- the directory that holds the entry is not the file that is written
  obtain ⟨dir, ldir, hdir, hldir, hk⟩ := hfile.dirCluster
  obtain ⟨depth, hforest⟩ := hwf.exists_forest
  obtain ⟨o, ho, hname⟩ := hforest.owner hdir
  have hdir_ne : o ≠ some (k₀, s₀) := by
    rintro rfl
    have hent := hname (k₀, s₀) rfl
    rw [hlists.2.2] at hent
    cases hent
  exact slot_congr (h.data o dir ldir ho hdir_ne hldir k hk _ (sector_of_slot hfile.slot_lt))

/-- Deleting an entry writes to its directory and to the table only. -/
theorem WellFormed.delete_file_data (h : WellFormed v d) {p j i : ℕ} {lp : List ℕ} (hp : LiveDir v d p) (hlp : Cells v d p lp)
    (hk : k ∈ lp) (hj : j < v.bpb.sectors_per_cluster) (hi : i < 16) (hlive : (slot v d k (16 * j + i)).isLive = true)
    (hret : Returns (fun fuel => free_chain v fuel (delete_found v d (found_at v d (k, j, i)))
      (slot v d k (16 * j + i)).first_cluster) d') : KeepsFiles v d d' := by
  have hmark := keepsFiles_update h ⟨p, lp, hp, hlp, hk⟩ hj (mark_deleted (d (data_sector v k j)) i)
  rw [h.sane.delete_found_eq (hlp.inRange hk) hj] at hret
  generalize hd₁ : Function.update d (data_sector v k j) (mark_deleted (d (data_sector v k j)) i) = d₁ at hmark hret
  by_cases hzero : (slot v d k (16 * j + i)).first_cluster = 0
  · rw [hzero] at hret
    have hstop : Returns (fun fuel => free_chain v fuel d₁ 0) d₁ := .of_gt 0 fun fuel hfuel => free_chain_stop hfuel (.inl rfl)
    rw [hret.unique hstop]
    exact hmark
  · have hlists := live_lists hp hlp hk (slot_index_lt hj hi) hlive hzero
    obtain ⟨lf, hlf⟩ := h.tidy.2.chain hlists.owns
    have hcells : Cells v d₁ (slot v d k (16 * j + i)).first_cluster lf := by
      refine Cells.congr_words h.sane hlf fun x hx => ?_
      rw [← hd₁]
      exact fat_word_update_data h.sane (Cells.inRange hlf hx).inTable
    obtain ⟨d₂, heq, hsame, -⟩ := h.sane.free_chain_spec hcells (Nat.lt_succ_self _)
    rw [hret.unique ((free_chain_stable d₁ _).returns heq)]
    intro x hx hdir j' hj'
    exact (hsame.data _ (data_lba_le_data_sector x j')).trans (hmark x hx hdir j' hj')

/-- Between the two states the volume stays mounted as it is and the file stays what it is. -/
structure Undisturbed (st st' : Fat32) (k s c : ℕ) (l : List ℕ) : Prop where
  vol : st'.vol = st.vol
  same : SameFile st.vol st.disk st'.disk k s c l

section calls

variable (h : Sound st) (hfile : FileAt st.vol st.disk k s c l) {path : CStr} {res : Int × Fat32}

include h hfile

omit h in
theorem Undisturbed.of_disk (hvol : st'.vol = st.vol) (hdisk : st'.disk = st.disk) : Undisturbed st st' k s c l := by
  refine ⟨hvol, ?_⟩
  rw [hdisk]
  exact .refl hfile

omit h in
/-- A claimed cluster is not the first one of the file. -/
theorem FileAt.not_named {y : ℕ} (hclaimed : Claimed st.vol st.disk d y) {name : CStr} {attr : UInt8} (b : Bool) :
    named_object (made_entry (standardize_base name) (standardize_ext name) attr y 0) ≠ some (b, c) := by
  intro hobj
  obtain ⟨-, rfl⟩ := made_entry_object hclaimed.inRange hobj
  exact hclaimed.unused (hfile.inUse hfile.cells.head_mem)

theorem open_undisturbed {mode : UInt8} (hsupply : OpenSupply st path mode) (hsafe : Safe st (.open path mode))
    (hret : Returns (fun fuel => fat32_open fuel st path mode) res) : Undisturbed st res.2 k s c l := by
  obtain ⟨hpath, hguess, -⟩ := hsafe
  obtain ⟨res', hret', hcase⟩ := h.wf.open_spec hsupply h.mounted hpath hguess
  obtain rfl := hret.unique hret'
  cases hcase with
  | absent => exact .of_disk hfile rfl rfl
  | existing r lp =>
    obtain ⟨hvol, hdisk, -⟩ := opened_fields st path r lp
    exact .of_disk hfile hvol hdisk
  | leaked y d _ _ _ _ hclaimed => exact ⟨rfl, hfile.claimed h.wf hclaimed⟩
  | created y d d' k' i' lp hr hmode hy hfree hd hclaimed hplaced hlp =>
    subst hmode
    obtain ⟨hvol, hdisk, -⟩ := opened_fields { st with disk := d' } path y lp
    refine ⟨hvol, ?_⟩
    rw [hdisk]
    have hkeep := hclaimed.keeps h.wf
    obtain ⟨hwf, hdirs⟩ := hkeep.shape h.wf
    obtain ⟨ldir, hldir⟩ := h.wf.dir_cells hguess
    have hnext := hclaimed.grows h.wf.sane hfree hldir (hsupply rfl hr)
    have hdata : ∀ x ∈ l, ∀ j < st.vol.bpb.sectors_per_cluster, d' (data_sector st.vol x j) = d (data_sector st.vol x j) := by
      have hsame := hfile.claimed h.wf hclaimed
      obtain ⟨fuel, hopen, hfuel⟩ := (hret.and (Filter.eventually_gt_atTop (ldir.length + 1))).exists
      obtain hback | ⟨-, rc, hcreate⟩ := open_disk hopen
      · rw [hdisk] at hback
        intro x hx j hj
        exact (congrFun hback _).trans (hsame.data x hx j hj).symm
      · rw [← hy, ← hd, hdisk] at hcreate
        exact hsame.file.data_of_keepsFiles hwf (create_entry_keepsFiles hwf hnext ((hdirs _).mpr hguess)
          ((hkeep.dir_cells h.wf hguess).mpr hldir) hfuel hcreate)
    have hsame := hfile.claimed h.wf hclaimed
    exact hsame.trans (hsame.file.placed hwf hplaced ((hdirs _).mpr hguess) (hfile.not_named hclaimed) hdata)

theorem mkdir_undisturbed (hsupply : MkdirSupply st path) (hsafe : Safe st (.mkdir path))
    (hret : Returns (fun fuel => fat32_mkdir fuel st path) res) : Undisturbed st res.2 k s c l := by
  obtain ⟨res', hret', hcase⟩ := h.wf.mkdir_spec hsupply h.mounted hsafe.1 hsafe.2
  obtain rfl := hret.unique hret'
  cases hcase with
  | refused => exact .of_disk hfile rfl rfl
  | leaked p name leading y d _ _ _ _ hclaimed => exact ⟨rfl, hfile.claimed h.wf hclaimed⟩
  | made p name leading y parent d d' k' i' hparent hpath hdir _ hclaimed hplaced =>
    refine ⟨rfl, ?_⟩
    obtain ⟨hwf, hdirs⟩ := (hclaimed.keeps h.wf).shape h.wf
    have hsame := hfile.claimed h.wf hclaimed
    apply hsame.trans
    apply hsame.file.placed hwf hplaced ((hdirs p).mpr hdir) (hfile.not_named hclaimed)
    -- the entry is made on the device with the new directory's cluster set up
    obtain ⟨lp, hlp⟩ := h.wf.dir_cells hdir
    have hp : p ≠ 0 := (hlp.inRange hlp.head_mem).ne_zero
    obtain ⟨fuel, hmkdir, hnamed, hfuel⟩ := (hret.and (hparent.and (Filter.eventually_gt_atTop (lp.length + 1)))).exists
    obtain hback | ⟨⟨-, hne⟩, p', name', leading', dotdot, rc, d₁, hnamed', -, hcreate, hres⟩ := mkdir_cases hmkdir
    · cases hback
    · obtain rfl : d' = d₁ := congrArg Fat32.disk (Prod.mk.inj hres).2
      cases hnamed.symm.trans hnamed'
      rw [if_neg hp] at hcreate
      have htakes := hsupply hpath p name leading hparent hp
      have hin := htakes.1 hne
      have hfree := h.wf.sane.find_free_isFree hne
      have hclaimed₁ := h.wf.claimed_directory hin hfree dotdot
      have hkeep₁ := hclaimed₁.keeps h.wf
      obtain ⟨hwf₁, hdirs₁⟩ := hkeep₁.shape h.wf
      have hsame₁ := hfile.claimed h.wf hclaimed₁
      have hkeeps := create_entry_keepsFiles hwf₁ (hclaimed₁.grows h.wf.sane hfree hlp htakes) ((hdirs₁ p).mpr hdir)
        ((hkeep₁.dir_cells h.wf hdir).mpr hlp) hfuel hcreate
      intro x hx j hj
      have hentry := hsame₁.file.data_of_keepsFiles hwf₁ hkeeps x hx j hj
      exact hentry.trans ((hsame₁.data x hx j hj).trans (hsame.data x hx j hj).symm)

theorem unlink_undisturbed (hsafe : Safe st (.unlink path))
    (hspares : ∀ lp k' j i, Cells st.vol st.disk (guessed_parent st path) lp →
      lookup st.vol st.disk false lp path = some (k', j, i) → (k', 16 * j + i) ≠ (k, s))
    (hret : Returns (fun fuel => fat32_unlink fuel st path) res) : Undisturbed st res.2 k s c l := by
  obtain ⟨lp, hlp⟩ := h.wf.dir_cells hsafe.1
  have hlfn : ∀ k' j i, lookup st.vol st.disk false lp path = some (k', j, i) →
      (slot st.vol st.disk k' (16 * j + i)).attributes ≠ FAT_ATTR_LFN := by
    intro k' j i hlookup hattr
    cases hdir : (slot st.vol st.disk k' (16 * j + i)).isDirectory with
    | false => exact (hsafe.2 lp k' j i hlp hlookup hdir).1 hattr
    | true =>
      rw [fat32_dir_entry_t.isDirectory, hattr] at hdir
      exact absurd hdir (by decide)
  obtain ⟨res', hret', hcase⟩ := h.wf.unlink_spec h.mounted hsafe.1 hlp hlfn
  obtain rfl := hret.unique hret'
  cases hcase with
  | absent => exact .of_disk hfile rfl rfl
  | directory => exact .of_disk hfile rfl rfl
  | removed k' j i d hlookup hdir hremoved =>
    obtain ⟨hk', hj, hi, -⟩ := lookup_some hlookup
    have hentry := found_at_entry (v := st.vol) (d := st.disk) (k := k') (j := j) hi
    have hdata : KeepsFiles st.vol st.disk d := by
      obtain ⟨fuel, hunlink, hfind⟩ := (hret.and (h.wf.sane.find_name_returns hlp false path)).exists
      obtain hback | ⟨f, hf, hchain⟩ := unlink_disk hunlink
      · intro x _ _ j _
        exact congrFun hback _
      · rw [hlookup, Option.map_some] at hfind
        cases hf.symm.trans hfind
        rw [hentry] at hchain
        exact h.wf.delete_file_data hsafe.1 hlp hk' hj hi (lookup_isLive hlookup (hlfn k' j i hlookup))
          ((free_chain_stable _ _).returns hchain)
    refine ⟨rfl, hfile.removed h.wf hremoved (fun hbelow => ?_) hdata⟩
    obtain heq | ⟨y, _, _, _, hent, -⟩ := hbelow
    · exact hspares lp k' j i hlp hlookup heq.symm
    · have hisdir := (named_object_some (view_ent_some hent).2).2.2.1
      rw [hdir] at hisdir
      cases hisdir

omit h hfile in
/-- The device after a call of `fat32_rmdir`: the subtree has been freed, and the entry's sector written. -/
theorem SafeRmdir.disk (h : WellFormed st.vol st.disk) (hmounted : st.mounted = true) (hpath : path ≠ [slash]) {p k j i : ℕ}
    {name : CStr} {lp : List ℕ} (hsafe : SafeRmdir st path p name lp k j i)
    (hzero : (slot st.vol st.disk k (16 * j + i)).first_cluster ≠ 0)
    (hret : Returns (fun fuel => fat32_rmdir fuel st path) res) : ∃ d buf y,
      Returns (fun fuel => recursive_rm fuel st.vol st.disk y) d ∧ (∀ lba, st.vol.data_lba ≤ lba → d lba = st.disk lba) ∧
        res.2.disk = Function.update d (data_sector st.vol k j) buf := by
  obtain ⟨hk, hj, -⟩ := lookup_some hsafe.found
  obtain ⟨leading, hparent⟩ := hsafe.parent
  have hlists := lookup_lists hsafe.live hsafe.cells hsafe.found hsafe.not_lfn hzero
  rw [hsafe.directory] at hlists
  obtain ⟨depth, hforest⟩ := h.exists_forest
  obtain ⟨d₁, hrm, hsame⟩ := h.recursive_rm_returns (LiveEntry.liveDir ⟨p, hlists⟩)
  have hbelow : ∀ x, TreeCell st.vol st.disk (slot st.vol st.disk k (16 * j + i)).first_cluster x →
      BelowCell st.vol st.disk (k, 16 * j + i) x := fun x hx => hlists.below_of_treeCell hx
  have hcells : Cells st.vol d₁ p lp := by
    refine hsame.cells h.sane hsafe.cells fun x hx htree => ?_
    exact hforest.not_belowCell_of_dir hlists hsafe.cells hx (hbelow x htree)
  have hfound : lookup st.vol d₁ false lp name = some (k, j, i) := by
    rw [lookup_congr_data hsame.data]
    exact hsafe.found
  have hdone : Returns (fun fuel => fat32_rmdir fuel st path)
      (0, { st with disk := delete_found st.vol d₁ (found_at st.vol d₁ (k, j, i)) }) := by
    filter_upwards [hsafe.target, hparent, hrm, h.sane.find_name_returns hcells false name] with fuel h₁ h₂ h₃ h₄
    simp [fat32_rmdir, hmounted, hpath, h₁, hzero, h₂, h₃, h₄, hfound]
  have hdisk := h.sane.delete_found_eq (i := i) (hsafe.cells.inRange hk) hj d₁
  rw [hret.unique hdone]
  exact ⟨d₁, _, _, hrm, hsame.data, hdisk⟩

omit h hfile in
/-- Besides its own entry, `fat32_rmdir` writes to the table only. -/
theorem SafeRmdir.data (h : WellFormed st.vol st.disk) (hmounted : st.mounted = true) (hpath : path ≠ [slash]) {p k j i : ℕ}
    {name : CStr} {lp : List ℕ} (hsafe : SafeRmdir st path p name lp k j i)
    (hzero : (slot st.vol st.disk k (16 * j + i)).first_cluster ≠ 0)
    (hret : Returns (fun fuel => fat32_rmdir fuel st path) res) : KeepsFiles st.vol st.disk res.2.disk := by
  obtain ⟨hk, hj, -⟩ := lookup_some hsafe.found
  obtain ⟨d, buf, y, -, hdata, hdisk⟩ := hsafe.disk h hmounted hpath hzero hret
  intro x hx hdir j' hj'
  have haddr : data_sector st.vol x j' ≠ data_sector st.vol k j := by
    intro heq
    obtain ⟨rfl, -⟩ := data_sector_inj hx.inRange.1 (hsafe.cells.inRange hk).1 hj' hj heq
    exact hdir ⟨p, lp, hsafe.live, hsafe.cells, hk⟩
  rw [hdisk]
  exact (Function.update_of_ne haddr _ _).trans (hdata _ (data_lba_le_data_sector x j'))

theorem rmdir_undisturbed (hsafe : Safe st (.rmdir path))
    (hspares : ∀ p name lp k' j i, SafeRmdir st path p name lp k' j i →
      ¬ (view st.vol st.disk).Below (LiveDir st.vol st.disk) (k', 16 * j + i) (k, s))
    (hret : Returns (fun fuel => fat32_rmdir fuel st path) res) : Undisturbed st res.2 k s c l := by
  have hrefused : Returns (fun fuel => fat32_rmdir fuel st path) (-1, st) → Undisturbed st res.2 k s c l := by
    intro hback
    rw [hret.unique hback]
    exact .of_disk hfile rfl rfl
  by_cases hroot : path = [slash]
  · exact hrefused (.of_forall fun fuel => by simp [fat32_rmdir, h.mounted, hroot])
  obtain hslash | ⟨hpath, hentry⟩ := hsafe
  · exact absurd hslash hroot
  obtain ⟨r, hr, -⟩ := h.wf.resolve_path h.mounted hpath
  by_cases hzero : r = 0
  · apply hrefused
    filter_upwards [hr] with fuel hresolve
    simp [fat32_rmdir, h.mounted, hroot, hresolve, hzero]
  obtain ⟨p, name, lp, k', j, i, hrmdir, -⟩ := hentry r hr hzero
  have htarget : (slot st.vol st.disk k' (16 * j + i)).first_cluster ≠ 0 := by rwa [← hr.unique hrmdir.target]
  obtain ⟨d, hdone, hremoved⟩ := h.wf.rmdir_spec h.mounted hroot hrmdir htarget
  have hdata := hrmdir.data h.wf h.mounted hroot htarget hret
  rw [hret.unique hdone] at hdata ⊢
  exact ⟨rfl, hfile.removed h.wf hremoved (hspares p name lp k' j i hrmdir) hdata⟩

theorem write_undisturbed {fd : Int} {bytes : List UInt8} (hsupply : Supplied st (.write fd bytes))
    (hsafe : Safe st (.write fd bytes))
    (hspares : ∀ i, handle st fd = some i → (st.open_files i).first_cluster ≠ c ∧
      DirCluster st.vol st.disk (st.open_files i).dir_cluster ∧
        ((st.open_files i).dir_cluster, (st.open_files i).dir_entry_index) ≠ (k, s)) :
    Undisturbed st (fat32_write st fd bytes).2 k s c l := by
  refine ⟨write_vol st fd bytes, ?_⟩
  unfold fat32_write
  cases hfd : handle st fd with
  | none => exact .refl hfile
  | some i =>
    by_cases hbytes : bytes = []
    · subst hbytes
      exact .refl hfile
    · obtain ⟨hne, hdir, hslot⟩ := hspares i hfd
      obtain ⟨⟨p, k₀, s₀, hlists⟩, hcur, hoffset⟩ := hsafe i hfd hbytes
      have hok := h.handles i (handle_valid hfd)
      obtain ⟨lw, hlw, hmem⟩ := hok.position
      have hwritable : Writable st.vol st.disk k₀ s₀ (st.open_files i) :=
        ⟨⟨p, hlists⟩, ⟨lw, hlw, hmem.resolve_right hcur⟩, hoffset⟩
      obtain ⟨hothers, hhandle, -⟩ := write_loop_spec h.wf hwritable (hsupply i hfd) bytes.length st.vol.uninit
      have hkept := hfile.keepsOthers h.wf hlists hne hothers
      simp only
      generalize write_loop st.vol bytes.length st.disk (st.open_files i) st.vol.uninit bytes = written
        at hothers hhandle hkept ⊢
      split
      case isFalse => exact hkept
      case isTrue =>
        refine hkept.trans (hkept.file.write_back hothers.wf ?_ ?_ ?_)
        · obtain ⟨dir, ldir, hlive, hldir, hk⟩ := hdir
          obtain ⟨o, ho⟩ := h.wf.dir_owner hlive
          obtain ⟨more, hmore⟩ := hothers.cells o dir ldir ho hldir
          rw [hhandle.dir_cluster]
          exact ⟨dir, ldir ++ more, (hothers.dirs dir).mpr hlive, hmore, List.mem_append_left more hk⟩
        · rw [hhandle.dir_entry_index]
          exact hok.dir_entry_index
        · rw [hhandle.dir_cluster, hhandle.dir_entry_index]
          exact hslot

end calls

/-- The calls that leave the file with the entry in slot `s` of cluster `k` and the first cluster `c` alone: a write goes
    through a handle of another file, which knows a directory slot other than the file's; what is deleted is neither the
    file nor a directory above it. -/
def Spares (st : Fat32) (k s c : ℕ) : Op → Prop
  | .write fd _ => ∀ i, handle st fd = some i → (st.open_files i).first_cluster ≠ c ∧
    DirCluster st.vol st.disk (st.open_files i).dir_cluster ∧
      ((st.open_files i).dir_cluster, (st.open_files i).dir_entry_index) ≠ (k, s)
  | .unlink path => ∀ lp k' j i, Cells st.vol st.disk (guessed_parent st path) lp →
    lookup st.vol st.disk false lp path = some (k', j, i) → (k', 16 * j + i) ≠ (k, s)
  | .rmdir path => ∀ p name lp k' j i, SafeRmdir st path p name lp k' j i →
    ¬ (view st.vol st.disk).Below (LiveDir st.vol st.disk) (k', 16 * j + i) (k, s)
  | _ => True

/-- A safe call that spares the file leaves it what it is. -/
theorem step_undisturbed {op : Op} (h : Sound st) (hsupply : Supplied st op) (hsafe : Safe st op)
    (hspares : Spares st k s c op) (hfile : FileAt st.vol st.disk k s c l) (hret : Returns (fun fuel => step fuel st op) st') : Undisturbed st st' k s c l := by
  obtain ⟨fuel, hstep⟩ := hret.exists
  cases op with
  | «open» path mode =>
    obtain ⟨res, hopen, rfl⟩ := Option.map_eq_some_iff.mp hstep
    exact open_undisturbed h hfile hsupply hsafe ((fat32_open_stable st path mode).returns hopen)
  | read fd len =>
    cases hstep
    obtain ⟨hvol, hdisk⟩ := read_device st fd len
    exact .of_disk hfile hvol hdisk
  | write fd bytes =>
    cases hstep
    exact write_undisturbed h hfile hsupply hsafe hspares
  | seek fd pos =>
    obtain ⟨res, hseek, rfl⟩ := Option.map_eq_some_iff.mp hstep
    obtain ⟨hvol, hdisk⟩ := seek_device hseek
    exact .of_disk hfile hvol hdisk
  | close fd =>
    cases hstep
    obtain ⟨hvol, hdisk⟩ := close_device st fd
    exact .of_disk hfile hvol hdisk
  | mkdir path =>
    obtain ⟨res, hmkdir, rfl⟩ := Option.map_eq_some_iff.mp hstep
    exact mkdir_undisturbed h hfile hsupply hsafe ((fat32_mkdir_stable st path).returns hmkdir)
  | unlink path =>
    obtain ⟨res, hunlink, rfl⟩ := Option.map_eq_some_iff.mp hstep
    exact unlink_undisturbed h hfile hsafe hspares ((fat32_unlink_stable st path).returns hunlink)
  | rmdir path =>
    obtain ⟨res, hrmdir, rfl⟩ := Option.map_eq_some_iff.mp hstep
    exact rmdir_undisturbed h hfile hsafe hspares ((fat32_rmdir_stable st path).returns hrmdir)
  | chdir path =>
    obtain ⟨res, hchdir, rfl⟩ := Option.map_eq_some_iff.mp hstep
    obtain ⟨r, -, hcwd⟩ := Option.bind_eq_some_iff.mp hchdir
    obtain ⟨hvol, hdisk⟩ := change_cwd_device hcwd
    exact .of_disk hfile hvol hdisk

/-- Every call of a run spares the file in the state it is made in. -/
def SparingRun (k s c : ℕ) : Fat32 → List Op → Prop
  | _, [] => True
  | st, op :: ops => Spares st k s c op ∧ ∀ st', Returns (fun fuel => step fuel st op) st' → SparingRun k s c st' ops

theorem run_undisturbed (ops : List Op) (h : Sound st) (hsafe : SafeRun st ops) (hspares : SparingRun k s c st ops)
    (hfile : FileAt st.vol st.disk k s c l) :
    ∃ st', Returns (fun fuel => run fuel st ops) st' ∧ Undisturbed st st' k s c l := by
  induction ops generalizing st with
  | nil => exact ⟨st, .of_forall fun _ => rfl, .of_disk hfile rfl rfl⟩
  | cons op ops ih =>
    obtain ⟨st₁, hret, hsound⟩ := step_sound h hsafe.1.2.1 hsafe.1.2.2
    have hfirst := step_undisturbed h hsafe.1.2.1 hsafe.1.2.2 hspares.1 hfile hret
    have hfile₁ : FileAt st₁.vol st₁.disk k s c l := by
      rw [hfirst.vol]
      exact hfirst.same.file
    obtain ⟨st₂, hret₂, hrest⟩ := ih hsound (hsafe.2 st₁ hret) (hspares.2 st₁ hret) hfile₁
    refine ⟨st₂, hret.bind hret₂, hrest.vol.trans hfirst.vol, hfirst.same.trans ?_⟩
    have hsame := hrest.same
    rwa [hfirst.vol] at hsame

/-- Files do not disturb one another: in a run of safe calls that write to other files only and delete neither the file nor a
    directory above it, the file keeps its entry, its chain and its content, whatever is opened, made, written and deleted
    around it. -/
theorem bystander_unchanged (ops : List Op) (h : Sound st) (hsafe : SafeRun st ops) (hspares : SparingRun k s c st ops)
    (hfile : FileAt st.vol st.disk k s c l) :
    ∃ st', Returns (fun fuel => run fuel st ops) st' ∧ st'.vol = st.vol ∧ FileAt st.vol st'.disk k s c l ∧
      slot st.vol st'.disk k s = slot st.vol st.disk k s ∧
      ∀ size, file_content st.vol st'.disk l size = file_content st.vol st.disk l size := by
  obtain ⟨st', hret, hvol, hsame⟩ := run_undisturbed ops h hsafe hspares hfile
  refine ⟨st', hret, hvol, hsame.file, hsame.entry, fun size => ?_⟩
  rw [file_content, file_content, chain_data_congr h.wf.sane.cluster_pos hsame.data]

theorem crammed_root : Cells small_volume crammed_state.disk 2 [2] :=
  cells_last small_root_inRange (crammed_table.1 2 (by decide))

theorem crammed_handle {i : Fin 8} (hvalid : (crammed_state.open_files i).valid = true) : i = 0 := by
  by_contra hne
  have hval : i.val ≠ 0 := fun heq => hne (Fin.ext heq)
  have hclosed : crammed_state.open_files i = small_state.open_files i := if_neg hval
  rw [hclosed] at hvalid
  cases hvalid

theorem crammed_sound : Sound crammed_state where
  mounted := rfl
  wf := crammed_wf
  handles := by
    intro i hvalid
    obtain rfl := crammed_handle hvalid
    obtain ⟨p, k, s, hlists⟩ := crammed_tracked.entry
    exact ⟨⟨p, k, s, false, hlists⟩, ⟨[3], crammed_cells.1, .inl (by decide)⟩, small_root_inRange, by decide⟩
  cwd_path := rfl

/-- The file A is filled and a directory asked for on a full volume: the file B stays. -/
def crowded_ops : List Op := [.write 0 (List.replicate 512 0x41), .mkdir (ascii "/D"), .close 0]

theorem bystander_unchanged_crammed :
    ∃ st', Returns (fun fuel => run fuel crammed_state crowded_ops) st' ∧ st'.vol = small_volume ∧
      FileAt small_volume st'.disk 2 1 4 [4, 5] ∧ slot small_volume st'.disk 2 1 = slot small_volume crammed_state.disk 2 1 ∧
      ∀ size, file_content small_volume st'.disk [4, 5] size = file_content small_volume crammed_state.disk [4, 5] size := by
  have hdir : DirCluster small_volume crammed_state.disk 2 := ⟨2, [2], liveDir_root, crammed_root, List.mem_cons_self⟩
  have hfile : FileAt small_volume crammed_state.disk 2 1 4 [4, 5] := by
    refine ⟨⟨2, liveDir_root, ⟨[2], crammed_root, List.mem_cons_self⟩, ?_⟩, crammed_cells.2⟩
    exact (view_ent_of_lt (by decide)).trans (crammed_table.2.2 1 (by decide))
  have hsafe : SafeRun crammed_state crowded_ops := by
    refine ⟨⟨trivial, supplied_small rfl _, fun i hi _ => ?_⟩, fun st₁ hst₁ =>
      ⟨⟨And.intro (by decide) (And.intro (by decide) (by decide)), supplied_small (step_vol hst₁) _,
        safePath_of_single (by decide) (by decide), trivial⟩, fun st₂ _ => ⟨⟨trivial, trivial, trivial⟩, fun _ _ => trivial⟩⟩⟩
    obtain rfl := crammed_handle (handle_valid hi)
    exact ⟨crammed_tracked.entry, by decide, by decide⟩
  have hspares : SparingRun 2 1 4 crammed_state crowded_ops := by
    refine ⟨fun i hi => ?_, fun st₁ _ => ⟨trivial, fun st₂ _ => ⟨trivial, fun _ _ => trivial⟩⟩⟩
    obtain rfl := crammed_handle (handle_valid hi)
    exact ⟨by decide, hdir, by decide⟩
  exact bystander_unchanged crowded_ops crammed_sound hsafe hspares hfile

end os_dev.fat32
