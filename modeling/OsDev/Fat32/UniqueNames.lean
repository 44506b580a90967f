import OsDev.Fat32.Integrity

open os_dev.ata os_dev.libc little_endian forest link_chain fuel

namespace os_dev.fat32

variable {v : Volume} {d d' : Disk} {st : Fat32}

/-- No directory holds two taken slots of the same 11-byte name. -/
def UniqueNames (v : Volume) (d : Disk) : Prop :=
  ∀ c l s t, LiveDir v d c → Cells v d c l → Taken v d l s → Taken v d l t →
    (slot v d s.1 s.2).name = (slot v d t.1 t.2).name → (slot v d s.1 s.2).ext = (slot v d t.1 t.2).ext → s = t

/-- No taken slot of the directory at `p` has the 8.3 form of `name`. -/
def Vacant (v : Volume) (d : Disk) (p : ℕ) (name : CStr) : Prop :=
  ∀ l s, Cells v d p l → Taken v d l s →
    ¬ ((slot v d s.1 s.2).name = standardize_base name ∧ (slot v d s.1 s.2).ext = standardize_ext name)

/-- Names stay unique when the directories and their slots stay the same, apart
    from slots that are given up. -/
theorem UniqueNames.congr (h : UniqueNames v d) (hdirs : ∀ c, LiveDir v d' c → LiveDir v d c)
    (hcells : ∀ c l, LiveDir v d' c → Cells v d' c l → Cells v d c l)
    (hslots : ∀ c l s, LiveDir v d' c → Cells v d' c l → Taken v d' l s → slot v d' s.1 s.2 = slot v d s.1 s.2) :
    UniqueNames v d' := by
  intro c l s t hc hl hs ht hname hext
  have hs' := hslots c l s hc hl hs
  have ht' := hslots c l t hc hl ht
  rw [hs', ht'] at hname hext
  have htaken : ∀ {s}, Taken v d' l s → slot v d' s.1 s.2 = slot v d s.1 s.2 → Taken v d l s := by
    rintro s ⟨hmem, hlt, hocc⟩ heq
    rw [heq] at hocc
    exact ⟨hmem, hlt, hocc⟩
  exact h c l s t (hdirs c hc) (hcells c l hc hl) (htaken hs hs') (htaken ht ht') hname hext

theorem Claimed.slot (hwf : WellFormed v d) {y k i : ℕ} (h : Claimed v d d' y) (hk : DirCluster v d k)
    (hi : i < slots_per_cluster v) : slot v d' k i = slot v d k i := by
  have huse := hwf.inUse_of_dirCluster hk
  apply slot_congr
  apply h.data k huse.inRange _ _ (sector_of_slot hi)
  rintro rfl
  exact h.unused huse

theorem Claimed.uniqueNames (hwf : WellFormed v d) {y : ℕ} (h : Claimed v d d' y) (hunique : UniqueNames v d) :
    UniqueNames v d' := by
  have hkeep := h.keeps hwf
  have hdirs := (hkeep.shape hwf).2
  have hcells : ∀ c l, LiveDir v d' c → Cells v d' c l → Cells v d c l :=
    fun c l hc hl => (hkeep.dir_cells hwf ((hdirs c).mp hc)).mp hl
  refine hunique.congr (fun c hc => (hdirs c).mp hc) hcells fun c l s hc hl hs => ?_
  exact h.slot hwf ⟨c, l, (hdirs c).mp hc, hcells c l hc hl, hs.1⟩ hs.2.1

theorem Claimed.vacant (hwf : WellFormed v d) {y p : ℕ} {name : CStr} (h : Claimed v d d' y) (hp : LiveDir v d p)
    (hvacant : Vacant v d p name) : Vacant v d' p name := by
  intro l s hl hs
  have hl' := ((h.keeps hwf).dir_cells hwf hp).mp hl
  have hslot := h.slot hwf ⟨p, l, hp, hl', hs.1⟩ hs.2.1
  obtain ⟨hmem, hlt, hocc⟩ := hs
  rw [hslot] at hocc ⊢
  exact hvacant l s hl' ⟨hmem, hlt, hocc⟩

theorem Removed.uniqueNames {k i : ℕ} (h : Removed v d d' k i) (hunique : UniqueNames v d) :
    UniqueNames v d' := by
  refine hunique.congr (fun c hc => ((h.dirs c).mp hc).1) (fun c l hc hl => (h.dir_cells c l hc).mp hl) ?_
  rintro c l ⟨k', i'⟩ hc hl ⟨hmem, hlt, hocc⟩
  apply h.slots k' (hl.inRange hmem) i' hlt
  rintro heq
  cases heq
  exact hocc.2.1 h.deleted

/-- A taken slot of an old directory is the new one or was taken before. -/
theorem Placed.taken (hwf : WellFormed v d) {p k i : ℕ} {e : fat32_dir_entry_t} (h : Placed v d d' p k i e)
    {c : ℕ} {l l₀ : List ℕ} {s : ℕ × ℕ} (hc : LiveDir v d c) (hl : Cells v d' c l) (hl₀ : Cells v d c l₀)
    (hs : Taken v d' l s) : s = (k, i) ∨ (slot v d' s.1 s.2 = slot v d s.1 s.2 ∧ Taken v d l₀ s) := by
  obtain ⟨hmem, hlt, hocc⟩ := hs
  obtain ⟨k', i'⟩ := s
  obtain ⟨o, ho⟩ := hwf.dir_owner hc
  by_cases heq : (k', i') = (k, i)
  · exact .inl heq
  right
  have hgrown : ¬ InUse v d k → k' = k → False := by
    rintro hunused rfl
    refine hocc.1 (h.grown hunused i' hlt ?_)
    rintro rfl
    exact heq rfl
  have hsame : slot v d' k' i' = slot v d k' i' :=
    h.slots k' (hl.inRange hmem) (fun hk => not_not.mp fun hunused => hgrown hunused hk) i' hlt heq
  have hmem₀ : k' ∈ l₀ := by
    rcases h.cells o c l₀ ho hl₀ with hcells | ⟨hunused, hcells⟩
    · rwa [Cells.unique hl hcells] at hmem
    · rw [Cells.unique hl hcells] at hmem
      rcases List.mem_append.mp hmem with hmem | hmem
      · exact hmem
      · exact (hgrown hunused (by simpa using hmem)).elim
  simp only [hsame] at hocc
  exact ⟨hsame, hmem₀, hlt, hocc⟩

/-- Placing an entry in a directory that does not hold its name yet keeps names
    unique, if they are unique in the new object. -/
theorem Placed.uniqueNames (hwf : WellFormed v d) {p k i y : ℕ} {name : CStr} {attr : UInt8} {isDir : Bool}
    (h : Placed v d d' p k i (made_entry (standardize_base name) (standardize_ext name) attr y 0))
    (hunique : UniqueNames v d) (hready : Ready v d y isDir) (hp : LiveDir v d p) (hvacant : Vacant v d p name)
    (hnew : ∀ s t, Taken v d [y] s → Taken v d [y] t →
      (slot v d s.1 s.2).name = (slot v d t.1 t.2).name → s = t) :
    UniqueNames v d' := by
  obtain ⟨depth, hforest⟩ := h.wf.exists_forest
  obtain ⟨lp, hlp, hklp⟩ := h.here
  have hky : y ≠ k := by
    rintro rfl
    exact h.place.elim hready.unused hready.used
  -- whoever shares the name of the new entry is the new entry
  have hclash : ∀ {c l t}, LiveDir v d c → Cells v d' c l → Taken v d' l (k, i) → Taken v d' l t →
      (slot v d' k i).name = (slot v d' t.1 t.2).name → (slot v d' k i).ext = (slot v d' t.1 t.2).ext →
      (k, i) = t := by
    intro c l t hc hl hs ht hname hext
    obtain ⟨l₀, hl₀⟩ := hwf.dir_cells hc
    rcases h.taken hwf hc hl hl₀ ht with heq | ⟨hsame, ht₀⟩
    · exact heq.symm
    · obtain rfl := hforest.dir_unique ((h.dirs c).mpr (.inl hc)) hl ((h.dirs p).mpr (.inl hp)) hlp hs.1 hklp
      rw [h.entry, hsame] at hname hext
      exact absurd ⟨hname.symm, hext.symm⟩ (hvacant l₀ t hl₀ ht₀)
  intro c l s t hc hl hs ht hname hext
  by_cases hcold : LiveDir v d c
  · obtain ⟨l₀, hl₀⟩ := hwf.dir_cells hcold
    rcases h.taken hwf hcold hl hl₀ hs with rfl | ⟨hsame, hs₀⟩
    · exact hclash hcold hl hs ht hname hext
    · rcases h.taken hwf hcold hl hl₀ ht with rfl | ⟨hsame', ht₀⟩
      · exact (hclash hcold hl ht hs hname.symm hext.symm).symm
      · rw [hsame, hsame'] at hname hext
        exact hunique c l₀ s t hcold hl₀ hs₀ ht₀ hname hext
  · -- the new directory
    have hobj := ((h.dirs c).mp hc).resolve_left hcold
    obtain rfl := (made_entry_object hready.inRange hobj).2
    have hchain : Cells v d' c [c] := by
      refine .last hready.inRange ?_
      have hword := h.word c hready.inRange.inTable hready.unused hky
      exact (hwf.sane.link_congr hready.inRange.inTable hword).trans hready.link
    rw [Cells.unique hl hchain] at hs ht
    have hsame : ∀ {s}, Taken v d' [c] s → slot v d' s.1 s.2 = slot v d s.1 s.2 := by
      rintro ⟨k', i'⟩ ⟨hmem, hlt, _⟩
      obtain rfl : k' = c := by simpa using hmem
      exact h.slots k' hready.inRange (fun heq => absurd heq hky) i' hlt fun heq => hky (Prod.mk.inj heq).1
    have htaken : ∀ {s}, Taken v d' [c] s → Taken v d [c] s := by
      intro s hs
      have heq := hsame hs
      obtain ⟨hmem, hlt, hocc⟩ := hs
      rw [heq] at hocc
      exact ⟨hmem, hlt, hocc⟩
    rw [hsame hs, hsame ht] at hname
    exact hnew s t (htaken hs) (htaken ht) hname

/-- A call that can change the names of a directory. -/
inductive NameOp where
  | create (path : CStr)
  | mkdir (path : CStr)
  | unlink (path : CStr)
  | rmdir (path : CStr)

/-- The call of the file interface that it stands for. -/
def NameOp.toOp : NameOp → Op
  | .create path => .open path mode_w
  | .mkdir path => .mkdir path
  | .unlink path => .unlink path
  | .rmdir path => .rmdir path

/-- The inputs on which a call keeps names unique: it follows live directories, it
    removes what its path resolves to, and a name that it enters in a directory
    is not taken there. -/
def NameSafe (st : Fat32) : NameOp → Prop
  | .create path => SafePath st path ∧ LiveDir st.vol st.disk (guessed_parent st path) ∧
    (Returns (fun fuel => fat32_resolve_path fuel st path) 0 →
      Vacant st.vol st.disk (guessed_parent st path) (base_name path))
  | .mkdir path => SafePath st path ∧ SafeParent st path ∧
    (Returns (fun fuel => fat32_resolve_path fuel st path) 0 →
      ∀ p name leading, Returns (fun fuel => parent_and_name fuel st path) (p, name, leading) →
        Vacant st.vol st.disk p name)
  | .unlink path => LiveDir st.vol st.disk (guessed_parent st path) ∧
    ∀ l k j i, Cells st.vol st.disk (guessed_parent st path) l →
      lookup st.vol st.disk false l path = some (k, j, i) →
      (slot st.vol st.disk k (16 * j + i)).attributes ≠ FAT_ATTR_LFN
  | .rmdir path => path = [slash] ∨ (SafePath st path ∧
    ∀ r, Returns (fun fuel => fat32_resolve_path fuel st path) r → r ≠ 0 →
      ∃ p name l k j i, SafeRmdir st path p name l k j i)

theorem create_unique {path : CStr} {res : Int × Fat32} (hwf : WellFormed st.vol st.disk)
    (hmounted : st.mounted = true) (hunique : UniqueNames st.vol st.disk)
    (hsafe : NameSafe st (.create path)) (hcase : OpenCase st path mode_w res) :
    res.2.mounted = true ∧ UniqueNames res.2.vol res.2.disk := by
  cases hcase with
  | existing r l =>
    obtain ⟨h₁, h₂, h₃⟩ := opened_fields st path r l
    rw [h₁, h₂, h₃]
    exact ⟨hmounted, hunique⟩
  | absent => exact ⟨hmounted, hunique⟩
  | leaked y d _ _ _ _ hclaimed => exact ⟨hmounted, hclaimed.uniqueNames hwf hunique⟩
  | created y d d' k i l hpath _ _ _ hd hclaimed hplaced =>
    obtain ⟨h₁, h₂, h₃⟩ := opened_fields { st with disk := d' } path y l
    rw [h₁, h₂, h₃]
    obtain ⟨hwf₁, hdirs⟩ := (hclaimed.keeps hwf).shape hwf
    have hready : Ready st.vol d y false := hclaimed.ready hwf (by simp)
    refine ⟨hmounted, hplaced.uniqueNames hwf₁ (hclaimed.uniqueNames hwf hunique) hready
      ((hdirs _).mpr hsafe.2.1) (hclaimed.vacant hwf hsafe.2.1 (hsafe.2.2 hpath)) ?_⟩
    -- the cluster of a new file is cleared, so nothing in it is taken
    rintro ⟨k', i'⟩ t ⟨hmem, hlt, hocc⟩
    obtain rfl : k' = y := by simpa using hmem
    refine absurd ?_ hocc.1
    simp only
    rw [slot, hd, hwf.sane.zero_cluster_same hclaimed.inRange (sector_of_slot hlt)]
    exact dir_entry_zero_name0 _

/-- The dot entries of a new directory have different names. -/
theorem init_directory_unique (hv : v.Sane) {y parent : ℕ} (hy : v.InRange y) (s t : ℕ × ℕ)
    (hs : Taken v (init_directory v d y parent) [y] s) (ht : Taken v (init_directory v d y parent) [y] t)
    (hname : (slot v (init_directory v d y parent) s.1 s.2).name =
      (slot v (init_directory v d y parent) t.1 t.2).name) : s = t := by
  obtain ⟨h0, h1, hrest⟩ := hv.init_directory_slots hy d parent
  have hindex : ∀ {s : ℕ × ℕ}, Taken v (init_directory v d y parent) [y] s → s = (y, 0) ∨ s = (y, 1) := by
    rintro ⟨k', i'⟩ ⟨hmem, hlt, hocc⟩
    obtain rfl : k' = y := by simpa using hmem
    by_cases htwo : 2 ≤ i'
    · exact absurd (hrest i' hlt htwo) hocc.1
    · have hcases : i' = 0 ∨ i' = 1 := by omega
      exact hcases.imp (fun h => by rw [h]) (fun h => by rw [h])
  have hdots : dot_name ≠ dotdot_name := by decide
  rcases hindex hs with rfl | rfl <;> rcases hindex ht with rfl | rfl
  · rfl
  · rw [h0, h1] at hname
    exact absurd hname hdots
  · rw [h0, h1] at hname
    exact absurd hname.symm hdots
  · rfl

theorem mkdir_unique {path : CStr} {res : Int × Fat32} (hwf : WellFormed st.vol st.disk)
    (hmounted : st.mounted = true) (hunique : UniqueNames st.vol st.disk)
    (hsafe : NameSafe st (.mkdir path)) (hcase : MkdirCase st path res) :
    res.2.mounted = true ∧ UniqueNames res.2.vol res.2.disk := by
  cases hcase with
  | refused => exact ⟨hmounted, hunique⟩
  | leaked p name leading y d _ _ _ _ hclaimed => exact ⟨hmounted, hclaimed.uniqueNames hwf hunique⟩
  | made p name leading y parent d d' k i hparent hpath hdir hd hclaimed hplaced =>
    obtain ⟨hwf₁, hdirs⟩ := (hclaimed.keeps hwf).shape hwf
    subst hd
    have hready : Ready st.vol _ y true :=
      hclaimed.ready hwf fun _ j hj => hwf.sane.init_directory_empty hclaimed.inRange _ j hj
    exact ⟨hmounted, hplaced.uniqueNames hwf₁ (hclaimed.uniqueNames hwf hunique) hready ((hdirs p).mpr hdir)
      (hclaimed.vacant hwf hdir (hsafe.2.2 hpath p name leading hparent))
      (init_directory_unique hwf.sane hclaimed.inRange)⟩

/-- Every call that meets its condition ends and keeps names unique. -/
theorem nameStep_unique {op : NameOp} (hwf : WellFormed st.vol st.disk) (hsupply : Supplied st op.toOp)
    (hmounted : st.mounted = true) (hunique : UniqueNames st.vol st.disk) (hsafe : NameSafe st op) :
    ∃ st', Returns (fun fuel => step fuel st op.toOp) st' ∧ st'.mounted = true ∧ UniqueNames st'.vol st'.disk := by
  cases op with
  | create path =>
    obtain ⟨res, hret, hcase⟩ := hwf.open_spec hsupply hmounted hsafe.1 hsafe.2.1
    exact ⟨_, hret.map Prod.snd, create_unique hwf hmounted hunique hsafe hcase⟩
  | mkdir path =>
    obtain ⟨res, hret, hcase⟩ := hwf.mkdir_spec hsupply hmounted hsafe.1 hsafe.2.1
    exact ⟨_, hret.map Prod.snd, mkdir_unique hwf hmounted hunique hsafe hcase⟩
  | unlink path =>
    obtain ⟨l, hl⟩ := hwf.dir_cells hsafe.1
    obtain ⟨res, hret, hcase⟩ := hwf.unlink_spec hmounted hsafe.1 hl fun k j i => hsafe.2 l k j i hl
    refine ⟨_, hret.map Prod.snd, ?_⟩
    cases hcase with
    | absent => exact ⟨hmounted, hunique⟩
    | directory => exact ⟨hmounted, hunique⟩
    | removed k j i d _ _ hremoved => exact ⟨hmounted, hremoved.uniqueNames hunique⟩
  | rmdir path =>
    by_cases hroot : path = [slash]
    · refine ⟨st, .of_forall fun fuel => ?_, hmounted, hunique⟩
      simp [step, NameOp.toOp, fat32_rmdir, hmounted, hroot]
    · obtain ⟨hpath, hentry⟩ := hsafe.resolve_left hroot
      obtain ⟨r, hr, _⟩ := hwf.resolve_path hmounted hpath
      by_cases hzero : r = 0
      · refine ⟨st, ?_, hmounted, hunique⟩
        filter_upwards [hr] with fuel h₁
        simp [step, NameOp.toOp, fat32_rmdir, hmounted, hroot, h₁, hzero]
      · obtain ⟨p, name, l, k, j, i, hsafe'⟩ := hentry r hr hzero
        have hfc := hr.unique hsafe'.target
        obtain ⟨d, hret, hremoved⟩ := hwf.rmdir_spec hmounted hroot hsafe' (by rwa [← hfc])
        exact ⟨_, hret.map Prod.snd, hmounted, hremoved.uniqueNames hunique⟩

/-- Every call of a run finds a well-formed volume, fits the buffers, is supplied with
    clusters of the drive and meets the condition on its names. -/
def NameSafeRun : Fat32 → List NameOp → Prop
  | _, [] => True
  | st, op :: ops => (WellFormed st.vol st.disk ∧ Fits st op.toOp ∧ Supplied st op.toOp ∧ NameSafe st op) ∧
    ∀ st', Returns (fun fuel => step fuel st op.toOp) st' → NameSafeRun st' ops

/-- Name uniqueness over runs: as long as no call enters a name that its
    directory already holds, no directory ever holds a name twice. -/
theorem run_keeps_names_unique (st : Fat32) (reached later : List NameOp) (hmounted : st.mounted = true)
    (hunique : UniqueNames st.vol st.disk) (hsafe : NameSafeRun st (reached ++ later)) :
    ∃ st', Returns (fun fuel => run fuel st (reached.map NameOp.toOp)) st' ∧ UniqueNames st'.vol st'.disk := by
  induction reached generalizing st with
  | nil => exact ⟨st, .of_forall fun _ => rfl, hunique⟩
  | cons op ops ih =>
    obtain ⟨⟨hwf, _, hsupply, hop⟩, hrest⟩ := hsafe
    obtain ⟨st₁, hret, hmounted₁, hunique₁⟩ := nameStep_unique hwf hsupply hmounted hunique hop
    obtain ⟨st₂, hret₂, hunique₂⟩ := ih st₁ hmounted₁ hunique₁ (hrest st₁ hret)
    exact ⟨st₂, hret.bind hret₂, hunique₂⟩

theorem blank_not_taken (hv : v.Sane) (hroot : v.InRange v.bpb.root_cluster) (l : List ℕ) (s : ℕ × ℕ) :
    ¬ Taken v (blank_disk v) l s := fun hs => hs.2.2.1 (blank_slots hv hroot s.1 s.2)

theorem small_state_unique : UniqueNames small_state.vol small_state.disk :=
  fun _ l s _ _ _ hs => absurd hs (blank_not_taken small_volume_sane small_root_inRange l s)

section SmallRun

variable {st₁ st₂ st₃ : Fat32} (h₁ : Returns (fun fuel => step fuel small_state (.mkdir (ascii "/A"))) st₁)

include h₁

/-- The new directory can be removed: its entry is the first of the root. -/
theorem small_rmdir_safe : Sound st₁ ∧ Safe st₁ (.rmdir (ascii "/A")) := by
  have hpath : ∀ {st : Fat32}, SafePath st (ascii "/A") := safePath_of_single (by decide) (by decide)
  have hrun : Returns (fun fuel => run fuel small_state [.mkdir (ascii "/A")]) st₁ := h₁.bind (.of_forall fun _ => rfl)
  obtain ⟨hclosed, hin, hend, hparent, hfound, hlfn, hdir, hresolve⟩ := run_test hrun 6
    (fun st' => (∀ fd, (st'.open_files fd).valid = false) ∧ st'.vol.InRange st'.vol.bpb.root_cluster ∧
      get_next_cluster st'.vol st'.disk st'.vol.bpb.root_cluster = FAT32_EOC ∧
      parent_and_name 6 st' (ascii "/A") = some (st'.vol.bpb.root_cluster, ascii "A", true) ∧
      lookup st'.vol st'.disk false [st'.vol.bpb.root_cluster] (ascii "A") = some (st'.vol.bpb.root_cluster, 0, 0) ∧
      (slot st'.vol st'.disk st'.vol.bpb.root_cluster 0).attributes ≠ FAT_ATTR_LFN ∧
      (slot st'.vol st'.disk st'.vol.bpb.root_cluster 0).isDirectory = true ∧
      fat32_resolve_path 6 st' (ascii "/A") = some (slot st'.vol st'.disk st'.vol.bpb.root_cluster 0).first_cluster)
    (by decide +kernel)
  have htarget : SafeRmdir st₁ (ascii "/A") st₁.vol.bpb.root_cluster (ascii "A") [st₁.vol.bpb.root_cluster]
      st₁.vol.bpb.root_cluster 0 0 :=
    ⟨⟨true, (parent_and_name_stable st₁ (ascii "/A")).returns hparent⟩, liveDir_root, .last hin hend, hfound, hlfn, hdir,
      (fat32_resolve_path_stable st₁ (ascii "/A")).returns hresolve⟩
  refine ⟨step_keeps_sound small_state_sound (.mkdir (ascii "/A")) (supplied_small rfl _) ⟨hpath, trivial⟩ h₁,
    .inr ⟨hpath, fun _ _ _ => ⟨_, _, _, _, _, _, htarget, fun fd hvalid => ?_⟩⟩⟩
  rw [hclosed fd] at hvalid
  cases hvalid

variable (h₂ : Returns (fun fuel => step fuel st₁ (.rmdir (ascii "/A"))) st₂)

include h₂

/-- The root is empty again, so the name of the new file is vacant. -/
theorem small_create_safe : Sound st₂ ∧ Safe st₂ (.open (ascii "B") mode_w) ∧
    Vacant st₂.vol st₂.disk (guessed_parent st₂ (ascii "B")) (base_name (ascii "B")) := by
  obtain ⟨hsound, hsafe⟩ := small_rmdir_safe h₁
  have hrun : Returns (fun fuel => run fuel small_state [.mkdir (ascii "/A"), .rmdir (ascii "/A")]) st₂ :=
    h₁.bind (h₂.bind (.of_forall fun _ => rfl))
  obtain ⟨hcwd, hroot, hin, hend, hempty⟩ := run_test hrun 6
    (fun st' => start_cluster st' (ascii "B") = st'.vol.bpb.root_cluster ∧
      guessed_parent st' (ascii "B") = st'.vol.bpb.root_cluster ∧ st'.vol.InRange st'.vol.bpb.root_cluster ∧
      get_next_cluster st'.vol st'.disk st'.vol.bpb.root_cluster = FAT32_EOC ∧
      ∀ i < slots_per_cluster st'.vol, ¬ (slot st'.vol st'.disk st'.vol.bpb.root_cluster i).Occupied)
    (by decide +kernel)
  refine ⟨step_keeps_sound hsound (.rmdir (ascii "/A")) trivial hsafe h₂,
    And.intro (fun _ => ?_) (And.intro ?_ fun hparts => absurd hparts (by decide)), fun l s hl hs => ?_⟩
  · rw [hcwd]
    exact ⟨liveDir_root, fun hrest => absurd rfl hrest⟩
  · rw [hroot]
    exact liveDir_root
  · rw [hroot] at hl
    rw [hl.unique (.last hin hend)] at hs
    obtain ⟨hmem, hlt, hocc⟩ := hs
    rw [List.mem_singleton.mp hmem] at hocc
    exact absurd hocc (hempty s.2 hlt)

variable (h₃ : Returns (fun fuel => step fuel st₂ (.open (ascii "B") mode_w)) st₃)

include h₃

/-- The file's own entry is no long-name part. -/
theorem small_unlink_safe : Sound st₃ ∧ NameSafe st₃ (.unlink (ascii "B")) := by
  obtain ⟨hsound, hsafe, -⟩ := small_create_safe h₁ h₂
  have hvol : st₂.vol = small_volume := (step_vol h₂).trans (step_vol h₁)
  have hrun : Returns (fun fuel => run fuel small_state
      [.mkdir (ascii "/A"), .rmdir (ascii "/A"), .open (ascii "B") mode_w]) st₃ :=
    h₁.bind (h₂.bind (h₃.bind (.of_forall fun _ => rfl)))
  obtain ⟨hroot, hin, hend, hfound, hlfn⟩ := run_test hrun 6
    (fun st' => guessed_parent st' (ascii "B") = st'.vol.bpb.root_cluster ∧ st'.vol.InRange st'.vol.bpb.root_cluster ∧
      get_next_cluster st'.vol st'.disk st'.vol.bpb.root_cluster = FAT32_EOC ∧
      lookup st'.vol st'.disk false [st'.vol.bpb.root_cluster] (ascii "B") = some (st'.vol.bpb.root_cluster, 0, 0) ∧
      (slot st'.vol st'.disk st'.vol.bpb.root_cluster 0).attributes ≠ FAT_ATTR_LFN)
    (by decide +kernel)
  refine ⟨step_keeps_sound hsound (.open (ascii "B") mode_w) (supplied_small hvol _) hsafe h₃, ?_, fun l k j i hl hlookup => ?_⟩
  · rw [hroot]
    exact liveDir_root
  · rw [hroot] at hl
    rw [hl.unique (.last hin hend), hfound] at hlookup
    cases hlookup
    exact hlfn

end SmallRun

/-- A directory comes and goes, and a file takes the slot it leaves. -/
theorem run_keeps_names_unique_small :
    small_state.mounted = true ∧ UniqueNames small_state.vol small_state.disk ∧
      NameSafeRun small_state ([.mkdir (ascii "/A"), .rmdir (ascii "/A"), .create (ascii "B")] ++ [.unlink (ascii "B")]) ∧
      ∃ st', Returns (fun fuel => run fuel small_state
          ([NameOp.mkdir (ascii "/A"), .rmdir (ascii "/A"), .create (ascii "B")].map NameOp.toOp)) st' ∧
        UniqueNames st'.vol st'.disk := by
  have hfits : (0 ∉ ascii "/A") ∧ (ascii "/A").length < FAT32_MAX_PATH ∧ (base_name (ascii "/A")).length < FAT32_MAX_FILENAME := by
    decide
  have hsafe : NameSafeRun small_state
      ([.mkdir (ascii "/A"), .rmdir (ascii "/A"), .create (ascii "B")] ++ [.unlink (ascii "B")]) := by
    refine ⟨⟨small_state_sound.wf, hfits, supplied_small rfl _, safePath_of_single (by decide) (by decide), trivial,
      fun _ p name leading _ l s _ hs => absurd hs (blank_not_taken small_volume_sane small_root_inRange l s)⟩, fun st₁ h₁ => ?_⟩
    obtain ⟨hsound₁, hrmdir⟩ := small_rmdir_safe h₁
    refine ⟨⟨hsound₁.wf, hfits, trivial, hrmdir.imp_right fun hentry => ⟨hentry.1, fun r hr hne => ?_⟩⟩, fun st₂ h₂ => ?_⟩
    · obtain ⟨p, name, l, k, j, i, htarget, -⟩ := hentry.2 r hr hne
      exact ⟨p, name, l, k, j, i, htarget⟩
    obtain ⟨hsound₂, hopen, hvacant⟩ := small_create_safe h₁ h₂
    have hvol₂ : st₂.vol = small_volume := (step_vol h₂).trans (step_vol h₁)
    refine ⟨⟨hsound₂.wf, And.intro (by decide) (by decide), supplied_small hvol₂ _, hopen.1, hopen.2.1, fun _ => hvacant⟩,
      fun st₃ h₃ => ?_⟩
    obtain ⟨hsound₃, hunlink⟩ := small_unlink_safe h₁ h₂ h₃
    exact ⟨⟨hsound₃.wf, (show 0 ∉ ascii "B" by decide), trivial, hunlink⟩, fun _ _ => trivial⟩
  exact ⟨rfl, small_state_unique, hsafe, run_keeps_names_unique small_state _ _ rfl small_state_unique hsafe⟩

/-- Creating `/A/B` without a directory `/A` enters the name `B` in the root once more. -/
theorem create_repeats_name :
    small_state.mounted = true ∧ UniqueNames small_state.vol small_state.disk ∧
      ∃ st', Returns (fun fuel => run fuel small_state
          [.open (ascii "/B") mode_w, .open (ascii "/A/B") mode_w]) st' ∧ ¬ UniqueNames st'.vol st'.disk := by
  refine ⟨rfl, small_state_unique, ?_⟩
  obtain ⟨st', hret, hroot, hend, hslots, h0, h1, hname, hext⟩ := run_returns_of_test 6 small_state
    [.open (ascii "/B") mode_w, .open (ascii "/A/B") mode_w] (fun st' => st'.vol.InRange st'.vol.bpb.root_cluster ∧
      get_next_cluster st'.vol st'.disk st'.vol.bpb.root_cluster = FAT32_EOC ∧ 1 < slots_per_cluster st'.vol ∧
      (slot st'.vol st'.disk st'.vol.bpb.root_cluster 0).Occupied ∧
      (slot st'.vol st'.disk st'.vol.bpb.root_cluster 1).Occupied ∧
      (slot st'.vol st'.disk st'.vol.bpb.root_cluster 0).name = (slot st'.vol st'.disk st'.vol.bpb.root_cluster 1).name ∧
      (slot st'.vol st'.disk st'.vol.bpb.root_cluster 0).ext = (slot st'.vol st'.disk st'.vol.bpb.root_cluster 1).ext)
    (by decide +kernel)
  refine ⟨st', hret, fun hunique => ?_⟩
  have hsame := hunique _ _ (st'.vol.bpb.root_cluster, 0) (st'.vol.bpb.root_cluster, 1) liveDir_root
    (.last hroot hend) ⟨by simp, by omega, h0⟩ ⟨by simp, hslots, h1⟩ hname hext
  exact absurd hsame (by simp)

end os_dev.fat32
