import OsDev.Fat32.UniqueNames

open os_dev.ata os_dev.libc little_endian forest link_chain fuel

namespace os_dev.fat32

variable {v : Volume} {d d' : Disk} {st : Fat32}

/-- The components lead from the directory at `c` to the one at `r`, through
    directories only. -/
inductive Leads (v : Volume) (d : Disk) : ℕ → List CStr → ℕ → Prop where
  | done {c : ℕ} : Leads v d c [] c
  | step {c r : ℕ} {l : List ℕ} {part : CStr} {rest : List CStr} {k j i : ℕ} (hl : Cells v d c l)
      (hfound : lookup v d true l part = some (k, j, i))
      (hdir : (slot v d k (16 * j + i)).isDirectory = true)
      (hne : (slot v d k (16 * j + i)).first_cluster ≠ 0)
      (tail : Leads v d (slot v d k (16 * j + i)).first_cluster rest r) : Leads v d c (part :: rest) r

theorem Leads.resolves {c r : ℕ} {parts : List CStr} (h : Leads v d c parts r) : Resolves v d c parts r := by
  induction h with
  | done => exact .done
  | step hl hfound _ _ _ ih => exact .step hl hfound ih

theorem Leads.trans {a b c : ℕ} {parts parts' : List CStr} (h : Leads v d a parts b)
    (h' : Leads v d b parts' c) : Leads v d a (parts ++ parts') c := by
  induction h with
  | done => exact h'
  | step hl hfound hdir hne _ ih => exact .step hl hfound hdir hne (ih h')

/-- What a search finds in a directory is listed there. -/
theorem lookup_dir_lists {c : ℕ} {l : List ℕ} {part : CStr} {k j i : ℕ} (hc : LiveDir v d c) (hl : Cells v d c l)
    (hfound : lookup v d true l part = some (k, j, i)) (hdir : (slot v d k (16 * j + i)).isDirectory = true)
    (hne : (slot v d k (16 * j + i)).first_cluster ≠ 0) :
    Lists v d c k (16 * j + i) true (slot v d k (16 * j + i)).first_cluster :=
  hdir ▸ lookup_lists hc hl hfound ((lookup_some hfound).2.2.2.2.2.1 rfl) hne

theorem Leads.under {c r : ℕ} {parts : List CStr} (h : Leads v d c parts r) (hc : LiveDir v d c) :
    (view v d).Under c r := by
  induction h with
  | done => exact .self
  | step hl hfound hdir hne _ ih =>
    have hlists := lookup_dir_lists hc hl hfound hdir hne
    obtain ⟨_, ⟨l', hl', hk⟩, hent⟩ := hlists
    exact (View.Under.self.sub hl' hk hent).trans (ih (LiveEntry.liveDir ⟨_, hc, ⟨l', hl', hk⟩, hent⟩))

theorem Leads.liveDir {c r : ℕ} {parts : List CStr} (h : Leads v d c parts r) (hc : LiveDir v d c) :
    LiveDir v d r := by
  induction h with
  | done => exact hc
  | step hl hfound hdir hne _ ih => exact ih (LiveEntry.liveDir ⟨_, lookup_dir_lists hc hl hfound hdir hne⟩)

/-- A walk that is safe and ends at a live directory passes through directories only. -/
theorem Resolves.leads (hwf : WellFormed v d) {c r : ℕ} {parts : List CStr} (h : Resolves v d c parts r)
    (hc : LiveDir v d c) (hsafe : SafeWalk v d c parts) (hr : LiveDir v d r) : Leads v d c parts r := by
  induction h with
  | done => exact .done
  | missing hl hnone =>
    obtain ⟨l, hl⟩ := hwf.dir_cells hr
    exact absurd rfl (Cells.inRange hl hl.head_mem).ne_zero
  | @step c r l part rest k j i hl hfound tail ih =>
    by_cases hrest : rest = []
    · subst hrest
      cases tail
      obtain ⟨l', hl'⟩ := hwf.dir_cells hr
      have hne := (Cells.inRange hl' hl'.head_mem).ne_zero
      have hlists := lookup_lists hc hl hfound ((lookup_some hfound).2.2.2.2.2.1 rfl) hne
      -- the slot that names a live directory says that it is one
      obtain ⟨depth, hforest⟩ := hwf.exists_forest
      have hdir := (hforest.dir_of_cell hr hl' hl'.head_mem hlists.owns hl' hl'.head_mem).2
      rw [hlists.2.2] at hdir
      exact .step hl hfound (Prod.mk.inj (Option.some.inj hdir)).1 hne .done
    · obtain ⟨hdir, hne, hwalk⟩ := hsafe hrest l k j i hl hfound
      exact .step hl hfound hdir hne
        (ih (LiveEntry.liveDir ⟨c, lookup_dir_lists hc hl hfound hdir hne⟩) hwalk hr)

/-- In a directory with unique names a search finds whatever visible slot has the name. -/
theorem lookup_of_unique (hunique : UniqueNames v d) {c : ℕ} {l : List ℕ} {name : CStr} {k j i : ℕ}
    (hc : LiveDir v d c) (hl : Cells v d c l) (hk : k ∈ l) (hj : j < v.bpb.sectors_per_cluster) (hi : i < 16)
    (hvisible : Visible v d k j i) (hocc : (slot v d k (16 * j + i)).Occupied)
    (hname : (slot v d k (16 * j + i)).name = standardize_base name)
    (hext : (slot v d k (16 * j + i)).ext = standardize_ext name) :
    lookup v d true l name = some (k, j, i) := by
  have hmatch : matches_name true (standardize_name name) (slot v d k (16 * j + i)) = true :=
    matches_name_iff.mpr ⟨hocc.2.1, fun _ => hocc.2.2, hname, hext⟩
  cases hfound : lookup v d true l name with
  | none =>
    have hnone := chain_hit_scan_none hfound hk hj hi hvisible
    rw [hmatch] at hnone
    cases hnone
  | some pos =>
    obtain ⟨k', j', i'⟩ := pos
    obtain ⟨hk', hj', hi', h0, h1, h2, h3, h4⟩ := lookup_some hfound
    have heq := hunique c l (k, 16 * j + i) (k', 16 * j' + i') hc hl ⟨hk, slot_index_lt hj hi, hocc⟩
      ⟨hk', slot_index_lt hj' hi', h0, h1, h2 rfl⟩ (hname.trans h3.symm) (hext.trans h4.symm)
    obtain ⟨rfl, hindex⟩ := Prod.mk.inj heq
    rw [show j' = j by omega, show i' = i by omega]

/-- A path keeps leading to its directory while the directories on it stay, keep
    their clusters, and keep the slots in use, and no end mark comes up. -/
theorem Leads.congr (hunique : UniqueNames v d') {c r : ℕ} {parts : List CStr} (h : Leads v d c parts r)
    (hdirs : ∀ x, (view v d).Under c x → (view v d).Under x r → LiveDir v d x → LiveDir v d' x ∧
      ∃ l l', Cells v d x l ∧ Cells v d' x l' ∧ ∀ k ∈ l, k ∈ l')
    (hslots : ∀ k j i, Visible v d k j i → DirCluster v d k → j < v.bpb.sectors_per_cluster → i < 16 →
      ∀ y, (view v d).ent k (16 * j + i) = some (true, y) → (view v d).Under y r →
      slot v d' k (16 * j + i) = slot v d k (16 * j + i) ∧ Visible v d' k j i)
    (hc : LiveDir v d c) : Leads v d' c parts r := by
  induction h with
  | done => exact .done
  | @step c r l part rest k j i hl hfound hdir hne tail ih =>
    obtain ⟨hk, hj, hi, _, _, _, hname, hext⟩ := lookup_some hfound
    have hlists := lookup_dir_lists hc hl hfound hdir hne
    have hsub : LiveDir v d (slot v d k (16 * j + i)).first_cluster := LiveEntry.liveDir ⟨c, hlists⟩
    have htail := tail.under hsub
    have hstep : (view v d).Under c (slot v d k (16 * j + i)).first_cluster :=
      View.Under.self.sub hl hk hlists.2.2
    obtain ⟨hc', l₀, l', hl₀, hl', hmono⟩ := hdirs c .self (hstep.trans htail) hc
    rw [Cells.unique hl₀ hl] at hmono
    obtain ⟨hsame, hvisible⟩ := hslots k j i (lookup_visible hfound) ⟨c, l, hc, hl, hk⟩ hj hi _ hlists.2.2 htail
    have hocc := lookup_occupied hfound
    have hfound' : lookup v d' true l' part = some (k, j, i) :=
      lookup_of_unique hunique hc' hl' (hmono k hk) hj hi hvisible (hsame ▸ hocc) (hsame ▸ hname) (hsame ▸ hext)
    refine .step hl' hfound' (hsame ▸ hdir) (hsame ▸ hne) ?_
    rw [hsame]
    exact ih (fun x hx => hdirs x (hstep.trans hx)) hslots hsub

theorem Claimed.leads (hwf : WellFormed v d) {y r : ℕ} {parts : List CStr} (h : Claimed v d d' y)
    (hunique : UniqueNames v d) (hleads : Leads v d v.bpb.root_cluster parts r) :
    Leads v d' v.bpb.root_cluster parts r := by
  have hkeep := h.keeps hwf
  refine hleads.congr (h.uniqueNames hwf hunique) ?_ ?_ liveDir_root
  · intro x _ _ hx
    obtain ⟨l, hl⟩ := hwf.dir_cells hx
    exact ⟨((hkeep.shape hwf).2 x).mpr hx, l, l, hl, (hkeep.dir_cells hwf hx).mpr hl, fun _ hk => hk⟩
  · intro k j i hvisible hk hj hi _ _ _
    refine ⟨h.slot hwf hk (slot_index_lt hj hi), fun i' hi' => ?_⟩
    rw [h.slot hwf hk (slot_index_lt hj (by omega))]
    exact hvisible i' hi'

/-- A new entry hides no directory that could be reached before. -/
theorem Placed.leads (hwf : WellFormed v d) {p k i y r : ℕ} {e : fat32_dir_entry_t} {isDir : Bool}
    {parts : List CStr} (h : Placed v d d' p k i e) (hunique : UniqueNames v d') (hready : Ready v d y isDir)
    (hobj : ∀ b c, named_object e = some (b, c) → c = y) (hname : e.name0 ≠ 0)
    (hleads : Leads v d v.bpb.root_cluster parts r) : Leads v d' v.bpb.root_cluster parts r := by
  refine hleads.congr hunique ?_ ?_ liveDir_root
  · intro x _ _ hx
    obtain ⟨l, hl⟩ := hwf.dir_cells hx
    obtain ⟨o, ho⟩ := hwf.dir_owner hx
    refine ⟨(h.dirs x).mpr (.inl hx), l, ?_⟩
    rcases h.cells o x l ho hl with hcells | ⟨_, hcells⟩
    · exact ⟨l, hl, hcells, fun _ hk => hk⟩
    · exact ⟨_, hl, hcells, fun _ hk => by simp [hk]⟩
  · intro k' j i' hvisible hk' hj hi' z hent _
    have huse := hwf.inUse_of_dirCluster hk'
    have hslot : ∀ i₀ < 16, (k', 16 * j + i₀) ≠ (k, i) → slot v d' k' (16 * j + i₀) = slot v d k' (16 * j + i₀) :=
      fun i₀ hi₀ hne => h.slots k' huse.inRange (fun heq => heq ▸ huse) _ (slot_index_lt hj hi₀) hne
    have hne : (k', 16 * j + i') ≠ (k, i) := by
      -- a slot in use would now name the new cluster
      intro heq
      obtain ⟨c, l, hc, hl, hmem⟩ := hk'
      have hlists : Lists v d c k' (16 * j + i') true z := ⟨hc, ⟨l, hl, hmem⟩, hent⟩
      have hnew := (view_ent_some ((h.lists c k' _ true z).mpr (.inl hlists)).2.2).2
      cases heq
      rw [h.entry] at hnew
      obtain rfl := hobj true z hnew
      obtain ⟨lz, hlz⟩ := hwf.dir_cells (LiveEntry.liveDir ⟨c, hlists⟩)
      exact hready.unused ⟨_, _, lz, hlists.owns, hlz, hlz.head_mem⟩
    refine ⟨hslot i' hi' hne, fun i₀ hle => ?_⟩
    by_cases heq : (k', 16 * j + i₀) = (k, i)
    · cases heq
      rw [h.entry]
      exact hname
    · rw [hslot i₀ (by omega) heq]
      exact hvisible i₀ hle

/-- Removing a directory keeps the paths that do not lead into it. -/
theorem Removed.leads (hwf : WellFormed v d) {k i r : ℕ} {parts : List CStr} (h : Removed v d d' k i)
    (hunique : UniqueNames v d) (hleads : Leads v d v.bpb.root_cluster parts r)
    (hout : ∀ y, (view v d).ent k i = some (true, y) → ¬ (view v d).Under y r) :
    Leads v d' v.bpb.root_cluster parts r := by
  refine hleads.congr (h.uniqueNames hunique) ?_ ?_ liveDir_root
  · intro x _ hunder hx
    have hx' : LiveDir v d' x := (h.dirs x).mpr ⟨hx, fun y hy hyx => hout y hy (hyx.trans hunder)⟩
    obtain ⟨l, hl⟩ := hwf.dir_cells hx
    exact ⟨hx', l, l, hl, (h.dir_cells x l hx').mpr hl, fun _ hk => hk⟩
  · intro k' j i' hvisible hk' hj hi' z hent hunder
    have hin := (hwf.inUse_of_dirCluster hk').inRange
    have hne : (k', 16 * j + i') ≠ (k, i) := by
      rintro heq
      cases heq
      exact hout z hent hunder
    refine ⟨h.slots k' hin _ (slot_index_lt hj hi') hne, fun i₀ hle => ?_⟩
    by_cases heq : (k', 16 * j + i₀) = (k, i)
    · cases heq
      rw [h.deleted]
      decide
    · rw [h.slots k' hin _ (slot_index_lt hj (by omega)) heq]
      exact hvisible i₀ hle

/-- A path through directories ends where it starts or at a listed directory. -/
theorem Leads.target {c r : ℕ} {parts : List CStr} (h : Leads v d c parts r) (hc : LiveDir v d c) :
    r = c ∨ ∃ k i, LiveEntry v d k i true r := by
  induction h with
  | done => exact .inl rfl
  | step hl hfound hdir hne tail ih =>
    have hlists := lookup_dir_lists hc hl hfound hdir hne
    rcases ih (LiveEntry.liveDir ⟨_, hlists⟩) with rfl | hentry
    · exact .inr ⟨_, _, _, hlists⟩
    · exact .inr hentry

/-- The path and the cluster of the current directory belong together. -/
structure CwdOk (st : Fat32) : Prop where
  mounted : st.mounted = true
  wf : WellFormed st.vol st.disk
  unique : UniqueNames st.vol st.disk
  path : st.fat32_cwd_path.head? = some slash
  leads : Leads st.vol st.disk st.vol.bpb.root_cluster (components st.fat32_cwd_path) st.fat32_cwd_cluster

theorem CwdOk.liveDir (h : CwdOk st) : LiveDir st.vol st.disk st.fat32_cwd_cluster := h.leads.liveDir liveDir_root

theorem CwdOk.resolve (h : CwdOk st) :
    Returns (fun fuel => fat32_resolve_path fuel st st.fat32_cwd_path) st.fat32_cwd_cluster := by
  have hne : st.fat32_cwd_path ≠ [] := by
    intro heq
    have hpath := h.path
    rw [heq] at hpath
    cases hpath
  filter_upwards [h.leads.resolves.returns h.wf.sane] with fuel hfuel
  simp [fat32_resolve_path, h.mounted, hne, start_cluster, h.path, hfuel]

/-- A call that can change the current directory or the directories it lies in. -/
inductive CwdOp where
  | chdir (path : CStr)
  | mkdir (path : CStr)
  | rmdir (path : CStr)

/-- The call of the file interface that it stands for. -/
def CwdOp.toOp : CwdOp → Op
  | .chdir path => .chdir path
  | .mkdir path => .mkdir path
  | .rmdir path => .rmdir path

/-- The strings for which `fat32_chdir` joins the path it was given to the current
    one correctly: an absolute path, any path from the root, or a path that is not
    empty and not `..` when the current path has no trailing slash. -/
def Joins (cwd_path path : CStr) : Prop :=
  path.head? = some slash ∨ cwd_path = [slash] ∨
    (path ≠ [] ∧ path ≠ [dot, dot] ∧ cwd_path.getLast? ≠ some slash)

/-- The inputs on which a call keeps the current directory: `fat32_chdir` goes to a
    directory under a path that it can join, and `fat32_rmdir` removes no directory
    that the current one lies in. -/
def CwdSafe (st : Fat32) : CwdOp → Prop
  | .chdir path => SafePath st path ∧
    ∀ r, Returns (fun fuel => fat32_resolve_path fuel st path) r → r ≠ 0 → path ≠ [dot] →
      Joins st.fat32_cwd_path path ∧ (path = [dot, dot] ∨ LiveDir st.vol st.disk r)
  | .mkdir path => NameSafe st (.mkdir path)
  | .rmdir path => NameSafe st (.rmdir path) ∧
    ∀ r, Returns (fun fuel => fat32_resolve_path fuel st path) r → r ≠ 0 →
      ¬ (view st.vol st.disk).Under r st.fat32_cwd_cluster

theorem CwdOk.disk (h : CwdOk st) {d : Disk} (hwf : WellFormed st.vol d) (hunique : UniqueNames st.vol d)
    (hleads : Leads st.vol d st.vol.bpb.root_cluster (components st.fat32_cwd_path) st.fat32_cwd_cluster) :
    CwdOk { st with disk := d } := ⟨h.mounted, hwf, hunique, h.path, hleads⟩

theorem parent_and_name_no_zero {path name : CStr} {p : ℕ} {leading : Bool} (hpath : 0 ∉ path)
    (h : Returns (fun fuel => parent_and_name fuel st path) (p, name, leading)) : 0 ∉ name := by
  obtain ⟨fuel, hfuel⟩ := h.exists
  cases hsplit : split_last_slash path with
  | none =>
    simp only [parent_and_name, hsplit, Option.some.injEq, Prod.mk.injEq] at hfuel
    rwa [← hfuel.2.1]
  | some pair =>
    obtain ⟨front, back⟩ := pair
    have hname : name = back := by
      cases front with
      | nil =>
        simp only [parent_and_name, hsplit, Option.some.injEq, Prod.mk.injEq] at hfuel
        exact hfuel.2.1.symm
      | cons c cs =>
        simp only [parent_and_name, hsplit, Option.pure_def, Option.bind_eq_bind, Option.bind_eq_some_iff,
          Option.some.injEq, Prod.mk.injEq] at hfuel
        obtain ⟨_, _, _, hback, _⟩ := hfuel
        exact hback.symm
    rw [(split_last_slash_some hsplit).1] at hpath
    exact fun hmem => hpath (by simp [← hname, hmem])

theorem mkdir_cwd {path : CStr} {res : Int × Fat32} (h : CwdOk st) (hpath : 0 ∉ path)
    (hsafe : NameSafe st (.mkdir path)) (hcase : MkdirCase st path res) : CwdOk res.2 := by
  have hunique := (mkdir_unique h.wf h.mounted h.unique hsafe hcase).2
  cases hcase with
  | refused => exact h
  | leaked p name leading y d _ _ _ _ hclaimed =>
    have htree := hclaimed.sameTree h.wf
    exact h.disk htree.wf hunique (hclaimed.leads h.wf h.unique h.leads)
  | made p name leading y parent d d' k i hparent _ _ hd hclaimed hplaced =>
    have htree := hclaimed.sameTree h.wf
    have hready : Ready st.vol d y true :=
      hclaimed.ready h.wf fun _ j hj => hd ▸ h.wf.sane.init_directory_empty hclaimed.inRange _ j hj
    refine h.disk hplaced.wf hunique ?_
    refine hplaced.leads htree.wf hunique hready (fun b c hobj => (made_entry_object hready.inRange hobj).2) ?_
      (hclaimed.leads h.wf h.unique h.leads)
    exact standardize_base_ne_zero (parent_and_name_no_zero hpath hparent)

theorem rmdir_cwd {path : CStr} (h : CwdOk st) (hsafe : CwdSafe st (.rmdir path)) :
    ∃ res, Returns (fun fuel => fat32_rmdir fuel st path) res ∧ CwdOk res.2 := by
  by_cases hroot : path = [slash]
  · refine ⟨(-1, st), .of_forall fun fuel => ?_, h⟩
    simp [fat32_rmdir, h.mounted, hroot]
  obtain ⟨hpath, hentry⟩ := hsafe.1.resolve_left hroot
  obtain ⟨r, hr, _⟩ := h.wf.resolve_path h.mounted hpath
  by_cases hzero : r = 0
  · refine ⟨(-1, st), ?_, h⟩
    filter_upwards [hr] with fuel h₁
    simp [fat32_rmdir, h.mounted, hroot, h₁, hzero]
  obtain ⟨p, name, l, k, j, i, hsafe'⟩ := hentry r hr hzero
  have hfc := hr.unique hsafe'.target
  obtain ⟨d, hret, hremoved⟩ := h.wf.rmdir_spec h.mounted hroot hsafe' (by rwa [← hfc])
  refine ⟨_, hret, h.disk hremoved.wf (hremoved.uniqueNames h.unique) ?_⟩
  refine hremoved.leads h.wf h.unique h.leads fun y hy hunder => ?_
  have hy' := (named_object_some (view_ent_some hy).2).2.2.2
  rw [← hy', ← hfc] at hunder
  exact hsafe.2 r hr hzero hunder

/-- Joining two paths joins their components. -/
theorem components_join {cwd_path path : CStr} (hhead : cwd_path.head? = some slash)
    (hrel : path.head? ≠ some slash) (hjoin : cwd_path = [slash] ∨ cwd_path.getLast? ≠ some slash) :
    components (cwd_path ++ (if cwd_path ≠ [slash] then [slash] else []) ++ path) =
      components cwd_path ++ components path := by
  cases cwd_path with
  | nil => cases hhead
  | cons c cs =>
    obtain rfl : c = slash := by simpa using hhead
    by_cases hcs : cs = []
    · subst hcs
      simp [components, hrel, path_parts]
    · have hlast : cs.getLast? ≠ some slash := by
        rcases hjoin with hjoin | hjoin
        · simp [hcs] at hjoin
        · cases cs with
          | nil => exact absurd rfl hcs
          | cons c' cs' => simpa using hjoin
      have happend := @path_parts_append [] cs path (fun heq => absurd heq hcs) hlast
      simpa [components, hrel, hcs] using happend

theorem chdir_cwd {path : CStr} (h : CwdOk st) (hfits : Fits st (.chdir path)) (hsafe : CwdSafe st (.chdir path)) :
    ∃ res, Returns (fun fuel => fat32_chdir fuel st path) res ∧ CwdOk res.2 := by
  obtain ⟨hpath, htarget⟩ := hsafe
  obtain ⟨r, hr, _⟩ := h.wf.resolve_path h.mounted hpath
  obtain ⟨res, hres⟩ : ∃ res, change_cwd st path r = some res ∧ CwdOk res.2 := by
    have hcwd : ∀ p, p.head? = some slash →
        Leads st.vol st.disk st.vol.bpb.root_cluster (components p) r →
        CwdOk { st with fat32_cwd_path := p, fat32_cwd_cluster := r } :=
      fun p hp hleads => ⟨h.mounted, h.wf, h.unique, hp, hleads⟩
    have hwalk : path ≠ [] → LiveDir st.vol st.disk r →
        Leads st.vol st.disk (start_cluster st path) (components path) r := by
      intro hne hlive
      obtain ⟨hstart, hsafe⟩ := hpath hne
      obtain ⟨r', hresolves, _⟩ := h.wf.resolves hstart hsafe
      have hret : Returns (fun fuel => fat32_resolve_path fuel st path) r' :=
        (hresolves.returns h.wf.sane).congr fun fuel hfuel => by
          simp [fat32_resolve_path, h.mounted, hne, hfuel]
      obtain rfl := hr.unique hret
      exact hresolves.leads h.wf hstart hsafe hlive
    unfold change_cwd
    split
    case isTrue => exact ⟨_, rfl, h⟩
    case isFalse hzero =>
    split
    case isTrue habs =>
      have hne : path ≠ [] := by
        rintro rfl
        cases habs
      have hdots : path ≠ [dot] ∧ path ≠ [dot, dot] := by
        constructor <;> (rintro rfl; exact absurd habs (by decide))
      have hlen : path.length ≤ FAT32_MAX_PATH - 1 := by
        have := hfits.2
        omega
      obtain ⟨_, hlive⟩ := htarget r hr hzero hdots.1
      rw [List.take_of_length_le hlen]
      refine ⟨_, rfl, hcwd _ habs ?_⟩
      have hleads := hwalk hne (hlive.resolve_left hdots.2)
      rwa [start_cluster, if_pos habs] at hleads
    case isFalse hrel =>
    split
    case isTrue => exact ⟨_, rfl, h⟩
    case isFalse hdot =>
    obtain ⟨hjoin, hlive⟩ := htarget r hr hzero hdot
    have hjoin := hjoin.resolve_left hrel
    split
    case isTrue hdots =>
      rw [if_pos (hjoin.resolve_right fun hjoin => hjoin.2.1 hdots)]
      exact ⟨_, rfl, h⟩
    case isFalse hdots =>
    refine ⟨_, rfl, hcwd _ ?_ ?_⟩
    · have hhead := h.path
      cases hp : st.fat32_cwd_path with
      | nil =>
        rw [hp] at hhead
        cases hhead
      | cons c cs =>
        rw [hp] at hhead
        simpa using hhead
    · rw [components_join h.path hrel (hjoin.imp id fun hjoin => hjoin.2.2)]
      by_cases hempty : path = []
      · -- the empty path stands for the root
        obtain hroot := hjoin.resolve_right fun hjoin => hjoin.1 hempty
        have hr' : Returns (fun fuel => fat32_resolve_path fuel st path) st.vol.bpb.root_cluster :=
          .of_forall fun fuel => by simp [fat32_resolve_path, h.mounted, hempty]
        rw [hr.unique hr', hroot, hempty]
        exact .done
      · refine h.leads.trans ?_
        have hleads := hwalk hempty (hlive.resolve_left hdots)
        rwa [start_cluster, if_neg hrel] at hleads
  exact ⟨res, chdir_returns hr hres.1, hres.2⟩

/-- Every call that meets its condition ends and keeps the current directory. -/
theorem cwdStep_ok {op : CwdOp} (h : CwdOk st) (hfits : Fits st op.toOp) (hsupply : Supplied st op.toOp)
    (hsafe : CwdSafe st op) :
    ∃ st', Returns (fun fuel => step fuel st op.toOp) st' ∧ CwdOk st' := by
  cases op with
  | chdir path =>
    obtain ⟨res, hret, hok⟩ := chdir_cwd h hfits hsafe
    exact ⟨_, hret.map Prod.snd, hok⟩
  | mkdir path =>
    obtain ⟨res, hret, hcase⟩ := h.wf.mkdir_spec hsupply h.mounted hsafe.1 hsafe.2.1
    exact ⟨_, hret.map Prod.snd, mkdir_cwd h hfits.1 hsafe hcase⟩
  | rmdir path =>
    obtain ⟨res, hret, hok⟩ := rmdir_cwd h hsafe
    exact ⟨_, hret.map Prod.snd, hok⟩

/-- Every call of a run fits the buffers, is supplied with clusters of the drive and meets its condition. -/
def CwdSafeRun : Fat32 → List CwdOp → Prop
  | _, [] => True
  | st, op :: ops => (Fits st op.toOp ∧ Supplied st op.toOp ∧ CwdSafe st op) ∧
    ∀ st', Returns (fun fuel => step fuel st op.toOp) st' → CwdSafeRun st' ops

theorem cwdRun_ok (reached later : List CwdOp) (h : CwdOk st) (hsafe : CwdSafeRun st (reached ++ later)) :
    ∃ st', Returns (fun fuel => run fuel st (reached.map CwdOp.toOp)) st' ∧ CwdOk st' := by
  induction reached generalizing st with
  | nil => exact ⟨st, .of_forall fun _ => rfl, h⟩
  | cons op ops ih =>
    obtain ⟨st₁, hret, hok⟩ := cwdStep_ok h hsafe.1.1 hsafe.1.2.1 hsafe.1.2.2
    obtain ⟨st₂, hret₂, hok₂⟩ := ih hok (hsafe.2 st₁ hret)
    exact ⟨st₂, hret.bind hret₂, hok₂⟩

theorem mount_cwd {lba_start : ℕ} {st' : Fat32} (hmount : fat32_mount st lba_start = (0, st'))
    (hwf : WellFormed st'.vol st'.disk) (hunique : UniqueNames st'.vol st'.disk) : CwdOk st' := by
  have hsound := mount_sound hmount hwf
  obtain ⟨-, hpath, hcluster, -⟩ := mount_state hmount
  refine ⟨hsound.mounted, hwf, hunique, hsound.cwd_path, ?_⟩
  rw [hpath, hcluster]
  exact .done

/-- The current-directory invariant over runs from a mount: the current path
    resolves to the current cluster, which is the root or a live directory. -/
theorem run_keeps_cwd (st st₀ : Fat32) (lba_start : ℕ) (reached later : List CwdOp)
    (hmount : fat32_mount st lba_start = (0, st₀)) (hwf : WellFormed st₀.vol st₀.disk)
    (hunique : UniqueNames st₀.vol st₀.disk) (hsafe : CwdSafeRun st₀ (reached ++ later)) :
    ∃ st', Returns (fun fuel => run fuel st₀ (reached.map CwdOp.toOp)) st' ∧
      Returns (fun fuel => fat32_resolve_path fuel st' st'.fat32_cwd_path) st'.fat32_cwd_cluster ∧
      (st'.fat32_cwd_cluster = st'.vol.bpb.root_cluster ∨
        ∃ k i, LiveEntry st'.vol st'.disk k i true st'.fat32_cwd_cluster) := by
  obtain ⟨st', hret, hok⟩ := cwdRun_ok reached later (mount_cwd hmount hwf hunique) hsafe
  exact ⟨st', hret, hok.resolve, hok.leads.target liveDir_root⟩

theorem booted_unique : UniqueNames booted_state.vol booted_state.disk :=
  fun _ _ s _ _ _ hs => absurd (booted_slots s.1 s.2) hs.2.2.1

theorem run_keeps_cwd_booted :
    fat32_mount { booted_state with mounted := false } 0 = (0, booted_state) ∧
      WellFormed booted_state.vol booted_state.disk ∧ UniqueNames booted_state.vol booted_state.disk ∧
      CwdSafeRun booted_state ([.mkdir (ascii "/A"), .chdir (ascii "/A")] ++ []) ∧
      ∃ st', Returns (fun fuel => run fuel booted_state
          ([CwdOp.mkdir (ascii "/A"), CwdOp.chdir (ascii "/A")].map CwdOp.toOp)) st' ∧
        Returns (fun fuel => fat32_resolve_path fuel st' st'.fat32_cwd_path) st'.fat32_cwd_cluster ∧
        (st'.fat32_cwd_cluster = st'.vol.bpb.root_cluster ∨
          ∃ k i, LiveEntry st'.vol st'.disk k i true st'.fat32_cwd_cluster) := by
  have hsafe : CwdSafeRun booted_state ([.mkdir (ascii "/A"), .chdir (ascii "/A")] ++ []) := by
    refine ⟨⟨And.intro (by decide) (And.intro (by decide) (by decide)), supplied_small rfl _,
      safePath_of_single (by decide) (by decide), trivial, fun _ _ _ _ _ l s _ hs => absurd (booted_slots s.1 s.2) hs.2.2.1⟩, fun st₁ hst₁ => ?_⟩
    have hrun₁ : Returns (fun fuel => run fuel booted_state [.mkdir (ascii "/A")]) st₁ := hst₁.bind (.of_forall fun _ => rfl)
    obtain ⟨hmounted, hpath, hresolve, hin, hend, hent⟩ := run_test hrun₁ 6 (fun st' => st'.mounted = true ∧
      st'.fat32_cwd_path = [slash] ∧ fat32_resolve_path 4 st' (ascii "/A") = some 3 ∧
      st'.vol.InRange st'.vol.bpb.root_cluster ∧
      get_next_cluster st'.vol st'.disk st'.vol.bpb.root_cluster = FAT32_EOC ∧
      (view st'.vol st'.disk).ent st'.vol.bpb.root_cluster 0 = some (true, 3)) (by decide +kernel)
    refine ⟨⟨⟨by decide, ?_⟩, trivial, safePath_of_single (by decide) (by decide), fun r hr _ _ => ?_⟩, fun _ _ => trivial⟩
    · rw [hpath]
      decide
    · have hr' := (fat32_resolve_path_stable st₁ (ascii "/A")).returns hresolve
      rw [hr.unique hr']
      refine ⟨.inl (by decide), .inr (LiveEntry.liveDir ⟨_, liveDir_root, ⟨_, .last hin hend, ?_⟩, hent⟩)⟩
      simp
  exact ⟨mount_boot, booted_shape.1, booted_unique, hsafe,
    run_keeps_cwd _ _ 0 _ _ mount_boot booted_shape.1 booted_unique hsafe⟩

/-- `fat32_rmdir` of the current directory leaves the driver in a directory that no
    longer exists. -/
theorem rmdir_of_cwd_dangles :
    fat32_mount { booted_state with mounted := false } 0 = (0, booted_state) ∧
      WellFormed booted_state.vol booted_state.disk ∧
      ∃ st', Returns (fun fuel => run fuel booted_state
          [.mkdir (ascii "/A"), .chdir (ascii "/A"), .rmdir (ascii "/A")]) st' ∧
        ¬ (Returns (fun fuel => fat32_resolve_path fuel st' st'.fat32_cwd_path) st'.fat32_cwd_cluster ∧
          (st'.fat32_cwd_cluster = st'.vol.bpb.root_cluster ∨
            ∃ k i, LiveEntry st'.vol st'.disk k i true st'.fat32_cwd_cluster)) := by
  refine ⟨mount_boot, booted_shape.1, ?_⟩
  obtain ⟨st', hret, hcwd, hresolve⟩ := run_returns_of_test 6 booted_state
    [.mkdir (ascii "/A"), .chdir (ascii "/A"), .rmdir (ascii "/A")]
    (fun st' => st'.fat32_cwd_cluster = 3 ∧ fat32_resolve_path 4 st' st'.fat32_cwd_path = some 0) (by decide +kernel)
  refine ⟨st', hret, fun hbad => ?_⟩
  have hzero := hbad.1.unique ((fat32_resolve_path_stable _ _).returns hresolve)
  omega

end os_dev.fat32
