import OsDev.Fat32.Creation

open os_dev.ata os_dev.libc little_endian forest link_chain fuel

namespace os_dev.fat32

variable {v : Volume} {d d' : Disk}

/-- Folding letters to upper case yields no other byte than the folded letters. -/
theorem to_upper_eq_iff {c b : UInt8} (hb : b < 0x41 ∨ 0x7A < b) : to_upper c = b ↔ c = b := by
  have hb' : b.toNat < 0x41 ∨ 0x7A < b.toNat := hb.imp UInt8.lt_iff_toNat_lt.mp UInt8.lt_iff_toNat_lt.mp
  unfold to_upper
  split
  case isTrue hrange =>
    have hlo := UInt8.le_iff_toNat_le.mp hrange.1
    have hhi := UInt8.le_iff_toNat_le.mp hrange.2
    simp only [UInt8.toNat_ofNat] at hlo hhi
    constructor
    · intro heq
      have hval := congrArg UInt8.toNat heq
      rw [UInt8.toNat_sub_of_le _ _ (UInt8.le_iff_toNat_le.mpr (by simp; omega))] at hval
      simp at hval
      omega
    · rintro rfl
      omega
  case isFalse => exact Iff.rfl

/-- The first byte of the 8.3 form of a name. -/
theorem standardize_base_head (name : CStr) {b : UInt8} (hb : b < 0x41 ∨ 0x7A < b) (hspace : b ≠ space)
    (hdot : b ≠ dot) : (standardize_base name).headD 0 = b ↔ name.head? = some b := by
  unfold standardize_base pad
  cases name with
  | nil => simp [hspace.symm]
  | cons c cs =>
    by_cases hc : c = dot
    · simp [hc, hspace.symm, hdot.symm]
    · simp [hc, to_upper_eq_iff hb]

/-- The 8.3 form of a name never looks like a dot entry. -/
theorem standardize_base_ne_dot (name : CStr) : (standardize_base name).headD 0 ≠ dot := by
  unfold standardize_base pad
  cases name with
  | nil => simp [space, dot]
  | cons c cs =>
    by_cases hc : c = dot
    · simp [hc, space, dot]
    · simp [hc, to_upper_eq_iff (b := dot) (.inl (by decide))]

theorem standardize_base_ne_zero {name : CStr} (h : 0 ∉ name) : (standardize_base name).headD 0 ≠ 0 := by
  rw [ne_eq, standardize_base_head name (.inl (by decide)) (by decide) (by decide)]
  exact fun hhead => h (List.mem_of_mem_head? hhead)

theorem standardize_base_ne_deleted {name : CStr} (h : name.head? ≠ some 0xE5) : (standardize_base name).headD 0 ≠ 0xE5 := by
  rwa [ne_eq, standardize_base_head name (.inr (by decide)) (by decide) (by decide)]

/-- An entry that a name search finds is live, unless it is a long-name part. -/
theorem lookup_isLive {skip_lfn : Bool} {l : List ℕ} {name : CStr} {k j i : ℕ}
    (h : lookup v d skip_lfn l name = some (k, j, i))
    (hlfn : (slot v d k (16 * j + i)).attributes ≠ FAT_ATTR_LFN) :
    (slot v d k (16 * j + i)).isLive = true := by
  obtain ⟨_, _, _, hzero, hdeleted, _, hname, _⟩ := lookup_some h
  have hdot : (slot v d k (16 * j + i)).name0 ≠ dot := by
    unfold fat32_dir_entry_t.name0
    rw [hname]
    exact standardize_base_ne_dot name
  simp [fat32_dir_entry_t.isLive, hzero, hdeleted, hdot, hlfn]

/-- What a search in a live directory found, listed there. -/
theorem lookup_lists {skip_lfn : Bool} {c : ℕ} {l : List ℕ} {name : CStr} {k j i : ℕ} (hc : LiveDir v d c)
    (hl : Cells v d c l) (h : lookup v d skip_lfn l name = some (k, j, i))
    (hlfn : (slot v d k (16 * j + i)).attributes ≠ FAT_ATTR_LFN)
    (hne : (slot v d k (16 * j + i)).first_cluster ≠ 0) :
    Lists v d c k (16 * j + i) (slot v d k (16 * j + i)).isDirectory (slot v d k (16 * j + i)).first_cluster := by
  obtain ⟨hk, hj, hi, _⟩ := lookup_some h
  exact live_lists hc hl hk (slot_index_lt hj hi) (lookup_isLive h hlfn) hne

/-- The walk of `fat32_resolve_path` from the directory chain at `c`, with its result. -/
inductive Resolves (v : Volume) (d : Disk) : ℕ → List CStr → ℕ → Prop where
  | done {c : ℕ} : Resolves v d c [] c
  | missing {c : ℕ} {l : List ℕ} {part : CStr} {rest : List CStr} (hl : Cells v d c l)
      (hnone : lookup v d true l part = none) : Resolves v d c (part :: rest) 0
  | step {c r : ℕ} {l : List ℕ} {part : CStr} {rest : List CStr} {k j i : ℕ} (hl : Cells v d c l)
      (hfound : lookup v d true l part = some (k, j, i))
      (tail : Resolves v d (slot v d k (16 * j + i)).first_cluster rest r) : Resolves v d c (part :: rest) r

theorem Volume.Sane.find_name_returns (hv : v.Sane) {c : ℕ} {l : List ℕ} (hl : Cells v d c l)
    (skip_lfn : Bool) (name : CStr) :
    Returns (fun fuel => find_name v d skip_lfn fuel c name) ((lookup v d skip_lfn l name).map (found_at v d)) :=
  .of_gt l.length fun _ hfuel => hv.find_name_eq hl hfuel skip_lfn name

/-- A walk along chains ends. -/
theorem Resolves.returns (hv : v.Sane) {c r : ℕ} {parts : List CStr} (h : Resolves v d c parts r) :
    Returns (fun fuel => resolve_parts v d fuel c parts) r := by
  induction h with
  | done => exact .of_forall fun _ => rfl
  | @missing c l part rest hl hnone =>
    filter_upwards [hv.find_name_returns hl true part] with fuel hfind
    simp [resolve_parts, hfind, hnone]
  | @step c r l part rest k j i hl hfound tail ih =>
    filter_upwards [hv.find_name_returns hl true part, ih] with fuel hfind hrest
    have hentry := found_at_entry (v := v) (d := d) (k := k) (j := j) (lookup_some hfound).2.2.1
    simp [resolve_parts, hfind, hfound, hentry, hrest]

theorem Resolves.unique {c r r' : ℕ} {parts : List CStr} (h : Resolves v d c parts r)
    (h' : Resolves v d c parts r') : r = r' := by
  induction h with
  | done =>
    cases h'
    rfl
  | missing hl hnone =>
    cases h' with
    | missing => rfl
    | step hl' hfound =>
      rw [Cells.unique hl hl', hfound] at hnone
      cases hnone
  | step hl hfound tail ih =>
    cases h' with
    | missing hl' hnone =>
      rw [Cells.unique hl' hl, hfound] at hnone
      cases hnone
    | step hl' hfound' tail' =>
      rw [Cells.unique hl' hl, hfound] at hfound'
      cases hfound'
      exact ih tail'

/-- Every component but the last that is found on the walk is a directory with
    clusters of its own. -/
def SafeWalk (v : Volume) (d : Disk) : ℕ → List CStr → Prop
  | _, [] => True
  | c, part :: rest => rest ≠ [] → ∀ l k j i, Cells v d c l → lookup v d true l part = some (k, j, i) →
    (slot v d k (16 * j + i)).isDirectory = true ∧ (slot v d k (16 * j + i)).first_cluster ≠ 0 ∧
      SafeWalk v d (slot v d k (16 * j + i)).first_cluster rest

/-- What a walk from a live directory leads to. -/
inductive Target (v : Volume) (d : Disk) (c : ℕ) (parts : List CStr) (r : ℕ) : Prop where
  | start (hparts : parts = []) (hr : r = c)
  | nothing (hparts : parts ≠ []) (hr : r = 0)
  | entry (hparts : parts ≠ []) (p k i : ℕ) (isDir : Bool) (hlists : Lists v d p k i isDir r)

theorem WellFormed.resolves (h : WellFormed v d) {c : ℕ} {parts : List CStr} (hc : LiveDir v d c)
    (hsafe : SafeWalk v d c parts) : ∃ r, Resolves v d c parts r ∧ Target v d c parts r := by
  induction parts generalizing c with
  | nil => exact ⟨c, .done, .start rfl rfl⟩
  | cons part rest ih =>
    obtain ⟨l, hl⟩ := h.dir_cells hc
    cases hfound : lookup v d true l part with
    | none => exact ⟨0, .missing hl hfound, .nothing (by simp) rfl⟩
    | some pos =>
      obtain ⟨k, j, i⟩ := pos
      have hlfn := (lookup_some hfound).2.2.2.2.2.1 rfl
      by_cases hrest : rest = []
      · subst hrest
        refine ⟨_, .step hl hfound .done, ?_⟩
        by_cases hne : (slot v d k (16 * j + i)).first_cluster = 0
        · exact .nothing (by simp) hne
        · exact .entry (by simp) _ _ _ _ (lookup_lists hc hl hfound hlfn hne)
      · obtain ⟨hdir, hne, hwalk⟩ := hsafe hrest l k j i hl hfound
        have hlists := lookup_lists hc hl hfound hlfn hne
        rw [hdir] at hlists
        obtain ⟨r, hresolves, htarget⟩ := ih (LiveEntry.liveDir ⟨c, hlists⟩) hwalk
        refine ⟨r, .step hl hfound hresolves, ?_⟩
        cases htarget with
        | start hparts => exact absurd hparts hrest
        | nothing _ hr => exact .nothing (by simp) hr
        | entry _ p k' i' isDir hlists' => exact .entry (by simp) p k' i' isDir hlists'

/-- A path can be followed: its walk starts in a live directory and passes
    through directories only. -/
def SafePath (st : Fat32) (path : CStr) : Prop :=
  path ≠ [] → LiveDir st.vol st.disk (start_cluster st path) ∧
    SafeWalk st.vol st.disk (start_cluster st path) (components path)

theorem components_eq_nil {path : CStr} : components path = [] ↔ path = [] ∨ path = [slash] := by
  unfold components
  rw [path_parts_eq_nil]
  cases path with
  | nil => simp
  | cons c cs =>
    by_cases hc : c = slash
    · simp [hc]
    · simp [hc]

/-- A path that can be followed resolves, to what its walk leads to. -/
theorem WellFormed.resolve_path {st : Fat32} (h : WellFormed st.vol st.disk) (hmounted : st.mounted = true)
    {path : CStr} (hsafe : SafePath st path) :
    ∃ r, Returns (fun fuel => fat32_resolve_path fuel st path) r ∧
      Target st.vol st.disk st.vol.bpb.root_cluster (components path) r := by
  by_cases hpath : path = []
  · subst hpath
    exact ⟨_, .of_forall fun fuel => by simp [fat32_resolve_path, hmounted], .start rfl rfl⟩
  · obtain ⟨hstart, hwalk⟩ := hsafe hpath
    obtain ⟨r, hresolves, htarget⟩ := h.resolves hstart hwalk
    refine ⟨r, (hresolves.returns h.sane).congr fun fuel hfuel => ?_, ?_⟩
    · simp [fat32_resolve_path, hmounted, hpath, hfuel]
    · cases htarget with
      | start hparts hr =>
        obtain rfl := (components_eq_nil.mp hparts).resolve_left hpath
        exact .start rfl hr
      | nothing hparts hr => exact .nothing hparts hr
      | entry hparts p k i isDir hlists => exact .entry hparts p k i isDir hlists

section Component

variable {st : Fat32} {n : CStr} (hslash : slash ∉ n)

include hslash

theorem head_of_no_slash : n.head? ≠ some slash := fun hhead => hslash (List.mem_of_mem_head? hhead)

/-- A name without slashes is searched for in the current directory. -/
theorem start_cluster_of_no_slash : start_cluster st n = st.fat32_cwd_cluster := if_neg (head_of_no_slash hslash)

theorem components_of_no_slash (hne : n ≠ []) : components n = [n] := by
  rw [components, if_neg (head_of_no_slash hslash)]
  exact path_parts_single hslash hne

/-- A name of one component resolves to the entry that the search finds. -/
theorem resolve_component (hv : st.vol.Sane) (hmounted : st.mounted = true) (hne : n ≠ []) {l : List ℕ}
    (hl : Cells st.vol st.disk st.fat32_cwd_cluster l) :
    Returns (fun fuel => fat32_resolve_path fuel st n) (match lookup st.vol st.disk true l n with
      | none => 0
      | some (k, j, i) => (slot st.vol st.disk k (16 * j + i)).first_cluster) := by
  have hresolves : Resolves st.vol st.disk st.fat32_cwd_cluster [n] (match lookup st.vol st.disk true l n with
      | none => 0
      | some (k, j, i) => (slot st.vol st.disk k (16 * j + i)).first_cluster) := by
    cases hfound : lookup st.vol st.disk true l n with
    | none => exact .missing hl hfound
    | some pos => exact .step hl hfound .done
  filter_upwards [hresolves.returns hv] with fuel hfuel
  simp [fat32_resolve_path, hmounted, hne, start_cluster_of_no_slash hslash, components_of_no_slash hslash hne, hfuel]

end Component

end os_dev.fat32
