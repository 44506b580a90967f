import OsDev.Fat32.Cwd
import OsDev.Fat32.Descent
import OsDev.Fat32.DirectoryMap
import OsDev.Fat32.Atomicity

open os_dev.ata os_dev.libc little_endian forest link_chain fuel

namespace os_dev.fat32

variable {v : Volume} {d d' : Disk} {st : Fat32} {p : CStr}

/-- A walk goes one level down for each component. -/
theorem Leads.depth {depth : ℕ → ℕ} (hforest : (view v d).Forest (LiveDir v d) depth) {c r : ℕ} {parts : List CStr}
    (h : Leads v d c parts r) (hc : LiveDir v d c) : depth r = depth c + parts.length := by
  induction h with
  | done => rfl
  | step hl hfound hdir hne _ ih =>
    obtain ⟨hlive, hdepth⟩ := hforest.sub (lookup_dir_lists hc hl hfound hdir hne)
    rw [ih hlive, hdepth, List.length_cons]
    omega

/-- A walk that ends where it starts has no components. -/
theorem Leads.eq_nil (hwf : WellFormed v d) {c : ℕ} {parts : List CStr} (h : Leads v d c parts c)
    (hc : LiveDir v d c) : parts = [] := by
  obtain ⟨depth, hforest⟩ := hwf.exists_forest
  have hdepth := h.depth hforest hc
  exact List.eq_nil_of_length_eq_zero (by omega)

theorem Leads.safeWalk {c r : ℕ} {parts : List CStr} (h : Leads v d c parts r) (name : CStr) :
    SafeWalk v d c (parts ++ [name]) := by
  induction h with
  | done => exact fun hrest => absurd rfl hrest
  | step hl hfound hdir hne _ ih =>
    intro _ l k j i hl' hfound'
    rw [Cells.unique hl' hl, hfound] at hfound'
    cases hfound'
    exact ⟨hdir, hne, ih⟩

theorem Leads.resolves_append {c r t : ℕ} {parts rest : List CStr} (h : Leads v d c parts r)
    (hrest : Resolves v d r rest t) : Resolves v d c (parts ++ rest) t := by
  induction h with
  | done => exact hrest
  | step hl hfound _ _ _ ih => exact .step hl hfound (ih hrest)

/-- The path leads through the directories `parts` to the directory `c`, with the
    clusters `l`, and names `name` there. -/
structure Names (st : Fat32) (p : CStr) (parts : List CStr) (name : CStr) (c : ℕ) (l : List ℕ) : Prop where
  split : components p = parts ++ [name]
  start : LiveDir st.vol st.disk (start_cluster st p)
  leads : Leads st.vol st.disk (start_cluster st p) parts c
  cells : Cells st.vol st.disk c l

/-- `fat32_open` for reading returns a handle for the entry at `(k, j, i)`. -/
def OpensEntry (st : Fat32) (p : CStr) (k j i : ℕ) : Prop :=
  ∃ (fd : Fin 8) (st' : Fat32), Returns (fun fuel => fat32_open fuel st p mode_r) (fd.val, st') ∧
    (st'.open_files fd).first_cluster = (slot st.vol st.disk k (16 * j + i)).first_cluster ∧
    (st'.open_files fd).file_size = (slot st.vol st.disk k (16 * j + i)).file_size ∧
    (st'.open_files fd).dir_cluster = k ∧ (st'.open_files fd).dir_entry_index = j * 16 + i

/-- `fat32_unlink` returns 0, and has deleted the entry at `(k, j, i)` and no other. -/
def UnlinksEntry (st : Fat32) (p : CStr) (k j i : ℕ) : Prop :=
  ∃ st', Returns (fun fuel => fat32_unlink fuel st p) (0, st') ∧
    (slot st.vol st'.disk k (16 * j + i)).name0 = 0xE5 ∧
    ∀ k' i', st.vol.InRange k' → i' < slots_per_cluster st.vol → (k', i') ≠ (k, 16 * j + i) →
      slot st.vol st'.disk k' i' = slot st.vol st.disk k' i'

/-- `fat32_open` for writing returns, and the directory `c` then holds a new entry of
    the name. -/
def CreatesIn (st : Fat32) (p : CStr) (c : ℕ) (name : CStr) : Prop :=
  ∃ rc st' l' k j i, Returns (fun fuel => fat32_open fuel st p mode_w) (rc, st') ∧ Cells st'.vol st'.disk c l' ∧
    lookup st'.vol st'.disk true l' name = some (k, j, i) ∧
    ∀ l, Cells st.vol st.disk c l → k ∈ l →
      slot st'.vol st'.disk k (16 * j + i) ≠ slot st.vol st.disk k (16 * j + i)

theorem lookup_name_congr {skip_lfn : Bool} {l : List ℕ} {a b : CStr} (h : standardize_name a = standardize_name b) :
    lookup v d skip_lfn l a = lookup v d skip_lfn l b := by
  unfold lookup
  rw [h]

theorem slot_name0 {k j i : ℕ} (hi : i < 16) :
    (slot v d k (16 * j + i)).name0 = (d (data_sector v k j)).byte (32 * i) := by
  rw [slot_eq_dir_entry hi]
  simp [dir_entry, fat32_dir_entry_t.name0, List.range_succ_eq_map]

/-- Freeing a chain, whatever it is, clears bytes and does nothing else. -/
theorem free_chain_byte {fuel c s j : ℕ} (hj : j < 512) (h : free_chain v fuel d c = some d') :
    (d' s).byte j = (d s).byte j ∨ (d' s).byte j = 0 := by
  induction fuel generalizing d c with
  | zero => cases h
  | succ fuel ih =>
    rw [free_chain] at h
    split at h
    case isFalse =>
      cases h
      exact .inl rfl
    case isTrue =>
      have hclear : (set_next_cluster v d c FAT32_FREE s).byte j = (d s).byte j ∨
          (set_next_cluster v d c FAT32_FREE s).byte j = 0 := by
        unfold set_next_cluster
        generalize u32 (v.fat_lba + u32 (c * 4) / 512) = lba
        generalize u32 (c * 4) % 512 = offset
        by_cases hholds : v.drive.Holds lba
        · rw [read_of_holds hholds, write_of_holds hholds]
          by_cases hs : s = lba
          · subst hs
            simp only [Function.update_self]
            rw [Sector.byte_ofFn hj, put32]
            split
            · exact .inr (by simp [byteOf, FAT32_FREE])
            · exact .inl rfl
          · exact .inl (congrArg (Sector.byte · j) (Function.update_of_ne hs _ _))
        · rw [write_of_not_holds hholds]
          exact .inl rfl
      rcases ih h with heq | heq
      · rw [heq]
        exact hclear
      · exact .inr heq

section Names

variable {parts : List CStr} {name : CStr} {c : ℕ} {l : List ℕ} (h : Names st p parts name c l)

include h

theorem Names.nonempty : p ≠ [] := by
  rintro rfl
  have hparts := h.split
  simp [components, path_parts] at hparts

theorem Names.live : LiveDir st.vol st.disk c := h.leads.liveDir h.start

theorem Names.safePath : SafePath st p := fun _ => ⟨h.start, h.split ▸ h.leads.safeWalk name⟩

/-- A path resolves to what the search in its directory finds. -/
theorem Names.resolve (hwf : WellFormed st.vol st.disk) (hmounted : st.mounted = true) :
    Returns (fun fuel => fat32_resolve_path fuel st p) (match lookup st.vol st.disk true l name with
      | none => 0
      | some (k, j, i) => (slot st.vol st.disk k (16 * j + i)).first_cluster) := by
  have hlast : Resolves st.vol st.disk c [name] (match lookup st.vol st.disk true l name with
      | none => 0
      | some (k, j, i) => (slot st.vol st.disk k (16 * j + i)).first_cluster) := by
    cases hfound : lookup st.vol st.disk true l name with
    | none => exact .missing h.cells hfound
    | some pos => exact .step h.cells hfound .done
  filter_upwards [(h.leads.resolves_append hlast).returns hwf.sane] with fuel hfuel
  simp [fat32_resolve_path, hmounted, h.nonempty, h.split, hfuel]

/-- The directory that `fat32_open` and `fat32_unlink` assume is the right one only
    for a path of one component. -/
theorem Names.parts_nil (hwf : WellFormed st.vol st.disk) {lg : List ℕ} {k : ℕ}
    (hlg : Cells st.vol st.disk (guessed_parent st p) lg) (hk : k ∈ l) (hkg : k ∈ lg) : parts = [] := by
  obtain ⟨depth, hforest⟩ := hwf.exists_forest
  obtain rfl := hforest.dir_unique h.live h.cells h.start hlg hk hkg
  exact h.leads.eq_nil hwf h.start

/-- When `fat32_open` returns a handle for the entry that the path resolves to. -/
theorem Names.opens_iff (hwf : WellFormed st.vol st.disk) (hmounted : st.mounted = true) {k j i : ℕ}
    (hfound : lookup st.vol st.disk true l name = some (k, j, i))
    (hne : (slot st.vol st.disk k (16 * j + i)).first_cluster ≠ 0) (hfree : free_handle st.open_files ≠ none) :
    OpensEntry st p k j i ↔ parts = [] ∧ standardize_name (base_name p) = standardize_name name ∧
      lookup st.vol st.disk false l name = some (k, j, i) := by
  obtain ⟨fd, hfd⟩ := Option.ne_none_iff_exists'.mp hfree
  obtain ⟨lg, hlg⟩ := hwf.dir_cells h.start
  obtain ⟨hk, _, hi, _, _, _, hname, hext⟩ := lookup_some hfound
  have hresolve := h.resolve hwf hmounted
  rw [hfound] at hresolve
  have hopen : Returns (fun fuel => fat32_open fuel st p mode_r)
      (opened st p (slot st.vol st.disk k (16 * j + i)).first_cluster lg) := by
    have hhandle := open_handle_returns st p hwf.sane hlg (slot st.vol st.disk k (16 * j + i)).first_cluster
    filter_upwards [hresolve, hhandle] with fuel h₁ h₂
    simp [fat32_open, h₁, hne, h₂]
  unfold opened at hopen
  rw [hfd] at hopen
  constructor
  · rintro ⟨fd', st', hret, _, _, hcluster, hindex⟩
    have heq := hopen.unique hret
    cases hguess : lookup st.vol st.disk false lg (base_name p) with
    | none =>
      rw [hguess] at heq
      have hfail := (Prod.mk.inj heq).1
      omega
    | some pos =>
      obtain ⟨k', j', i'⟩ := pos
      obtain ⟨hk', _, hi', _, _, _, hname', hext'⟩ := lookup_some hguess
      rw [hguess] at heq
      obtain ⟨hfd', rfl⟩ := Prod.mk.inj heq
      obtain rfl : fd = fd' := by omega
      simp only [Function.update_self] at hcluster hindex
      subst hcluster
      obtain ⟨rfl, rfl⟩ : j' = j ∧ i' = i := by omega
      have hparts := h.parts_nil hwf hlg hk hk'
      have hstd : standardize_name (base_name p) = standardize_name name :=
        Prod.ext (hname'.symm.trans hname) (hext'.symm.trans hext)
      refine ⟨hparts, hstd, ?_⟩
      subst hparts
      cases h.leads
      rwa [Cells.unique h.cells hlg, lookup_name_congr hstd.symm]
  · rintro ⟨rfl, hstd, hplain⟩
    cases h.leads
    rw [Cells.unique hlg h.cells, lookup_name_congr hstd, hplain] at hopen
    exact ⟨fd, _, hopen, by simp [fresh_handle], by simp, by simp, by simp⟩

/-- When `fat32_unlink` deletes the entry that a path of one component resolves to. -/
theorem Names.unlinks_iff (hwf : WellFormed st.vol st.disk) (hmounted : st.mounted = true) {k j i : ℕ}
    (hfound : lookup st.vol st.disk true l name = some (k, j, i))
    (hfile : (slot st.vol st.disk k (16 * j + i)).isDirectory = false) (hparts : parts = [])
    (hplain : lookup st.vol st.disk false l name = some (k, j, i)) :
    UnlinksEntry st p k j i ↔ standardize_name p = standardize_name name := by
  obtain ⟨hk, hj, hi, _, _, hlfn, hname, hext⟩ := lookup_some hfound
  subst hparts
  have hc : c = guessed_parent st p := by
    cases h.leads
    rfl
  have hl : Cells st.vol st.disk (guessed_parent st p) l := hc ▸ h.cells
  constructor
  · rintro ⟨st', hret, _, hother⟩
    obtain ⟨fuel, hfuel, hfind⟩ := (hret.and (hwf.sane.find_name_returns hl false p)).exists
    change fat32_unlink fuel st p = some (0, st') at hfuel
    change find_name st.vol st.disk false fuel (guessed_parent st p) p = _ at hfind
    cases hguess : lookup st.vol st.disk false l p with
    | none => simp [fat32_unlink, hmounted, hfind, hguess] at hfuel
    | some pos =>
      obtain ⟨k', j', i'⟩ := pos
      obtain ⟨hk', hj', hi', hzero, hmark, _, hname', hext'⟩ := lookup_some hguess
      have hin := hl.inRange hk'
      have hentry := found_at_entry (v := st.vol) (d := st.disk) (k := k') (j := j') hi'
      cases hdir : (slot st.vol st.disk k' (16 * j' + i')).isDirectory with
      | true => simp [fat32_unlink, hmounted, hfind, hguess, hentry, hdir] at hfuel
      | false =>
        simp only [fat32_unlink, hmounted, hfind, hguess, hentry, hdir, hwf.sane.delete_found_eq hin hj',
          Bool.true_eq_false, Bool.false_eq_true, if_false, Option.map_some, Option.bind_eq_bind, Option.bind_some,
          Option.bind_eq_some_iff] at hfuel
        obtain ⟨d₂, hfree, hst'⟩ := hfuel
        cases hst'
        -- the entry that was found has been marked, so it is the one that may change
        have hpos : (k', 16 * j' + i') = (k, 16 * j + i) := by
          by_contra hne
          have hsame := congrArg fat32_dir_entry_t.name0 (hother k' _ hin (slot_index_lt hj' hi') hne)
          have hdeleted := @slot_delete_same st.vol st.disk k' j' i' hi'
          have hbyte := free_chain_byte (s := data_sector st.vol k' j') (show 32 * i' < 512 by omega) hfree
          rw [slot_name0 hi'] at hsame hdeleted
          rw [hdeleted] at hbyte
          rw [← hsame] at hzero hmark
          exact hbyte.elim hmark hzero
        obtain ⟨rfl, hindex⟩ := Prod.mk.inj hpos
        rw [hindex] at hname' hext'
        exact Prod.ext (hname'.symm.trans hname) (hext'.symm.trans hext)
  · intro hstd
    have hguess : lookup st.vol st.disk false l p = some (k, j, i) := by
      rw [lookup_name_congr hstd]
      exact hplain
    obtain ⟨res, hret, hcase⟩ := hwf.unlink_spec hmounted h.start hl fun k' j' i' hfound' => by
      rw [hguess] at hfound'
      cases hfound'
      exact hlfn rfl
    cases hcase with
    | absent hnone =>
      rw [hguess] at hnone
      cases hnone
    | directory k' j' i' hfound' hdir =>
      rw [hguess] at hfound'
      cases hfound'
      rw [hfile] at hdir
      cases hdir
    | removed k' j' i' d' hfound' _ hremoved =>
      rw [hguess] at hfound'
      cases hfound'
      exact ⟨_, hret, hremoved.deleted, fun k' i' hk' hi' hne => hremoved.slots k' hk' i' hi' hne⟩

end Names

/-- Placing an entry inserts it into the chain of its directory. -/
theorem Placed.inserted (hwf : WellFormed v d) {c k i : ℕ} {e : fat32_dir_entry_t} {l : List ℕ}
    (h : Placed v d d' c k i e) (hc : LiveDir v d c) (hl : Cells v d c l) :
    ∃ l', Inserted v d d' c l l' k (i / 16) (i % 16) e := by
  obtain ⟨l', hl', hk⟩ := h.here
  obtain ⟨o, ho⟩ := hwf.dir_owner hc
  have huse : ∀ x ∈ l, InUse v d x := fun x hx => hwf.inUse_of_dirCluster ⟨c, l, hc, hl, hx⟩
  have hindex : 16 * (i / 16) + i % 16 = i := Nat.div_add_mod i 16
  refine ⟨l', hl', sector_of_slot h.slot_lt, Nat.mod_lt i (by omega), hindex.symm ▸ h.entry, fun i' hlt => ?_,
    fun k' hk' i' hi' hne => ?_, ?_⟩
  · exact h.front _ (by omega) (by omega)
  · rw [hindex] at hne
    exact h.slots k' (huse k' hk').inRange (fun heq => heq ▸ huse k' hk') i' hi' hne
  · rw [hindex]
    rcases h.cells o c l ho hl with hsame | ⟨hunused, hgrown⟩
    · obtain rfl := Cells.unique hl' hsame
      exact .inl ⟨rfl, hk⟩
    · exact .inr ⟨Cells.unique hl' hgrown, fun hmem => hunused (huse k hmem), h.grown hunused⟩

/-- Placing an entry changes no other directory. -/
theorem Placed.other_cells (hwf : WellFormed v d) {c c' k i : ℕ} {e : fat32_dir_entry_t} {l : List ℕ}
    (h : Placed v d d' c k i e) (hc : LiveDir v d c) (hc' : LiveDir v d c') (hne : c' ≠ c) (hl : Cells v d c' l) :
    Cells v d' c' l ∧ ∀ k' ∈ l, ∀ i' < slots_per_cluster v, slot v d' k' i' = slot v d k' i' := by
  obtain ⟨depth, hforest⟩ := h.wf.exists_forest
  obtain ⟨lk, hlk, hk⟩ := h.here
  obtain ⟨o, ho⟩ := hwf.dir_owner hc'
  have hout : ∀ {l'}, Cells v d' c' l' → k ∉ l' := fun hl' hmem =>
    hne (hforest.dir_unique ((h.dirs c').mpr (.inl hc')) hl' ((h.dirs c).mpr (.inl hc)) hlk hmem hk)
  have hl' : Cells v d' c' l := by
    rcases h.cells o c' l ho hl with hsame | ⟨_, hgrown⟩
    · exact hsame
    · exact absurd (by simp) (hout hgrown)
  refine ⟨hl', fun k' hk' i' hi' => ?_⟩
  have hkk' : k' ≠ k := fun heq => hout hl' (heq ▸ hk')
  exact h.slots k' (hl.inRange hk') (fun heq => absurd heq hkk') i' hi' fun heq => hkk' (Prod.mk.inj heq).1

theorem Placed.lookup_other (hwf : WellFormed v d) {c c' k i : ℕ} {e : fat32_dir_entry_t} {l l' : List ℕ}
    (h : Placed v d d' c k i e) (hc : LiveDir v d c) (hc' : LiveDir v d c') (hne : c' ≠ c) (hl : Cells v d c' l)
    (hl' : Cells v d' c' l') (name : CStr) : lookup v d' true l' name = lookup v d true l name := by
  obtain ⟨hsame, hslots⟩ := h.other_cells hwf hc hc' hne hl
  obtain rfl := Cells.unique hl' hsame
  refine chain_hit_scan_congr fun k' hk' i' hi' => ?_
  rw [hslots k' hk' i' hi']
  exact ⟨Iff.rfl, rfl⟩

/-- A claimed cluster is part of no directory. -/
theorem Claimed.lookup (hwf : WellFormed v d) {c y : ℕ} {l : List ℕ} (h : Claimed v d d' y) (hc : LiveDir v d c)
    (hl : Cells v d c l) (name : CStr) : lookup v d' true l name = fat32.lookup v d true l name := by
  refine chain_hit_scan_congr fun k hk i hi => ?_
  rw [h.slot hwf ⟨c, l, hc, hl, hk⟩ hi]
  exact ⟨Iff.rfl, rfl⟩

/-- With two free clusters of the drive there is room for a file and for its entry. -/
theorem not_cramped (h : 2 ≤ (spare v d).card) (c : ℕ) : ¬ Cramped v d c := by
  rintro ⟨_, honly⟩
  have hone : (spare v d).card ≤ 1 := by
    refine Finset.card_le_one.mpr fun x hx y hy => ?_
    obtain ⟨hin, hfree⟩ := mem_spare.mp hx
    obtain ⟨hin', hfree'⟩ := mem_spare.mp hy
    exact honly x y hin.1 hin.inTable hfree hin'.1 hin'.inTable hfree'
  omega

section Names

variable {parts : List CStr} {name : CStr} {c : ℕ} {l : List ℕ} (h : Names st p parts name c l)

include h

/-- What `fat32_open` for writing does with a path that names nothing. -/
theorem Names.created (hwf : WellFormed st.vol st.disk) (hmounted : st.mounted = true)
    (hmissing : lookup st.vol st.disk true l name = none) (hroom : 2 ≤ (spare st.vol st.disk).card) :
    ∃ res y d k i, Returns (fun fuel => fat32_open fuel st p mode_w) res ∧ res.2.vol = st.vol ∧
      Claimed st.vol st.disk d y ∧ Placed st.vol d res.2.disk (guessed_parent st p) k i
        (made_entry (standardize_base (base_name p)) (standardize_ext (base_name p)) FAT_ATTR_ARCHIVE y 0) := by
  have hresolve := h.resolve hwf hmounted
  rw [hmissing] at hresolve
  have hsupply : OpenSupply st p mode_w := fun _ _ => entrySupply_of_takes hwf.sane (.inl hroom) _
  obtain ⟨res, hret, hcase⟩ := hwf.open_spec hsupply hmounted h.safePath h.start
  cases hcase with
  | existing r l' hr hne => exact absurd (hr.unique hresolve) hne
  | absent _ hwhy =>
    exact (hwhy.elim (fun hmode => hmode rfl) (hwf.sane.find_free_of_spare (by omega)).1).elim
  | leaked _ _ _ _ _ _ _ hcramped => exact absurd hcramped (not_cramped hroom _)
  | created y d d' k i l' _ _ _ _ _ hclaimed hplaced _ _ =>
    obtain ⟨hvol, hdisk, _⟩ := opened_fields { st with disk := d' } p y l'
    refine ⟨_, y, d, k, i, hret, hvol, hclaimed, ?_⟩
    rw [hdisk]
    exact hplaced

/-- When `fat32_open` creates a missing file in the directory that the path leads to. -/
theorem Names.creates_iff (hwf : WellFormed st.vol st.disk) (hmounted : st.mounted = true) (hzero : 0 ∉ p)
    (hmissing : lookup st.vol st.disk true l name = none) (hroom : 2 ≤ (spare st.vol st.disk).card) :
    CreatesIn st p c name ↔ parts = [] ∧ standardize_name (base_name p) = standardize_name name ∧
      name.head? ≠ some 0xE5 := by
  obtain ⟨⟨rc, st'⟩, y, d, k, i, hret, hvol, hclaimed, hplaced⟩ := h.created hwf hmounted hmissing hroom
  have hkeep := hclaimed.keeps hwf
  obtain ⟨hwf₁, hdirs⟩ := hkeep.shape hwf
  have hlive₁ : LiveDir st.vol d c := (hdirs c).mpr h.live
  have hl₁ : Cells st.vol d c l := (hkeep.dir_cells hwf h.live).mpr h.cells
  have hbefore : lookup st.vol d true l name = none := (hclaimed.lookup hwf h.live h.cells name).trans hmissing
  have hslot : ∀ k' ∈ l, ∀ i' < slots_per_cluster st.vol, slot st.vol d k' i' = slot st.vol st.disk k' i' :=
    fun k' hk' i' hi' => hclaimed.slot hwf ⟨c, l, h.live, h.cells, hk'⟩ hi'
  simp only at hvol hplaced
  constructor
  · rintro ⟨rc', st'', l', k', j', i', hret', hl', hfound, hnew⟩
    cases hret.unique hret'
    rw [hvol] at hl' hfound hnew
    by_cases hc : c = guessed_parent st p
    case neg =>
      rw [hplaced.lookup_other hwf₁ ((hdirs _).mpr h.start) hlive₁ hc hl₁ hl', hbefore] at hfound
      cases hfound
    have hparts : parts = [] := by
      have hleads := h.leads
      rw [hc] at hleads
      exact hleads.eq_nil hwf h.start
    rw [← hc] at hplaced
    obtain ⟨l'', hins⟩ := hplaced.inserted hwf₁ hlive₁ hl₁
    obtain rfl := Cells.unique hins.cells hl'
    obtain ⟨hk', hj', hi', hused, hmark, _, hname, hext⟩ := lookup_some hfound
    have hlt := slot_index_lt hj' hi'
    have hold : k' ∈ l → (k', 16 * j' + i') = (k, 16 * (i / 16) + i % 16) := by
      intro hmem
      by_contra hne
      exact hnew l h.cells hmem ((hins.slots k' hmem _ hlt hne).trans (hslot k' hmem _ hlt))
    have hpos : (k', 16 * j' + i') = (k, 16 * (i / 16) + i % 16) := by
      rcases hins.chain with ⟨rfl, _⟩ | ⟨rfl, _, hends⟩
      · exact hold hk'
      · rcases List.mem_append.mp hk' with hmem | hmem
        · exact hold hmem
        · obtain rfl := List.mem_singleton.mp hmem
          by_contra hne
          exact hused (hends _ hlt fun heq => hne (by rw [heq]))
    obtain ⟨rfl, hindex⟩ := Prod.mk.inj hpos
    rw [hindex, hins.entry] at hname hext hmark
    refine ⟨hparts, Prod.ext hname hext, fun hhead => hmark ?_⟩
    change (standardize_base (base_name p)).headD 0 = 0xE5
    rw [show standardize_base (base_name p) = standardize_base name from hname]
    exact (standardize_base_head name (.inr (by decide)) (by decide) (by decide)).mpr hhead
  · rintro ⟨hparts, hstd, hhead⟩
    subst hparts
    have hc : c = guessed_parent st p := by
      cases h.leads
      rfl
    rw [← hc] at hplaced
    obtain ⟨l', hins⟩ := hplaced.inserted hwf₁ hlive₁ hl₁
    have hbase : standardize_base (base_name p) = standardize_base name := (Prod.mk.inj hstd).1
    have hmatch : matches_name true (standardize_name name)
        (made_entry (standardize_base (base_name p)) (standardize_ext (base_name p)) FAT_ATTR_ARCHIVE y 0) = true := by
      refine matches_name_iff.mpr ⟨fun heq => hhead ?_, fun _ => show FAT_ATTR_ARCHIVE ≠ FAT_ATTR_LFN by decide,
        hbase, (Prod.mk.inj hstd).2⟩
      change (standardize_base (base_name p)).headD 0 = 0xE5 at heq
      rw [hbase] at heq
      exact (standardize_base_head name (.inr (by decide)) (by decide) (by decide)).mp heq
    have hname0 := standardize_base_ne_zero (base_name_no_zero hzero)
    have hfound : lookup st.vol st'.disk true l' name = some (k, i / 16, i % 16) := by
      refine (hins.chain_hit hmatch hname0).resolve_left fun heq => ?_
      exact hins.chain_hit_ne_none hmatch hname0 (heq.trans hbefore)
    refine ⟨rc, st', l', k, i / 16, i % 16, hret, hvol ▸ hins.cells, hvol ▸ hfound, fun l₀ hl₀ hk heq => ?_⟩
    rw [Cells.unique hl₀ h.cells] at hk
    rw [hvol] at heq
    -- had the slot held this entry before, the name would have been found
    have hsame : lookup st.vol st'.disk true l name = lookup st.vol d true l name := by
      refine chain_hit_scan_congr fun k' hk' i' hi' => ?_
      have hslots : slot st.vol st'.disk k' i' = slot st.vol d k' i' := by
        by_cases hpos : (k', i') = (k, 16 * (i / 16) + i % 16)
        · obtain ⟨rfl, rfl⟩ := Prod.mk.inj hpos
          exact heq.trans (hslot k' hk _ hi').symm
        · exact hins.slots k' hk' i' hi' hpos
      rw [hslots]
      exact ⟨Iff.rfl, rfl⟩
    rcases hins.chain with ⟨rfl, _⟩ | ⟨_, hout, _⟩
    · rw [hsame, hbefore] at hfound
      cases hfound
    · exact hout hk

end Names

/-- Resolving, opening, unlinking and creating agree on a path exactly if it has one
    component whose 8.3 form is also that of the text behind the last slash and, for
    `fat32_unlink`, of the path as a whole. -/
theorem path_agreement_iff (st : Fat32) (p : CStr) (parts : List CStr) (name : CStr) (c : ℕ) (l : List ℕ)
    (hmounted : st.mounted = true) (hwf : WellFormed st.vol st.disk) (hzero : 0 ∉ p) (h : Names st p parts name c l) :
    (∀ k j i, lookup st.vol st.disk true l name = some (k, j, i) →
      (slot st.vol st.disk k (16 * j + i)).isDirectory = false →
      (slot st.vol st.disk k (16 * j + i)).first_cluster ≠ 0 → free_handle st.open_files ≠ none →
      (OpensEntry st p k j i ∧ UnlinksEntry st p k j i ↔
        parts = [] ∧ standardize_name (base_name p) = standardize_name name ∧
          standardize_name p = standardize_name name ∧ lookup st.vol st.disk false l name = some (k, j, i))) ∧
    (lookup st.vol st.disk true l name = none → 2 ≤ (spare st.vol st.disk).card →
      (CreatesIn st p c name ↔ parts = [] ∧ standardize_name (base_name p) = standardize_name name ∧
        name.head? ≠ some 0xE5)) := by
  refine ⟨fun k j i hfound hfile hne hfree => ?_, h.creates_iff hwf hmounted hzero⟩
  have hopens := h.opens_iff hwf hmounted hfound hne hfree
  constructor
  · rintro ⟨hopen, hunlink⟩
    obtain ⟨hparts, hbase, hplain⟩ := hopens.mp hopen
    exact ⟨hparts, hbase, (h.unlinks_iff hwf hmounted hfound hfile hparts hplain).mp hunlink, hplain⟩
  · rintro ⟨hparts, hbase, hwhole, hplain⟩
    exact ⟨hopens.mpr ⟨hparts, hbase, hplain⟩, (h.unlinks_iff hwf hmounted hfound hfile hparts hplain).mpr hwhole⟩

theorem small_names : Names small_state (ascii "A") [] (ascii "A") 2 [2] where
  split := by decide
  start := liveDir_root
  leads := .done
  cells := blank_root_cells small_volume_sane small_root_inRange

/-- In the root of an empty volume a file is created under its own name, and then opened and deleted under it. -/
theorem path_agreement_small :
    CreatesIn small_state (ascii "A") 2 (ascii "A") ∧
      ∃ st₁, Returns (fun fuel => run fuel small_state [.open (ascii "A") mode_w, .close 0]) st₁ ∧
        OpensEntry st₁ (ascii "A") 2 0 0 ∧ UnlinksEntry st₁ (ascii "A") 2 0 0 := by
  have hmissing : lookup small_state.vol small_state.disk true [2] (ascii "A") = none := by
    cases hfound : lookup small_state.vol small_state.disk true [2] (ascii "A") with
    | none => rfl
    | some pos => exact absurd (blank_slots small_volume_sane small_root_inRange _ _) (lookup_some hfound).2.2.2.1
  refine ⟨((path_agreement_iff small_state (ascii "A") [] (ascii "A") 2 [2] rfl
    (blank_shape small_volume_sane small_root_inRange).1 (by decide) small_names).2 hmissing small_free).mpr
      ⟨rfl, by decide, by decide⟩, ?_⟩
  have hsafe : SafeRun small_state [.open (ascii "A") mode_w, .close 0] := by
    refine ⟨⟨And.intro (by decide) (by decide), supplied_small rfl _, small_names.safePath, liveDir_root,
      fun hparts => absurd hparts (by decide)⟩, fun _ _ => ⟨⟨trivial, trivial, trivial⟩, fun _ _ => trivial⟩⟩
  obtain ⟨st₁, hret, hsound⟩ := run_sound _ small_state_sound hsafe
  obtain ⟨hroot, hcwd, hin, hend, hfound, hplain, hfile, hne, hfree⟩ := run_test hret 6 (fun st' =>
    st'.vol.bpb.root_cluster = 2 ∧ st'.fat32_cwd_cluster = 2 ∧ st'.vol.InRange 2 ∧
      get_next_cluster st'.vol st'.disk 2 = FAT32_EOC ∧
      lookup st'.vol st'.disk true [2] (ascii "A") = some (2, 0, 0) ∧
      lookup st'.vol st'.disk false [2] (ascii "A") = some (2, 0, 0) ∧
      (slot st'.vol st'.disk 2 0).isDirectory = false ∧ (slot st'.vol st'.disk 2 0).first_cluster ≠ 0 ∧
      free_handle st'.open_files ≠ none) (by decide +kernel)
  have hstart : start_cluster st₁ (ascii "A") = 2 := hcwd
  have hnames : Names st₁ (ascii "A") [] (ascii "A") 2 [2] := by
    refine ⟨by decide, ?_, ?_, .last hin hend⟩
    · rw [hstart, ← hroot]
      exact liveDir_root
    · rw [hstart]
      exact .done
  exact ⟨st₁, hret, ((path_agreement_iff st₁ (ascii "A") [] (ascii "A") 2 [2] hsound.mounted hsound.wf (by decide)
    hnames).1 2 0 0 hfound hfile hne hfree).mpr ⟨rfl, by decide, by decide, hplain⟩⟩

/-- A file that is to be created in the directory `D` is created in the root. -/
theorem open_creates_in_root :
    ∃ st₁ st₂, Returns (fun fuel => fat32_mkdir fuel small_state (ascii "/D")) (0, st₁) ∧ st₁.mounted = true ∧
      WellFormed st₁.vol st₁.disk ∧ Names st₁ (ascii "/D/F") [ascii "D"] (ascii "F") 3 [3] ∧
      lookup st₁.vol st₁.disk true [3] (ascii "F") = none ∧
      Returns (fun fuel => fat32_open fuel st₁ (ascii "/D/F") mode_w) (0, st₂) ∧
      Returns (fun fuel => fat32_resolve_path fuel st₂ (ascii "/F")) 4 ∧
      ¬ CreatesIn st₁ (ascii "/D/F") 3 (ascii "F") := by
  obtain ⟨⟨rc, st₁⟩, hmkdir, htest⟩ := Option.map_eq_some_iff.mp
    (show (fat32_mkdir 4 small_state (ascii "/D")).map (fun res => decide (res.1 = 0 ∧ res.2.mounted = true ∧
      res.2.vol.InRange res.2.vol.bpb.root_cluster ∧ res.2.vol.InRange 3 ∧
      get_next_cluster res.2.vol res.2.disk res.2.vol.bpb.root_cluster = FAT32_EOC ∧
      get_next_cluster res.2.vol res.2.disk 3 = FAT32_EOC ∧
      lookup res.2.vol res.2.disk true [res.2.vol.bpb.root_cluster] (ascii "D") =
        some (res.2.vol.bpb.root_cluster, 0, 0) ∧
      (slot res.2.vol res.2.disk res.2.vol.bpb.root_cluster 0).isDirectory = true ∧
      (slot res.2.vol res.2.disk res.2.vol.bpb.root_cluster 0).first_cluster = 3 ∧
      lookup res.2.vol res.2.disk true [3] (ascii "F") = none ∧
      (fat32_open 6 res.2 (ascii "/D/F") mode_w).map (fun res' => decide (res'.1 = 0 ∧
        res'.2.vol.InRange 3 ∧ get_next_cluster res'.2.vol res'.2.disk 3 = FAT32_EOC ∧
        lookup res'.2.vol res'.2.disk true [3] (ascii "F") = none ∧
        fat32_resolve_path 6 res'.2 (ascii "/F") = some 4)) = some true)) = some true by decide +kernel)
  obtain ⟨rfl, hmounted, hroot, hin, hend, hend', hfound, hdir, hfc, hnone, hopen⟩ := of_decide_eq_true htest
  obtain ⟨⟨rc', st₂⟩, hopen, htest'⟩ := Option.map_eq_some_iff.mp hopen
  obtain ⟨rfl, hin₂, hend₂, hnone₂, hresolve⟩ := of_decide_eq_true htest'
  have hret := (fat32_mkdir_stable small_state (ascii "/D")).returns hmkdir
  have hret₂ := (fat32_open_stable st₁ (ascii "/D/F") mode_w).returns hopen
  have hwf : WellFormed st₁.vol st₁.disk := by
    obtain ⟨res, hres, hcase⟩ : ∃ res, Returns (fun fuel => fat32_mkdir fuel small_state (ascii "/D")) res ∧
        MkdirCase small_state (ascii "/D") res :=
      (blank_shape small_volume_sane small_root_inRange).1.mkdir_spec (supplied_small rfl (.mkdir (ascii "/D"))) rfl
        (safePath_of_single (by decide) (by decide)) trivial
    have heq := hres.unique hret
    cases hcase with
    | refused => cases heq
    | leaked => cases heq
    | made _ _ _ _ _ _ _ _ _ _ _ _ _ _ hplaced =>
      cases heq
      exact hplaced.wf
  have hleads : Leads st₁.vol st₁.disk st₁.vol.bpb.root_cluster [ascii "D"] 3 := by
    refine .step (.last hroot hend) hfound hdir (by rw [hfc]; decide) ?_
    rw [hfc]
    exact .done
  refine ⟨st₁, st₂, hret, hmounted, hwf, ⟨by decide, liveDir_root, hleads, .last hin hend'⟩, hnone, hret₂,
    (fat32_resolve_path_stable st₂ _).returns hresolve, ?_⟩
  rintro ⟨rc, st', l', k, j, i, hret', hl', hfound', _⟩
  cases hret₂.unique hret'
  rw [Cells.unique hl' (.last hin₂ hend₂), hnone₂] at hfound'
  cases hfound'

end os_dev.fat32
