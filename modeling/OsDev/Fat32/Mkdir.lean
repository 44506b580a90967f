import OsDev.Fat32.Rmdir
import OsDev.Fat32.Scanners
import OsDev.Fat32.SlotList

open os_dev.ata os_dev.libc little_endian forest link_chain fuel

namespace os_dev.fat32

variable {v : Volume} {d d₁ d' : Disk} {st : Fat32} {p name : CStr} {parts : List CStr} {c y : ℕ} {l : List ℕ}

/-- The path has no empty component, in particular no doubled and no trailing slash. -/
structure NoEmptyComponent (p : CStr) : Prop where
  parts : [] ∉ components p
  last : p.getLast? ≠ some slash

theorem NoEmptyComponent.ne_slash (h : NoEmptyComponent p) : p ≠ [slash] := by
  rintro rfl
  exact h.last rfl

/-- The parent and the name that `fat32_mkdir` takes from such a path are those of its walk. -/
theorem Names.parent_and_name (hn : Names st p parts name c l) (hwf : WellFormed st.vol st.disk) (hmounted : st.mounted = true)
    (hp : NoEmptyComponent p) : ∃ leading, Returns (fun fuel => parent_and_name fuel st p) (c, name, leading) := by
  cases hsplit : split_last_slash p with
  | none =>
    have hslash := split_last_slash_eq_none.mp hsplit
    have hparts := hn.split
    rw [components_of_no_slash hslash hn.nonempty] at hparts
    obtain ⟨rfl, hname⟩ := List.append_inj' (show [] ++ [p] = parts ++ [name] from hparts) rfl
    obtain rfl := List.singleton_inj.mp hname
    obtain rfl : st.fat32_cwd_cluster = c := by
      have hleads := hn.leads
      rw [start_cluster_of_no_slash hslash] at hleads
      cases hleads
      rfl
    refine ⟨false, .of_forall fun fuel => ?_⟩
    simp [fat32.parent_and_name, hsplit]
  | some pair =>
    obtain ⟨front, back⟩ := pair
    have hparts := hn.split
    rcases components_split hsplit hp.ne_slash with heq | heq | ⟨rfl, -⟩
    · obtain ⟨rfl, hback⟩ := List.append_inj' (hparts.symm.trans heq) rfl
      obtain rfl := List.singleton_inj.mp hback
      exact parent_and_name_of_leads hwf hmounted hsplit hn.leads
    · exact absurd (heq ▸ by simp) hp.parts
    · obtain ⟨rfl, -⟩ := split_last_slash_some hsplit
      exact absurd (by simp) hp.last

/-- Whatever a search finds in a live directory of the first device, it finds on the second. -/
def KeepsEntries (v : Volume) (d d' : Disk) : Prop :=
  ∀ c l part k j i, LiveDir v d c → Cells v d c l → lookup v d true l part = some (k, j, i) →
    ∃ l', Cells v d' c l' ∧ lookup v d' true l' part = some (k, j, i) ∧ slot v d' k (16 * j + i) = slot v d k (16 * j + i)

/-- A walk through directories that ends somewhere is kept. -/
theorem KeepsEntries.resolves (h : KeepsEntries v d d') {r : ℕ} (hr : r ≠ 0) (hresolves : Resolves v d c parts r)
    (hc : LiveDir v d c) (hsafe : SafeWalk v d c parts) : Resolves v d' c parts r := by
  induction hresolves with
  | done => exact .done
  | missing => exact absurd rfl hr
  | @step c r l part rest k j i hl hfound tail ih =>
    obtain ⟨l', hl', hfound', hslot⟩ := h c l part k j i hc hl hfound
    refine .step hl' hfound' ?_
    rw [hslot]
    by_cases hrest : rest = []
    · subst hrest
      cases tail
      exact .done
    · obtain ⟨hdir, hne, hwalk⟩ := hsafe hrest l k j i hl hfound
      exact ih hr (LiveEntry.liveDir ⟨c, lookup_dir_lists hc hl hfound hdir hne⟩) hwalk

theorem KeepsEntries.leads (h : KeepsEntries v d d') {r : ℕ} (hleads : Leads v d c parts r) (hc : LiveDir v d c) :
    Leads v d' c parts r := by
  induction hleads with
  | done => exact .done
  | @step c r l part rest k j i hl hfound hdir hne tail ih =>
    obtain ⟨l', hl', hfound', hslot⟩ := h c l part k j i hc hl hfound
    refine .step hl' hfound' (hslot ▸ hdir) (hslot ▸ hne) ?_
    rw [hslot]
    exact ih (LiveEntry.liveDir ⟨c, lookup_dir_lists hc hl hfound hdir hne⟩)

/-- Then every path through directories that resolved to a cluster resolves to the same. -/
theorem KeepsEntries.resolve_path (h : KeepsEntries st.vol st.disk d') (hwf : WellFormed st.vol st.disk)
    (hmounted : st.mounted = true) {q : CStr} {r : ℕ} (hsafe : SafePath st q) (hr : r ≠ 0)
    (hret : Returns (fun fuel => fat32_resolve_path fuel st q) r) :
    Returns (fun fuel => fat32_resolve_path fuel { st with disk := d' } q) r := by
  by_cases hq : q = []
  · subst hq
    filter_upwards [hret] with fuel hfuel
    simpa [fat32_resolve_path, hmounted] using hfuel
  · obtain ⟨hstart, hwalk⟩ := hsafe hq
    obtain ⟨r', hresolves, -⟩ := hwf.resolves hstart hwalk
    obtain rfl : r' = r := by
      refine Returns.unique ((hresolves.returns hwf.sane).congr fun fuel hfuel => ?_) hret
      simp [fat32_resolve_path, hmounted, hq, hfuel]
    filter_upwards [(h.resolves hr hresolves hstart hwalk).returns hwf.sane] with fuel hfuel
    simpa [fat32_resolve_path, hmounted, hq, start_cluster] using hfuel

/-- The entry that `fat32_mkdir` writes for the directory `y`. -/
def directory_entry (name : CStr) (y : ℕ) : fat32_dir_entry_t :=
  made_entry (standardize_base name) (standardize_ext name) FAT_ATTR_DIRECTORY y 0

theorem directory_entry_first_cluster (hy : v.InRange y) : (directory_entry name y).first_cluster = y :=
  made_entry_first_cluster (by have := hy.lt_eoc; omega)

theorem made_entry_occupied {base ext : List UInt8} {attr : UInt8} {fc size : ℕ} (hzero : base.headD 0 ≠ 0)
    (hdeleted : base.headD 0 ≠ 0xE5) (hlfn : attr ≠ FAT_ATTR_LFN) : (made_entry base ext attr fc size).Occupied :=
  ⟨hzero, hdeleted, hlfn⟩

theorem directory_entry_occupied (hzero : 0 ∉ name) (hmark : name.head? ≠ some 0xE5) : (directory_entry name y).Occupied :=
  made_entry_occupied (standardize_base_ne_zero hzero) (standardize_base_ne_deleted hmark) (by decide)

theorem directory_entry_matches (hmark : name.head? ≠ some 0xE5) {part : CStr} :
    matches_name true (standardize_name part) (directory_entry name y) = true ↔ standardize_name part = standardize_name name := by
  rw [matches_name_iff]
  constructor
  · rintro ⟨-, -, hname, hext⟩
    exact Prod.ext hname.symm hext.symm
  · intro heq
    refine ⟨standardize_base_ne_deleted hmark, fun _ => show FAT_ATTR_DIRECTORY ≠ FAT_ATTR_LFN by decide, ?_, ?_⟩
    · rw [heq]
      rfl
    · rw [heq]
      rfl

theorem Vacant.lookup (h : Vacant v d c name) (hl : Cells v d c l) : lookup v d true l name = none := by
  cases hfound : fat32.lookup v d true l name with
  | none => rfl
  | some pos =>
    obtain ⟨k, j, i⟩ := pos
    obtain ⟨hk, hj, hi, _, _, _, hname, hext⟩ := lookup_some hfound
    exact absurd ⟨hname, hext⟩ (h l (k, 16 * j + i) hl ⟨hk, slot_index_lt hj hi, lookup_occupied hfound⟩)

/-- The claim leaves the slots of the directory alone. -/
theorem Claimed.fills (hwf : WellFormed v d) (hc : LiveDir v d c) (hl : Cells v d c l) (hclaimed : Claimed v d d₁ y)
    {l' : List ℕ} {front back : List (ℕ × ℕ)} {s : ℕ × ℕ} {e : fat32_dir_entry_t} (hfills : Fills v d₁ d' l l' front back s e) :
    Fills v d d' l l' front back s e :=
  hfills.of_same fun t ht => by
    obtain ⟨hk, hi⟩ := mem_chain_slots.mp ht
    exact hclaimed.slot hwf ⟨c, l, hc, hl, hk⟩ hi

section Entered

variable (hwf : WellFormed v d) (hc : LiveDir v d c) (hl : Cells v d c l) (hclean : CleanTail v d l)
  (hzero : 0 ∉ name) (hmark : name.head? ≠ some 0xE5) (hvacant : Vacant v d c name) (hclaimed : Claimed v d d₁ y)
  {k i : ℕ} (hplaced : Placed v d₁ d' c k i (directory_entry name y)) {l' : List ℕ} (hl' : Cells v d' c l')
  {front back : List (ℕ × ℕ)} {s : ℕ × ℕ} (hfills : Fills v d₁ d' l l' front back s (directory_entry name y))

include hwf hc hl hclaimed hfills

include hclean hzero hmark hvacant

/-- The new entry is found under its name. -/
theorem lookup_entered : lookup v d' true l' name = some (position s) :=
  ((hclaimed.fills hwf hc hl hfills).lookup hclean.pairwise (directory_entry_occupied hzero hmark).1 name).2
    ((directory_entry_matches hmark).mpr rfl) (hvacant.lookup hl)

include hplaced hl'

/-- What could be found before is found where it was. -/
theorem keepsEntries_of_entered : KeepsEntries v d d' := by
  intro c' lc part k' j' i' hc' hlc hfound
  obtain ⟨hk', hj', hi', _⟩ := lookup_some hfound
  have hlt := slot_index_lt hj' hi'
  by_cases heq : c' = c
  · subst heq
    obtain rfl := Cells.unique hlc hl
    have hfills' := hclaimed.fills hwf hc hl hfills
    have hmiss : matches_name true (standardize_name part) (directory_entry name y) = false := by
      rw [← Bool.not_eq_true, directory_entry_matches hmark]
      intro hsame
      rw [lookup_name_congr hsame, hvacant.lookup hl] at hfound
      cases hfound
    have hfound' := (hfills'.lookup hclean.pairwise (directory_entry_occupied hzero hmark).1 part).1 hmiss
    refine ⟨l', hl', hfound'.trans hfound, hfills'.same (k', 16 * j' + i') (mem_chain_slots.mpr ⟨hk', hlt⟩) fun hs => ?_⟩
    obtain ⟨_, _, _, _, hdeleted, hlfn, hname, hext⟩ := lookup_some (hfound'.trans hfound)
    have hentry := hfills'.entry
    rw [← hs] at hentry
    rw [hentry] at hdeleted hlfn hname hext
    rw [matches_name_iff.mpr ⟨hdeleted, hlfn, hname, hext⟩] at hmiss
    cases hmiss
  · have hkeep := hclaimed.keeps hwf
    obtain ⟨hwf₁, hdirs⟩ := hkeep.shape hwf
    have hlc₁ := (hkeep.dir_cells hwf hc').mpr hlc
    obtain ⟨hlc', hslots⟩ := hplaced.other_cells hwf₁ ((hdirs c).mpr hc) ((hdirs c').mpr hc') heq hlc₁
    refine ⟨lc, hlc', ?_, ?_⟩
    · rw [hplaced.lookup_other hwf₁ ((hdirs c).mpr hc) ((hdirs c').mpr hc') heq hlc₁ hlc', hclaimed.lookup hwf hc' hlc]
      exact hfound
    · rw [hslots k' hk' _ hlt, hclaimed.slot hwf ⟨c', lc, hc', hlc, hk'⟩ hlt]

end Entered

/-- The reports of a new directory: its two dot entries. -/
def dot_reports (y parent : ℕ) : List Report :=
  [⟨[dot], FAT_ATTR_DIRECTORY, 0, y⟩, ⟨[dot, dot], FAT_ATTR_DIRECTORY, 0, parent⟩]

theorem report_dots {name : List UInt8} {fc : ℕ} (hfc : fc < 2 ^ 32) (hdots : name = dot_name ∨ name = dotdot_name) :
    report (made_entry name blank_ext FAT_ATTR_DIRECTORY fc 0) =
      ⟨if name = dot_name then [dot] else [dot, dot], FAT_ATTR_DIRECTORY, 0, fc⟩ := by
  have hname : format_name name blank_ext = if name = dot_name then [dot] else [dot, dot] := by
    rcases hdots with rfl | rfl
    · decide
    · decide
  unfold report
  rw [made_entry_first_cluster hfc, ← hname]
  rfl

/-- A cluster with the two dot entries and end marks lists these two. -/
theorem listed_new_directory {parent : ℕ} (hv : v.Sane) (hy : y < 2 ^ 32) (hparent : parent < 2 ^ 32)
    (h0 : slot v d y 0 = made_entry dot_name blank_ext FAT_ATTR_DIRECTORY y 0)
    (h1 : slot v d y 1 = made_entry dotdot_name blank_ext FAT_ATTR_DIRECTORY parent 0)
    (hrest : ∀ i < slots_per_cluster v, 2 ≤ i → (slot v d y i).name0 = 0) :
    reports v d (listed v d (chain_slots v [y])) = dot_reports y parent := by
  have hcount := slot_index_lt (v := v) (i := 2) hv.cluster_pos (by omega)
  obtain ⟨n, hn⟩ := Nat.exists_eq_add_of_lt hcount
  have hslots : chain_slots v [y] = (y, 0) :: (y, 1) :: (y, 2) :: slots_from y 3 n := by
    rw [chain_slots, List.flatMap_singleton, show slots_per_cluster v = n + 1 + 1 + 1 by omega, slots_from_succ,
      slots_from_succ, slots_from_succ]
  have hmark : Marked v d (y, 2) := hrest 2 (by omega) le_rfl
  have hdot : (slot v d y 0).Occupied := by
    rw [h0]
    exact made_entry_occupied (by decide) (by decide) (by decide)
  have hdotdot : (slot v d y 1).Occupied := by
    rw [h1]
    exact made_entry_occupied (by decide) (by decide) (by decide)
  rw [hslots, listed_cons, listed_cons, listed_cons, if_neg (show ¬ Marked v d (y, 0) from hdot.1), if_pos hdot,
    if_neg (show ¬ Marked v d (y, 1) from hdotdot.1), if_pos hdotdot, if_pos hmark]
  simp only [reports, List.map_cons, List.map_nil, h0, h1, report_dots hy (.inl rfl), report_dots hparent (.inr rfl)]
  rfl

section NewDirectory

variable (hwf : WellFormed v d) (hclaimed : Claimed v d d₁ y) {k i : ℕ} {e : fat32_dir_entry_t}
  (hplaced : Placed v d₁ d' c k i e)

include hwf hclaimed hplaced

/-- The entry lies outside the new directory. -/
theorem placed_ne_claimed : k ≠ y := by
  rintro rfl
  have hkeep := hclaimed.keeps hwf
  rcases hplaced.place with huse | hfree
  · exact hclaimed.unused ((hkeep.inUse_iff hwf k).mp huse)
  · exact hclaimed.not_free hfree

/-- Placing the entry leaves the new directory as it was made. -/
theorem claimed_kept : Cells v d' y [y] ∧ ∀ i' < slots_per_cluster v, slot v d' y i' = slot v d₁ y i' := by
  have hne := placed_ne_claimed hwf hclaimed hplaced
  have hin := hclaimed.inRange
  have hunused : ¬ InUse v d₁ y := fun huse => hclaimed.unused (((hclaimed.keeps hwf).inUse_iff hwf y).mp huse)
  refine ⟨cells_last hin ?_, fun i' hi' => hplaced.slots y hin (fun heq => absurd heq.symm hne) i' hi' fun heq =>
    hne (Prod.mk.inj heq).1.symm⟩
  rw [hwf.sane.link_congr hin.inTable (hplaced.word y hin.inTable hunused hne.symm)]
  exact hclaimed.link hwf.sane

end NewDirectory

/-- What an insertion after a claim does to the table, apart from the claimed cluster. -/
theorem Grows.of_claimed (hwf : WellFormed v d) (hc : LiveDir v d c) (hl : Cells v d c l) (hclaimed : Claimed v d d₁ y)
    {l' : List ℕ} (h : Grows v (fun _ => False) d₁ d' l l') : Grows v (· = y) d d' l l' := by
  have hword : ∀ x, v.InTable x → x ≠ y → fat_word v d₁ x = fat_word v d x := by
    intro x hx hne
    rw [hclaimed.word x hx, if_neg hne]
  cases h with
  | same hsame => exact .same fun x hx hne => (hsame x hx not_false).trans (hword x hx hne)
  | more x z hx hlast hz hfree hother hsame =>
    have hxin := (hl.inRange hx).inTable
    have hxy : x ≠ y := by
      rintro rfl
      exact hclaimed.unused (hwf.inUse_of_dirCluster ⟨c, l, hc, hl, hx⟩)
    have hzy : z ≠ y := by
      rintro rfl
      exact hclaimed.not_free hfree
    refine .more x z hx ?_ hz ((isFree_congr (hword z hz.inTable hzy)).mp hfree) hzy fun w hw hwy hwx hwz =>
      (hsame w hw not_false hwx hwz).trans (hword w hw hwy)
    rwa [← hwf.sane.link_congr hxin (hword x hxin hxy)]

/-- With two free clusters there is one left for the directory when the other one has been claimed for the
    new entry, so that `create_entry` finds room. -/
theorem Claimed.create_entry (hwf : WellFormed v d) (hc : LiveDir v d c) (hl : Cells v d c l) (hclaimed : Claimed v d d₁ y)
    {a b : ℕ} (hab : a ≠ b) (ha : v.InRange a) (hb : v.InRange b) (hafree : IsFree v d a) (hbfree : IsFree v d b) (name : CStr)
    (attr : UInt8) {isDir : Bool} (hempty : isDir = true → ∀ j < slots_per_cluster v, named_object (fat32.slot v d₁ y j) = none)
    (hobj : ∀ b c, named_object (made_entry (standardize_base name) (standardize_ext name) attr y 0) = some (b, c) →
      b = isDir ∧ c = y) :
    ∃ k i d' l' front back s, Returns (fun fuel => fat32.create_entry fuel v d₁ c name attr y 0) (0, d') ∧
      Placed v d₁ d' c k i (made_entry (standardize_base name) (standardize_ext name) attr y 0) ∧ Cells v d' c l' ∧
      Grows v (· = y) d d' l l' ∧
      Fills v d₁ d' l l' front back s (made_entry (standardize_base name) (standardize_ext name) attr y 0) ∧
      ∀ x, v.InRange x → x ∉ l' → ∀ j < v.bpb.sectors_per_cluster, d' (data_sector v x j) = d₁ (data_sector v x j) := by
  have hkeep := hclaimed.keeps hwf
  obtain ⟨hwf₁, hdirs⟩ := hkeep.shape hwf
  have hl₁ := (hkeep.dir_cells hwf hc).mpr hl
  obtain ⟨z, hz, hzfree, hzy⟩ : ∃ z, v.InRange z ∧ IsFree v d z ∧ z ≠ y := by
    by_cases hay : a = y
    · exact ⟨b, hb, hbfree, fun hby => hab (hay.trans hby.symm)⟩
    · exact ⟨a, ha, hafree, hay⟩
  have hzfree₁ : IsFree v d₁ z := (isFree_congr (by rw [hclaimed.word z hz.inTable, if_neg hzy])).mpr hzfree
  obtain ⟨hne₁, hin₁, -⟩ := hwf.sane.find_free_of_inRange hz hzfree₁
  rcases hwf₁.create_entry_spec (fun _ _ => hin₁) name attr ((hdirs c).mpr hc) hl₁ (hclaimed.ready hwf hempty) hobj with
    ⟨-, hfull, -⟩ | ⟨-, k, i, d', hcreate, hplaced⟩
  · exact absurd hfull hne₁
  obtain ⟨l', front, back, s, hl', hgrows, hfills, hdata⟩ := hwf.sane.create_entry_fills (fun _ => hin₁) hl₁ hcreate
  exact ⟨k, i, d', l', front, back, s, hcreate, hplaced, hl', hgrows.of_claimed hwf hc hl hclaimed, hfills, hdata⟩

/-- What `fat32_mkdir` has done when it returns 0: it has made a directory of the cluster
    `y`, which was free, and has entered it under `name` into the directory `c`. -/
structure MakesDirectory (st st' : Fat32) (p name : CStr) (c : ℕ) (l : List ℕ) (y : ℕ) : Prop where
  fresh : st.vol.InRange y ∧ IsFree st.vol st.disk y
  resolves : Returns (fun fuel => fat32_resolve_path fuel st' p) y
  own : Cells st'.vol st'.disk y [y]
  listing : Returns (fun fuel => fat32_list_dir fuel st' y)
    (0, dot_reports y (if c = st.vol.bpb.root_cluster then 0 else c))
  grows : ∃ l', Cells st'.vol st'.disk c l' ∧ Grows st.vol (· = y) st.disk st'.disk l l'
  gains : ∃ pre post, Returns (fun fuel => fat32_list_dir fuel st c) (0, pre ++ post) ∧
    Returns (fun fuel => fat32_list_dir fuel st' c) (0, pre ++ report (directory_entry name y) :: post)
  paths : ∀ q r, SafePath st q → r ≠ 0 → Returns (fun fuel => fat32_resolve_path fuel st q) r →
    Returns (fun fuel => fat32_resolve_path fuel st' q) r

theorem list_dir_returns (hv : st.vol.Sane) (hmounted : st.mounted = true) (hl : Cells st.vol st.disk c l) :
    Returns (fun fuel => fat32_list_dir fuel st c)
      (0, reports st.vol st.disk (listed st.vol st.disk (chain_slots st.vol l))) := by
  have hne : c ≠ 0 := (hl.inRange hl.head_mem).ne_zero
  refine .of_gt l.length fun fuel hfuel => ?_
  simp [fat32_list_dir, hmounted, hne, hv.list_loop_listed hl hfuel]

/-- `fat32_mkdir` with a path whose parent is a directory without an entry of the name, on
    a volume with two free clusters. -/
theorem mkdir_makes_directory (hwf : WellFormed st.vol st.disk) (hmounted : st.mounted = true)
    (htails : ∀ x lx, LiveDir st.vol st.disk x → Cells st.vol st.disk x lx → CleanTail st.vol st.disk lx)
    (hn : Names st p parts name c l) (hp : NoEmptyComponent p) (hzero : 0 ∉ p) (hmark : name.head? ≠ some 0xE5)
    (hvacant : Vacant st.vol st.disk c name) {a b : ℕ} (hab : a ≠ b) (ha : st.vol.InRange a) (hb : st.vol.InRange b)
    (hafree : IsFree st.vol st.disk a) (hbfree : IsFree st.vol st.disk b) :
    ∃ y d', Returns (fun fuel => fat32_mkdir fuel st p) (0, { st with disk := d' }) ∧
      MakesDirectory st { st with disk := d' } p name c l y := by
  obtain ⟨leading, hparent⟩ := hn.parent_and_name hwf hmounted hp
  have hresolve := hn.resolve hwf hmounted
  rw [hvacant.lookup hn.cells] at hresolve
  have hclean := htails c l hn.live hn.cells
  have hname := parent_and_name_no_zero hzero hparent
  have hc0 : c ≠ 0 := (hn.cells.inRange hn.cells.head_mem).ne_zero
  obtain ⟨hne, hin, hfree⟩ := hwf.sane.find_free_of_inRange ha hafree
  generalize hy : find_free_cluster st.vol st.disk = y at hne hin hfree
  generalize hdots : (if c = st.vol.bpb.root_cluster then 0 else c) = dots
  have hclaimed := hwf.claimed_directory hin hfree dots
  obtain ⟨h0, h1, hrest⟩ := hwf.sane.init_directory_slots hin (set_next_cluster st.vol st.disk y FAT32_EOC) dots
  have hempty := @Volume.Sane.init_directory_empty st.vol hwf.sane y dots hin (set_next_cluster st.vol st.disk y FAT32_EOC)
  generalize hd₁ : init_directory st.vol (set_next_cluster st.vol st.disk y FAT32_EOC) y dots = d₁ at hclaimed h0 h1 hrest hempty
  obtain ⟨k, i, d', l', front, back, s, hcreate, hplaced, hl', hgrows, hfills, -⟩ := hclaimed.create_entry hwf hn.live hn.cells
    hab ha hb hafree hbfree name FAT_ATTR_DIRECTORY (fun _ j hj => hempty j hj) fun b c hobj => made_entry_object hin hobj
  have hfills' : Fills st.vol st.disk d' l l' front back s (directory_entry name y) := hclaimed.fills hwf hn.live hn.cells hfills
  have hentries := keepsEntries_of_entered hwf hn.live hn.cells hclean hname hmark hvacant hclaimed hplaced hl' hfills
  have hlookup := lookup_entered hwf hn.live hn.cells hclean hname hmark hvacant hclaimed hfills
  obtain ⟨hown, hkept⟩ := claimed_kept hwf hclaimed hplaced
  refine ⟨y, d', ?_, ⟨hin, hfree⟩, ?_, hown, ?_, ⟨l', hl', hgrows⟩, ?_, ?_⟩
  · filter_upwards [hparent, hresolve, hcreate] with fuel h₁ h₂ h₃
    simp [fat32_mkdir, hmounted, h₁, h₂, hc0, hy, hne, hdots, hd₁, h₃]
  · have hslot : (slot st.vol d' s.1 (16 * (s.2 / 16) + s.2 % 16)).first_cluster = y := by
      rw [Nat.div_add_mod, hfills'.entry, directory_entry_first_cluster hin]
    have hwalk := (hentries.leads hn.leads hn.start).resolves_append (.step hl' hlookup .done)
    rw [hslot, ← hn.split] at hwalk
    filter_upwards [hwalk.returns hwf.sane] with fuel hfuel
    simpa [fat32_resolve_path, hmounted, hn.nonempty, start_cluster] using hfuel
  · have hcount : 16 ≤ slots_per_cluster st.vol := Nat.le_mul_of_pos_right 16 hwf.sane.cluster_pos
    have hdots32 : dots < 2 ^ 32 := by
      have := (hn.cells.inRange hn.cells.head_mem).lt_eoc
      rw [← hdots]
      split <;> omega
    have hlisted := @list_dir_returns { st with disk := d' } y [y] hwf.sane hmounted hown
    rw [hdots, ← listed_new_directory hwf.sane (by have := hin.lt_eoc; omega) hdots32
      ((hkept 0 (by omega)).trans h0) ((hkept 1 (by omega)).trans h1)
      fun i hi hle => (congrArg _ (hkept i hi)).trans (hrest i hi hle)]
    exact hlisted
  · obtain ⟨pre, post, hbefore, hafter⟩ := hfills'.reports hclean.pairwise (directory_entry_occupied hname hmark)
    refine ⟨pre, post, ?_, ?_⟩
    · rw [← hbefore]
      exact list_dir_returns hwf.sane hmounted hn.cells
    · rw [← hafter]
      exact @list_dir_returns { st with disk := d' } c l' hwf.sane hmounted hl'
  · exact fun q r hsafe hr hret => hentries.resolve_path hwf hmounted hsafe hr hret

/-- Nothing stands behind an end mark on a blank volume. -/
theorem small_tails (lx : List ℕ) : CleanTail small_volume small_state.disk lx :=
  ⟨fun _ _ _ _ _ _ _ => blank_slots small_volume_sane small_root_inRange _ _,
    List.pairwise_of_forall_mem_list fun _ _ _ _ _ _ _ _ _ => blank_slots small_volume_sane small_root_inRange _ _⟩

theorem small_vacant (name : CStr) : Vacant small_volume small_state.disk 2 name :=
  fun _ _ _ htaken => absurd (blank_slots small_volume_sane small_root_inRange _ _) htaken.2.2.1

/-- The first directory of an empty volume. -/
theorem mkdir_makes_directory_first :
    ∃ y d', Returns (fun fuel => fat32_mkdir fuel small_state (ascii "A")) (0, { small_state with disk := d' }) ∧
      MakesDirectory small_state { small_state with disk := d' } (ascii "A") (ascii "A") 2 [2] y :=
  mkdir_makes_directory (a := 3) (b := 4) (blank_shape small_volume_sane small_root_inRange).1 rfl (fun _ lx _ _ => small_tails lx)
    small_names ⟨by decide, by decide⟩ (by decide) (by decide) (small_vacant _) (by decide) (by decide) (by decide)
    (by decide +kernel) (by decide +kernel)

/-- A volume with one file, whose text reads as a directory entry that names a free cluster. -/
def forged_state : Fat32 := { small_state with
  disk := Function.update (Function.update (Function.update (set_next_cluster small_volume small_state.disk 3 FAT32_EOC)
    2 (put_entry zero_buf 0 (ascii "F       ") (ascii "   ") FAT_ATTR_ARCHIVE 3 512))
    3 (put_entry zero_buf 0 (ascii "X       ") (ascii "   ") FAT_ATTR_DIRECTORY 4 0))
    4 (put_entry zero_buf 0 (ascii "Z       ") (ascii "   ") FAT_ATTR_ARCHIVE 5 0) }

theorem forged_table : get_next_cluster small_volume forged_state.disk 2 = FAT32_EOC ∧
    get_next_cluster small_volume forged_state.disk 3 = FAT32_EOC ∧
    (∀ i < slots_per_cluster small_volume,
      named_object (slot small_volume forged_state.disk 2 i) = if i = 0 then some (false, 3) else none) ∧
    (∀ i < slots_per_cluster small_volume, 0 < i → (slot small_volume forged_state.disk 2 i).name0 = 0) ∧
    (slot small_volume forged_state.disk 2 0).name ≠ standardize_base (ascii "D") ∧
    IsFree small_volume forged_state.disk 4 ∧ IsFree small_volume forged_state.disk 5 := by
  decide +kernel

theorem forged_root : Cells small_volume forged_state.disk 2 [2] := cells_last small_root_inRange forged_table.1

theorem forged_shape : WellFormed small_volume forged_state.disk ∧ ∀ c, LiveDir small_volume forged_state.disk c ↔ c = 2 :=
  wellFormed_of_one_file small_volume_sane small_root_inRange forged_table.1
    (cells_last (show small_volume.InRange 3 by decide) forged_table.2.1) forged_table.2.2.1 (by decide)

/-- Making a directory changes where a path leads that passes through a regular file. -/
theorem mkdir_breaks_forged_path :
    WellFormed small_volume forged_state.disk ∧ forged_state.mounted = true ∧
      (∀ x lx, LiveDir small_volume forged_state.disk x → Cells small_volume forged_state.disk x lx →
        CleanTail small_volume forged_state.disk lx) ∧
      Names forged_state (ascii "D") [] (ascii "D") 2 [2] ∧ NoEmptyComponent (ascii "D") ∧
      Vacant small_volume forged_state.disk 2 (ascii "D") ∧ small_volume.InRange 4 ∧ small_volume.InRange 5 ∧
      IsFree small_volume forged_state.disk 4 ∧ IsFree small_volume forged_state.disk 5 ∧
      Returns (fun fuel => fat32_resolve_path fuel forged_state (ascii "F/X/Z")) 5 ∧
      ∃ st', Returns (fun fuel => fat32_mkdir fuel forged_state (ascii "D")) (0, st') ∧
        Returns (fun fuel => fat32_resolve_path fuel st' (ascii "F/X/Z")) 0 := by
  obtain ⟨-, -, -, hrest, hname, hfree, hfree'⟩ := forged_table
  refine ⟨forged_shape.1, rfl, fun x lx hx hlx => ?_, ⟨by decide, liveDir_root, .done, forged_root⟩, ⟨by decide, by decide⟩,
    fun lx s hlx htaken hnamed => ?_, by decide, by decide, hfree, hfree',
    (fat32_resolve_path_stable _ _).returns (show fat32_resolve_path 6 forged_state (ascii "F/X/Z") = some 5 by decide +kernel), ?_⟩
  · obtain rfl := (forged_shape.2 x).mp hx
    obtain rfl := Cells.unique hlx forged_root
    refine ⟨fun k hk i i' hlt hi' _ => ?_, List.pairwise_singleton _ _⟩
    obtain rfl := List.mem_singleton.mp hk
    exact hrest i' hi' (by omega)
  · obtain ⟨k, i⟩ := s
    obtain ⟨hk, hi, hocc⟩ := htaken
    obtain rfl := Cells.unique hlx forged_root
    obtain rfl := List.mem_singleton.mp hk
    rcases Nat.eq_zero_or_pos i with rfl | hpos
    · exact hname hnamed.1
    · exact hocc.1 (hrest i hi hpos)
  · obtain ⟨⟨rc, st'⟩, hres, hcheck⟩ := Option.map_eq_some_iff.mp
      (show (fat32_mkdir 6 forged_state (ascii "D")).map (fun res =>
        decide (res.1 = 0 ∧ fat32_resolve_path 6 res.2 (ascii "F/X/Z") = some 0)) = some true by decide +kernel)
    obtain ⟨hrc, hresolve⟩ := of_decide_eq_true hcheck
    obtain rfl : rc = 0 := hrc
    exact ⟨st', (fat32_mkdir_stable _ _).returns hres, (fat32_resolve_path_stable _ _).returns hresolve⟩

end os_dev.fat32
