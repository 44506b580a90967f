import OsDev.Fat32.Walk

open os_dev.ata os_dev.libc little_endian forest link_chain fuel

namespace os_dev.fat32

variable {v : Volume} {d d' : Disk} {c : ℕ} {l : List ℕ}

/-- In the order of the chain, only end marks stand behind an end mark. -/
structure CleanTail (v : Volume) (d : Disk) (l : List ℕ) : Prop where
  within : ∀ k ∈ l, ∀ i i', i < i' → i' < slots_per_cluster v → (slot v d k i).name0 = 0 →
    (slot v d k i').name0 = 0
  across : l.Pairwise fun k k' => ∀ i < slots_per_cluster v, ∀ i' < slots_per_cluster v,
    (slot v d k i).name0 = 0 → (slot v d k' i').name0 = 0

/-- A directory on its own: the chain `l` from `c` with proper, uniquely named
    entries in front of a clean tail. -/
structure Directory (v : Volume) (d : Disk) (c : ℕ) (l : List ℕ) : Prop where
  sane : v.Sane
  cells : Cells v d c l
  no_lfn : ∀ k ∈ l, ∀ i < slots_per_cluster v, (slot v d k i).name0 ≠ 0 → (slot v d k i).name0 ≠ 0xE5 →
    (slot v d k i).attributes ≠ FAT_ATTR_LFN
  unique : ∀ s t, Taken v d l s → Taken v d l t → (slot v d s.1 s.2).name = (slot v d t.1 t.2).name →
    (slot v d s.1 s.2).ext = (slot v d t.1 t.2).ext → s = t
  nonzero : ∀ s, Taken v d l s → (slot v d s.1 s.2).name0 ≠ dot → (slot v d s.1 s.2).first_cluster ≠ 0
  tail : CleanTail v d l

/-- A slot of the directory that holds a regular file. -/
def FileSlot (v : Volume) (d : Disk) (l : List ℕ) (s : ℕ × ℕ) : Prop :=
  Taken v d l s ∧ (slot v d s.1 s.2).name0 ≠ dot ∧ (slot v d s.1 s.2).isDirectory = false

/-- Cluster `x` belongs to a file of the directory. -/
def InFile (v : Volume) (d : Disk) (l : List ℕ) (x : ℕ) : Prop :=
  ∃ s lf, FileSlot v d l s ∧ Cells v d (slot v d s.1 s.2).first_cluster lf ∧ x ∈ lf

/-- The files of the directory have chains of their own, outside the directory. -/
structure SeparateFiles (v : Volume) (d : Disk) (l : List ℕ) : Prop where
  chain : ∀ s, FileSlot v d l s → ∃ lf, Cells v d (slot v d s.1 s.2).first_cluster lf
  outside : ∀ x, InFile v d l x → x ∉ l
  apart : ∀ s t ls lt x, FileSlot v d l s → FileSlot v d l t → Cells v d (slot v d s.1 s.2).first_cluster ls →
    Cells v d (slot v d t.1 t.2).first_cluster lt → x ∈ ls → x ∈ lt → s = t

/-- A clean tail hides no taken slot from a search. -/
theorem CleanTail.visible (h : CleanTail v d l) {k j i : ℕ} (hk : k ∈ l) (hj : j < v.bpb.sectors_per_cluster)
    (hi : i < 16) (hname : (slot v d k (16 * j + i)).name0 ≠ 0) : Visible v d k j i := by
  intro i' hle hzero
  rcases Nat.eq_or_lt_of_le hle with rfl | hlt
  · exact hname hzero
  · exact hname (h.within k hk _ _ (by omega) (slot_index_lt hj hi) hzero)

theorem Directory.taken_of_used (h : Directory v d c l) {k i : ℕ} (hk : k ∈ l) (hi : i < slots_per_cluster v)
    (hzero : (slot v d k i).name0 ≠ 0) (hdeleted : (slot v d k i).name0 ≠ 0xE5) : Taken v d l (k, i) :=
  ⟨hk, hi, hzero, hdeleted, h.no_lfn k hk i hi hzero hdeleted⟩

/-- A directory of one cluster whose slots behind the `n`-th are end marks, and none in front of it. -/
theorem cleanTail_single {k n : ℕ} (hfront : ∀ i < n, (slot v d k i).name0 ≠ 0)
    (hback : ∀ i < slots_per_cluster v, n < i → (slot v d k i).name0 = 0) : CleanTail v d [k] := by
  refine ⟨fun k' hk' i i' hlt hi' hzero => ?_, List.pairwise_singleton _ _⟩
  obtain rfl := List.mem_singleton.mp hk'
  by_cases hi : i < n
  · exact absurd hzero (hfront i hi)
  · exact hback i' hi' (by omega)

/-- In such a directory every search for a name, whether it skips long-name parts or
    not, finds the one slot that has the name. -/
theorem Directory.lookup_of_taken (h : Directory v d c l) {s : ℕ × ℕ} {name : CStr} (hs : Taken v d l s)
    (hname : (slot v d s.1 s.2).name = standardize_base name) (hext : (slot v d s.1 s.2).ext = standardize_ext name)
    (skip_lfn : Bool) : lookup v d skip_lfn l name = some (s.1, s.2 / 16, s.2 % 16) := by
  obtain ⟨k, i⟩ := s
  obtain ⟨hk, hi, hocc⟩ := hs
  simp only at hk hi hocc hname hext ⊢
  have hindex : 16 * (i / 16) + i % 16 = i := Nat.div_add_mod i 16
  have hj := sector_of_slot hi
  have hi' : i % 16 < 16 := Nat.mod_lt i (by omega)
  have hmatch : matches_name skip_lfn (standardize_name name) (slot v d k i) = true :=
    matches_name_iff.mpr ⟨hocc.2.1, fun _ => hocc.2.2, hname, hext⟩
  cases hfound : lookup v d skip_lfn l name with
  | none =>
    have hnone := chain_hit_scan_none hfound hk hj hi' (h.tail.visible hk hj hi' (by rw [hindex]; exact hocc.1))
    rw [hindex, hmatch] at hnone
    cases hnone
  | some pos =>
    obtain ⟨k', j', i'⟩ := pos
    obtain ⟨hk', hj', hi'', h0, h1, _, h3, h4⟩ := lookup_some hfound
    have ht := h.taken_of_used hk' (slot_index_lt hj' hi'') h0 h1
    obtain ⟨rfl, hindex'⟩ := Prod.mk.inj (h.unique (k, i) (k', 16 * j' + i') ⟨hk, hi, hocc⟩ ht
      (hname.trans h3.symm) (hext.trans h4.symm))
    rw [show j' = i / 16 by omega, show i' = i % 16 by omega]

theorem Directory.lookup_taken (h : Directory v d c l) {skip_lfn : Bool} {name : CStr} {k j i : ℕ}
    (hfound : lookup v d skip_lfn l name = some (k, j, i)) :
    Taken v d l (k, 16 * j + i) ∧ (slot v d k (16 * j + i)).name = standardize_base name ∧
      (slot v d k (16 * j + i)).ext = standardize_ext name := by
  obtain ⟨hk, hj, hi, h0, h1, _, h3, h4⟩ := lookup_some hfound
  exact ⟨h.taken_of_used hk (slot_index_lt hj hi) h0 h1, h3, h4⟩

/-- A directory whose files have chains of their own. -/
structure Folder (v : Volume) (d : Disk) (c : ℕ) (l : List ℕ) : Prop where
  dir : Directory v d c l
  files : SeparateFiles v d l

theorem Folder.file_not_free (h : Folder v d c l) {x : ℕ} (hx : InFile v d l x) : ¬ IsFree v d x := by
  obtain ⟨s, lf, _, hlf, hmem⟩ := hx
  exact hlf.not_free h.dir.sane hmem

theorem Folder.not_free (h : Folder v d c l) {x : ℕ} (hx : x ∈ l) : ¬ IsFree v d x :=
  h.dir.cells.not_free h.dir.sane hx

section Restrict

variable (h : Folder v d c l)
  (hslots : ∀ k ∈ l, ∀ i < slots_per_cluster v, slot v d' k i = slot v d k i ∨
    ((slot v d' k i).name0 = 0xE5 ∧ (slot v d k i).name0 ≠ 0))

include hslots

theorem taken_of_restrict {s : ℕ × ℕ} (hs : Taken v d' l s) :
    slot v d' s.1 s.2 = slot v d s.1 s.2 ∧ Taken v d l s := by
  obtain ⟨hk, hi, hocc⟩ := hs
  have hsame := (hslots s.1 hk s.2 hi).resolve_right fun hdeleted => hocc.2.1 hdeleted.1
  rw [hsame] at hocc
  exact ⟨hsame, hk, hi, hocc⟩

theorem fileSlot_of_restrict {s : ℕ × ℕ} (hs : FileSlot v d' l s) :
    slot v d' s.1 s.2 = slot v d s.1 s.2 ∧ FileSlot v d l s := by
  obtain ⟨htaken, hrest⟩ := hs
  obtain ⟨hsame, htaken'⟩ := taken_of_restrict hslots htaken
  rw [hsame] at hrest
  exact ⟨hsame, htaken', hrest⟩

include h

/-- A directory keeps its shape when some of its entries are deleted and nothing
    changes in its other slots, its chain and the chains of the files that remain. -/
theorem Folder.restrict (hword : ∀ x ∈ l, fat_word v d' x = fat_word v d x)
    (hfiles : ∀ s lf, FileSlot v d' l s → Cells v d (slot v d s.1 s.2).first_cluster lf →
      ∀ x ∈ lf, fat_word v d' x = fat_word v d x) :
    Folder v d' c l ∧ ∀ s lf, FileSlot v d' l s →
      (Cells v d' (slot v d' s.1 s.2).first_cluster lf ↔ Cells v d (slot v d s.1 s.2).first_cluster lf) := by
  have hzero : ∀ k ∈ l, ∀ i < slots_per_cluster v, (slot v d' k i).name0 = 0 ↔ (slot v d k i).name0 = 0 := by
    intro k hk i hi
    rcases hslots k hk i hi with hsame | ⟨hdeleted, hne⟩
    · rw [hsame]
    · simp [hdeleted, hne]
  have hcells : ∀ s lf, FileSlot v d' l s →
      (Cells v d' (slot v d' s.1 s.2).first_cluster lf ↔ Cells v d (slot v d s.1 s.2).first_cluster lf) := by
    intro s lf hs
    obtain ⟨hsame, hs'⟩ := fileSlot_of_restrict hslots hs
    rw [hsame]
    have hforth : ∀ lf, Cells v d (slot v d s.1 s.2).first_cluster lf →
        Cells v d' (slot v d s.1 s.2).first_cluster lf :=
      fun lf hlf => hlf.congr_words h.dir.sane fun x hx => hfiles s lf hs hlf x hx
    refine ⟨fun hlf => ?_, hforth lf⟩
    obtain ⟨lf', hlf'⟩ := h.files.chain s hs'
    rwa [Cells.unique hlf (hforth lf' hlf')]
  refine ⟨⟨⟨h.dir.sane, h.dir.cells.congr_words h.dir.sane hword, ?_, ?_, ?_, ?_, ?_⟩, ?_, ?_, ?_⟩, hcells⟩
  · intro k hk i hi h0 h1
    have hsame := (hslots k hk i hi).resolve_right fun hdeleted => h1 hdeleted.1
    rw [hsame] at h0 h1 ⊢
    exact h.dir.no_lfn k hk i hi h0 h1
  · intro s t hs ht
    obtain ⟨hs', hs⟩ := taken_of_restrict hslots hs
    obtain ⟨ht', ht⟩ := taken_of_restrict hslots ht
    rw [hs', ht']
    exact h.dir.unique s t hs ht
  · intro s hs
    obtain ⟨hs', hs⟩ := taken_of_restrict hslots hs
    rw [hs']
    exact h.dir.nonzero s hs
  · intro k hk i i' hlt hi'
    rw [hzero k hk i (by omega), hzero k hk i' hi']
    exact h.dir.tail.within k hk i i' hlt hi'
  · refine h.dir.tail.across.imp_of_mem fun hk hk' hpair i hi i' hi' => ?_
    rw [hzero _ hk i hi, hzero _ hk' i' hi']
    exact hpair i hi i' hi'
  · intro s hs
    obtain ⟨lf, hlf⟩ := h.files.chain s (fileSlot_of_restrict hslots hs).2
    exact ⟨lf, (hcells s lf hs).mpr hlf⟩
  · rintro x ⟨s, lf, hs, hlf, hx⟩
    exact h.files.outside x ⟨s, lf, (fileSlot_of_restrict hslots hs).2, (hcells s lf hs).mp hlf, hx⟩
  · intro s t ls lt x hs ht hls hlt
    exact h.files.apart s t ls lt x (fileSlot_of_restrict hslots hs).2 (fileSlot_of_restrict hslots ht).2
      ((hcells s ls hs).mp hls) ((hcells t lt ht).mp hlt)

end Restrict

/-- The directory stays the same under changes outside its slots, its chain and its files. -/
theorem Folder.congr (h : Folder v d c l)
    (hslots : ∀ k ∈ l, ∀ i < slots_per_cluster v, slot v d' k i = slot v d k i)
    (hword : ∀ x, x ∈ l ∨ InFile v d l x → fat_word v d' x = fat_word v d x) :
    Folder v d' c l ∧ (∀ s, Taken v d' l s ↔ Taken v d l s) ∧ ∀ x, InFile v d' l x → InFile v d l x := by
  have hsame : ∀ k ∈ l, ∀ i < slots_per_cluster v, slot v d' k i = slot v d k i ∨
      ((slot v d' k i).name0 = 0xE5 ∧ (slot v d k i).name0 ≠ 0) := fun k hk i hi => .inl (hslots k hk i hi)
  obtain ⟨hfolder, hcells⟩ := h.restrict hsame (fun x hx => hword x (.inl hx))
    fun s lf hs hlf x hx => hword x (.inr ⟨s, lf, (fileSlot_of_restrict hsame hs).2, hlf, hx⟩)
  refine ⟨hfolder, fun s => ?_, ?_⟩
  · unfold Taken
    refine and_congr_right fun hk => and_congr_right fun hi => ?_
    rw [hslots s.1 hk s.2 hi]
  · rintro x ⟨s, lf, hs, hlf, hx⟩
    exact ⟨s, lf, (fileSlot_of_restrict hsame hs).2, (hcells s lf hs).mp hlf, hx⟩

/-- A cluster that has become a chain of its own, outside the directory and its files. -/
structure Spare (v : Volume) (d : Disk) (l : List ℕ) (y : ℕ) : Prop where
  inRange : v.InRange y
  link : get_next_cluster v d y = FAT32_EOC
  used : ¬ IsFree v d y
  outside : y ∉ l
  no_file : ¬ InFile v d l y

/-- Allocating a free cluster leaves the directory alone. -/
theorem Folder.allocated (h : Folder v d c l) {y : ℕ} (hy : Allocated v d d' y) (hfree : IsFree v d y) :
    Folder v d' c l ∧ Spare v d' l y ∧ (∀ s, Taken v d' l s ↔ Taken v d l s) ∧
      ∀ k ∈ l, ∀ i < slots_per_cluster v, slot v d' k i = slot v d k i := by
  have hout : y ∉ l := fun hx => h.not_free hx hfree
  have hslots : ∀ k ∈ l, ∀ i < slots_per_cluster v, slot v d' k i = slot v d k i := by
    intro k hk i hi
    apply slot_congr
    refine hy.data k (h.dir.cells.inRange hk) ?_ _ (sector_of_slot hi)
    rintro rfl
    exact hout hk
  obtain ⟨hfolder, htaken, hfiles⟩ := h.congr hslots fun x hx => by
    have hin : v.InRange x := by
      rcases hx with hx | ⟨_, _, _, hlf, hx⟩
      · exact h.dir.cells.inRange hx
      · exact hlf.inRange hx
    rw [hy.word x hin.inTable, if_neg]
    rintro rfl
    exact hx.elim hout fun hx => h.file_not_free hx hfree
  exact ⟨hfolder, ⟨hy.inRange, hy.link h.dir.sane, hy.not_free, hout, fun hx => h.file_not_free (hfiles y hx) hfree⟩,
    htaken, hslots⟩

/-- The slots in front of the first usable one are all in use. -/
theorem free_hit_first {k j i : ℕ} (h : chain_hit v d free_scan l = some (k, j, i)) :
    ∃ front back, l = front ++ k :: back ∧
      (∀ k' ∈ front, ∀ i' < slots_per_cluster v, (slot v d k' i').name0 ≠ 0 ∧ (slot v d k' i').name0 ≠ 0xE5) ∧
      ∀ i' < 16 * j + i, (slot v d k i').name0 ≠ 0 ∧ (slot v d k i').name0 ≠ 0xE5 := by
  unfold chain_hit at h
  obtain ⟨front, k', back, rfl, hk, hfront⟩ := List.findSome?_eq_some_iff.mp h
  obtain ⟨⟨j', i'⟩, hcluster, heq⟩ := Option.map_eq_some_iff.mp hk
  cases heq
  refine ⟨front, back, rfl, ?_, ?_⟩
  · intro k' hk' i' hi'
    have hnone : chain_hit v d free_scan [k'] = none := by
      simpa [chain_hit] using hfront k' hk'
    have hscan := chain_hit_none hnone (List.mem_singleton_self k') (sector_of_slot hi')
    have := scan_free_none hscan (Nat.zero_le (i' % 16)) (by omega)
    rwa [← slot_eq_dir_entry (by omega), Nat.div_add_mod] at this
  · intro i' hlt
    unfold cluster_hit at hcluster
    obtain ⟨sectors, j', rest, hrange, hj, hbefore⟩ := List.findSome?_eq_some_iff.mp hcluster
    obtain ⟨i₀, hscan, heq⟩ := Option.map_eq_some_iff.mp hj
    cases heq
    have hi := (scan_free_some hscan).2.1
    rw [← Nat.div_add_mod i' 16, slot_eq_dir_entry (Nat.mod_lt i' (by omega))]
    by_cases hsector : i' / 16 = j
    · rw [hsector]
      exact (scan_free_some hscan).2.2.2 _ (Nat.zero_le _) (by omega)
    · have hmem : i' / 16 ∈ sectors := by
        have hget : ∀ n < sectors.length, n ∈ sectors := by
          intro n hn
          have hn' : (List.range v.bpb.sectors_per_cluster)[n]? = some n := by
            rw [List.getElem?_range]
            have := congrArg List.length hrange
            simp at this
            omega
          rw [hrange, List.getElem?_append_left hn] at hn'
          exact List.mem_of_getElem? hn'
        have hlen : sectors.length = j := by
          have hn' : (List.range v.bpb.sectors_per_cluster)[sectors.length]? = some j := by
            rw [hrange]
            simp
          have := congrArg List.length hrange
          rw [List.getElem?_range (by simp at this; omega)] at hn'
          simpa using hn'
        exact hget _ (by omega)
      have hnone := Option.map_eq_none_iff.mp (hbefore _ hmem)
      exact scan_free_none hnone (Nat.zero_le _) (by omega)

/-- The directory after an entry for the spare cluster `y` has been written into
    slot `i` of cluster `k`. -/
structure Entered (v : Volume) (d d' : Disk) (c : ℕ) (l l' : List ℕ) (k i : ℕ) (e : fat32_dir_entry_t) : Prop where
  folder : Folder v d' c l'
  entry : slot v d' k i = e
  taken : ∀ s, Taken v d' l' s ↔ Taken v d l s ∨ s = (k, i)
  slots : ∀ s, Taken v d l s → slot v d' s.1 s.2 = slot v d s.1 s.2
  fresh : ¬ Taken v d l (k, i)

/-- Writing an entry into the first usable slot keeps the tail clean. -/
theorem CleanTail.fill (h : CleanTail v d l) (hnodup : l.Nodup) {k n : ℕ} {front back : List ℕ}
    (hsplit : l = front ++ k :: back)
    (hfront : ∀ k' ∈ front, ∀ i' < slots_per_cluster v, (slot v d k' i').name0 ≠ 0)
    (hbefore : ∀ i' < n, (slot v d k i').name0 ≠ 0) (hname : (slot v d' k n).name0 ≠ 0)
    (hother : ∀ k' ∈ l, ∀ i' < slots_per_cluster v, (k', i') ≠ (k, n) → slot v d' k' i' = slot v d k' i') :
    CleanTail v d' l := by
  constructor
  · intro k' hk' i' i'' hlt hi''
    by_cases heq : (k', i') = (k, n)
    · cases heq
      exact fun h0 => absurd h0 hname
    · rw [hother k' hk' i' (by omega) heq]
      by_cases heq' : (k', i'') = (k, n)
      · cases heq'
        exact fun h0 => absurd h0 (hbefore i' hlt)
      · rw [hother k' hk' i'' hi'' heq']
        exact h.within k' hk' i' i'' hlt hi''
  · have hkeep : ∀ k₁ ∈ l, ∀ k₂ ∈ l, k₂ ≠ k ∨ (∀ i₁ < slots_per_cluster v, (slot v d k₁ i₁).name0 ≠ 0) →
        (∀ i₁ < slots_per_cluster v, ∀ i₂ < slots_per_cluster v,
          (slot v d k₁ i₁).name0 = 0 → (slot v d k₂ i₂).name0 = 0) →
        ∀ i₁ < slots_per_cluster v, ∀ i₂ < slots_per_cluster v,
          (slot v d' k₁ i₁).name0 = 0 → (slot v d' k₂ i₂).name0 = 0 := by
      intro k₁ hk₁ k₂ hk₂ hcase hpair i₁ hi₁ i₂ hi₂ h0
      by_cases heq₁ : (k₁, i₁) = (k, n)
      · cases heq₁
        exact absurd h0 hname
      · rw [hother k₁ hk₁ i₁ hi₁ heq₁] at h0
        have hne : k₂ ≠ k := hcase.resolve_right fun hused => hused i₁ hi₁ h0
        rw [hother k₂ hk₂ i₂ hi₂ fun heq => hne (Prod.mk.inj heq).1]
        exact hpair i₁ hi₁ i₂ hi₂ h0
    have hpair := h.across
    have hmem : ∀ {x}, x ∈ front ++ k :: back → x ∈ l := fun hx => hsplit ▸ hx
    rw [hsplit] at hnodup hpair ⊢
    have hback : ∀ x ∈ back, x ≠ k := by
      rintro x hx rfl
      exact (List.nodup_cons.mp (List.nodup_append.mp hnodup).2.1).1 hx
    rw [List.pairwise_append, List.pairwise_cons] at hpair ⊢
    obtain ⟨hff, ⟨hkb, hbb⟩, hcross⟩ := hpair
    refine ⟨?_, ⟨?_, ?_⟩, ?_⟩
    · exact hff.imp_of_mem fun hx hy hR =>
        hkeep _ (hmem (by simp [hx])) _ (hmem (by simp [hy])) (.inr (hfront _ hx)) hR
    · intro x hx
      exact hkeep k (hmem (by simp)) x (hmem (by simp [hx])) (.inl (hback x hx)) (hkb x hx)
    · exact hbb.imp_of_mem fun hx hy hR =>
        hkeep _ (hmem (by simp [hx])) _ (hmem (by simp [hy])) (.inl (hback _ hy)) hR
    · intro x hx z hz
      exact hkeep x (hmem (by simp [hx])) z (hmem (List.mem_append_right _ hz)) (.inr (hfront x hx)) (hcross x hx z hz)

/-- A new entry for a spare cluster keeps the files apart. -/
theorem SeparateFiles.fill (h : SeparateFiles v d l) {n : ℕ × ℕ} {y : ℕ} (hy : Spare v d l y)
    (hfc : (slot v d' n.1 n.2).first_cluster = y) (hfile : ∀ s, FileSlot v d' l s → FileSlot v d l s ∨ s = n)
    (hslots : ∀ s, FileSlot v d l s → slot v d' s.1 s.2 = slot v d s.1 s.2)
    (hcells : ∀ x lx, Cells v d' x lx ↔ Cells v d x lx) : SeparateFiles v d' l := by
  have hlone : ∀ {lx}, Cells v d y lx → lx = [y] := fun hx => Cells.unique hx (.last hy.inRange hy.link)
  refine ⟨?_, ?_, ?_⟩
  · intro s hs
    rcases hfile s hs with hs | rfl
    · obtain ⟨lf, hlf⟩ := h.chain s hs
      rw [hslots s hs]
      exact ⟨lf, (hcells _ _).mpr hlf⟩
    · rw [hfc]
      exact ⟨[y], (hcells _ _).mpr (.last hy.inRange hy.link)⟩
  · rintro x ⟨s, lf, hs, hlf, hx⟩
    rw [hcells] at hlf
    rcases hfile s hs with hs | rfl
    · rw [hslots s hs] at hlf
      exact h.outside x ⟨s, lf, hs, hlf, hx⟩
    · rw [hfc] at hlf
      rw [hlone hlf, List.mem_singleton] at hx
      exact hx ▸ hy.outside
  · intro s t ls lt x hs ht hls hlt hxs hxt
    rw [hcells] at hls hlt
    rcases hfile s hs with hs | rfl <;> rcases hfile t ht with ht | rfl
    · rw [hslots s hs] at hls
      rw [hslots t ht] at hlt
      exact h.apart s t ls lt x hs ht hls hlt hxs hxt
    · rw [hslots s hs] at hls
      rw [hfc] at hlt
      rw [hlone hlt, List.mem_singleton] at hxt
      exact absurd ⟨s, ls, hs, hls, hxt ▸ hxs⟩ hy.no_file
    · rw [hslots t ht] at hlt
      rw [hfc] at hls
      rw [hlone hls, List.mem_singleton] at hxs
      exact absurd ⟨t, lt, ht, hlt, hxs ▸ hxt⟩ hy.no_file
    · rfl

/-- Filling the first usable slot with an entry for a new file. -/
theorem Folder.fill (h : Folder v d c l) {k j i y : ℕ} {name : CStr}
    (hfirst : chain_hit v d free_scan l = some (k, j, i)) (hzero : (standardize_base name).headD 0 ≠ 0)
    (hdeleted : (standardize_base name).headD 0 ≠ 0xE5)
    (hvacant : ∀ s, Taken v d l s → ¬ ((slot v d s.1 s.2).name = standardize_base name ∧
      (slot v d s.1 s.2).ext = standardize_ext name))
    (hy : Spare v d l y) :
    Entered v d (fill_slot v d (k, j, i) name FAT_ATTR_ARCHIVE y 0) c l l k (16 * j + i)
      (made_entry (standardize_base name) (standardize_ext name) FAT_ATTR_ARCHIVE y 0) := by
  obtain ⟨hk, hj, hi, hfree, _⟩ := free_hit_some hfirst
  obtain ⟨front, back, hsplit, hfront, hbefore⟩ := free_hit_first hfirst
  have hslot : 16 * j + i < slots_per_cluster v := slot_index_lt hj hi
  have hin := h.dir.cells.inRange hk
  have hsame := @slot_fill_same v d k j i name FAT_ATTR_ARCHIVE y 0 hi (by decide)
  have hother : ∀ k' ∈ l, ∀ i' < slots_per_cluster v, (k', i') ≠ (k, 16 * j + i) →
      slot v (fill_slot v d (k, j, i) name FAT_ATTR_ARCHIVE y 0) k' i' = slot v d k' i' :=
    fun k' hk' i' hi' hne => slot_fill_other hin.1 (h.dir.cells.inRange hk').1 hj hi' hne
  have hword : ∀ x, v.InTable x →
      fat_word v (fill_slot v d (k, j, i) name FAT_ATTR_ARCHIVE y 0) x = fat_word v d x :=
    fun x hx => fat_word_fill h.dir.sane hx
  generalize fill_slot v d (k, j, i) name FAT_ATTR_ARCHIVE y 0 = d' at hsame hother hword ⊢
  generalize hN : 16 * j + i = n at *
  have hlt : y < 2 ^ 32 := by
    have := hy.inRange.lt_eoc
    omega
  have hfc : (slot v d' k n).first_cluster = y := by rw [hsame, made_entry_first_cluster hlt]
  have hocc : (slot v d' k n).Occupied := by
    rw [hsame]
    exact ⟨hzero, hdeleted, show FAT_ATTR_ARCHIVE ≠ FAT_ATTR_LFN by decide⟩
  have hfresh : ¬ Taken v d l (k, n) := by
    rintro ⟨_, _, h0, h1, _⟩
    exact hfree.elim h0 h1
  have htaken : ∀ s, Taken v d' l s ↔ Taken v d l s ∨ s = (k, n) := by
    rintro ⟨k', i'⟩
    by_cases heq : (k', i') = (k, n)
    · cases heq
      simpa [hfresh] using ⟨hk, hslot, hocc⟩
    · simp only [heq, or_false, Taken]
      refine and_congr_right fun hk' => and_congr_right fun hi' => ?_
      rw [hother k' hk' i' hi' heq]
  have hslots : ∀ s, Taken v d l s → slot v d' s.1 s.2 = slot v d s.1 s.2 := by
    rintro ⟨k', i'⟩ hs
    refine hother k' hs.1 i' hs.2.1 ?_
    rintro heq
    rw [heq] at hs
    exact hfresh hs
  have hcells : ∀ x lx, Cells v d' x lx ↔ Cells v d x lx := fun x lx =>
    ⟨fun hx => hx.congr_words h.dir.sane fun z hz => (hword z (hx.inRange hz).inTable).symm,
      fun hx => hx.congr_words h.dir.sane fun z hz => hword z (hx.inRange hz).inTable⟩
  have hfile : ∀ s, FileSlot v d' l s → FileSlot v d l s ∨ s = (k, n) := by
    rintro s ⟨hs, hrest⟩
    refine ((htaken s).mp hs).imp_left fun hs => ⟨hs, ?_⟩
    rwa [hslots s hs] at hrest
  have hfolder : Folder v d' c l := by
    refine ⟨⟨h.dir.sane, (hcells c l).mpr h.dir.cells, ?_, ?_, ?_, ?_⟩, ?_⟩
    · intro k' hk' i' hi'
      by_cases heq : (k', i') = (k, n)
      · cases heq
        exact fun _ _ => hocc.2.2
      · rw [hother k' hk' i' hi' heq]
        exact h.dir.no_lfn k' hk' i' hi'
    · intro s t hs ht hname hext
      rcases (htaken s).mp hs with hs | rfl <;> rcases (htaken t).mp ht with ht | rfl
      · rw [hslots s hs, hslots t ht] at hname hext
        exact h.dir.unique s t hs ht hname hext
      · rw [hslots s hs, hsame] at hname hext
        exact absurd ⟨hname, hext⟩ (hvacant s hs)
      · rw [hslots t ht, hsame] at hname hext
        exact absurd ⟨hname.symm, hext.symm⟩ (hvacant t ht)
      · rfl
    · intro s hs hdot
      rcases (htaken s).mp hs with hs | rfl
      · rw [hslots s hs] at hdot ⊢
        exact h.dir.nonzero s hs hdot
      · rw [hfc]
        exact hy.inRange.ne_zero
    · exact h.dir.tail.fill (Chain.nodup (not_inRange_eoc (v := v)) h.dir.cells) hsplit
        (fun k' hk' i' hi' => (hfront k' hk' i' hi').1) (fun i' hi' => (hbefore i' hi').1) hocc.1 hother
    · exact h.files.fill (n := (k, n)) hy hfc hfile (fun s hs => hslots s hs.1) hcells
  exact ⟨hfolder, hsame, htaken, hslots, hfresh⟩

/-- A directory with one more cluster: its slots are as before, those of the new cluster are empty. -/
structure Grown (v : Volume) (d d' : Disk) (l : List ℕ) (y : ℕ) : Prop where
  slots : ∀ k ∈ l, ∀ i < slots_per_cluster v, slot v d' k i = slot v d k i
  empty : ∀ i < slots_per_cluster v, (slot v d' y i).name0 = 0

section Grown

variable {y : ℕ} (h : Grown v d d' l y)

include h

theorem Grown.taken_iff (s : ℕ × ℕ) : Taken v d' (l ++ [y]) s ↔ Taken v d l s := by
  obtain ⟨k, i⟩ := s
  unfold Taken
  simp only [List.mem_append, List.mem_singleton]
  constructor
  · rintro ⟨hk | rfl, hi, hocc⟩
    · exact ⟨hk, hi, h.slots k hk i hi ▸ hocc⟩
    · exact absurd (h.empty i hi) hocc.1
  · rintro ⟨hk, hi, hocc⟩
    exact ⟨.inl hk, hi, (h.slots k hk i hi).symm ▸ hocc⟩

theorem Grown.slot_eq {s : ℕ × ℕ} (hs : Taken v d l s) : slot v d' s.1 s.2 = slot v d s.1 s.2 :=
  h.slots s.1 hs.1 s.2 hs.2.1

theorem Grown.fileSlot {s : ℕ × ℕ} (hs : FileSlot v d' (l ++ [y]) s) : FileSlot v d l s := by
  obtain ⟨hs, hrest⟩ := hs
  rw [h.taken_iff] at hs
  rw [h.slot_eq hs] at hrest
  exact ⟨hs, hrest⟩

theorem Grown.cleanTail (htail : CleanTail v d l) : CleanTail v d' (l ++ [y]) := by
  constructor
  · intro k hk i i' hlt hi'
    rcases List.mem_append.mp hk with hk | hk
    · rw [h.slots k hk i (by omega), h.slots k hk i' hi']
      exact htail.within k hk i i' hlt hi'
    · obtain rfl := List.mem_singleton.mp hk
      exact fun _ => h.empty i' hi'
  · rw [List.pairwise_append]
    refine ⟨htail.across.imp_of_mem fun hk hk' hR i hi i' hi' => ?_, by simp, fun k _ k' hk' i _ i' hi' _ => ?_⟩
    · rw [h.slots _ hk i hi, h.slots _ hk' i' hi']
      exact hR i hi i' hi'
    · obtain rfl := List.mem_singleton.mp hk'
      exact h.empty i' hi'

theorem Grown.directory (hdir : Directory v d c l) (hcells : Cells v d' c (l ++ [y])) : Directory v d' c (l ++ [y]) := by
  refine ⟨hdir.sane, hcells, fun k hk i hi h0 => ?_, fun s t hs ht => ?_, fun s hs => ?_, h.cleanTail hdir.tail⟩
  · rcases List.mem_append.mp hk with hk | hk
    · rw [h.slots k hk i hi] at h0 ⊢
      exact hdir.no_lfn k hk i hi h0
    · obtain rfl := List.mem_singleton.mp hk
      exact absurd (h.empty i hi) h0
  · rw [h.taken_iff] at hs ht
    rw [h.slot_eq hs, h.slot_eq ht]
    exact hdir.unique s t hs ht
  · rw [h.taken_iff] at hs
    rw [h.slot_eq hs]
    exact hdir.nonzero s hs

variable (hfiles : SeparateFiles v d l) (hkept : ∀ s lf, FileSlot v d l s → Cells v d (slot v d s.1 s.2).first_cluster lf →
  Cells v d' (slot v d s.1 s.2).first_cluster lf)

include hfiles hkept

/-- Where the files keep their chains, they have no others. -/
theorem Grown.cells_back {s : ℕ × ℕ} {lf : List ℕ} (hs : FileSlot v d l s)
    (hlf : Cells v d' (slot v d' s.1 s.2).first_cluster lf) : Cells v d (slot v d s.1 s.2).first_cluster lf := by
  obtain ⟨lf', hlf'⟩ := hfiles.chain s hs
  rw [h.slot_eq hs.1] at hlf
  rwa [Cells.unique hlf (hkept s lf' hs hlf')]

theorem Grown.inFile {z : ℕ} (hz : InFile v d' (l ++ [y]) z) : InFile v d l z := by
  obtain ⟨s, lf, hs, hlf, hz⟩ := hz
  have hs' := h.fileSlot hs
  exact ⟨s, lf, hs', h.cells_back hfiles hkept hs' hlf, hz⟩

theorem Grown.separateFiles (hnofile : ¬ InFile v d l y) : SeparateFiles v d' (l ++ [y]) := by
  refine ⟨fun s hs => ?_, fun z hz hmem => ?_, fun s t ls lt z hs ht hls hlt => ?_⟩
  · have hs' := h.fileSlot hs
    obtain ⟨lf, hlf⟩ := hfiles.chain s hs'
    rw [h.slot_eq hs'.1]
    exact ⟨lf, hkept s lf hs' hlf⟩
  · have hz' := h.inFile hfiles hkept hz
    rcases List.mem_append.mp hmem with hmem | hmem
    · exact hfiles.outside z hz' hmem
    · exact hnofile (List.mem_singleton.mp hmem ▸ hz')
  · have hs' := h.fileSlot hs
    have ht' := h.fileSlot ht
    exact hfiles.apart s t ls lt z hs' ht' (h.cells_back hfiles hkept hs' hls) (h.cells_back hfiles hkept ht' hlt)

end Grown

theorem Volume.Sane.grown (hv : v.Sane) (hl : Cells v d c l) {x y : ℕ} (hx : x ∈ l) (hy : v.InRange y) (hout : y ∉ l) :
    Grown v d (append_cluster v d x y) l y := by
  refine ⟨fun k hk i hi => slot_congr (hv.append_cluster_data (hl.inRange hx) hy (hl.inRange hk) ?_ (sector_of_slot hi)),
    fun i hi => ?_⟩
  · rintro rfl
    exact hout hk
  · unfold slot
    rw [hv.append_cluster_cleared hy (sector_of_slot hi)]
    exact dir_entry_zero_name0 _

/-- Growing the directory by a cleared cluster. -/
theorem Folder.grow (h : Folder v d c l) {x y : ℕ} (hx : x ∈ l) (hlast : get_next_cluster v d x = FAT32_EOC)
    (hy : v.InRange y) (hfree : IsFree v d y) :
    Folder v (append_cluster v d x y) c (l ++ [y]) ∧ Grown v d (append_cluster v d x y) l y ∧
      ∀ z, Spare v d l z → Spare v (append_cluster v d x y) (l ++ [y]) z := by
  have hsane := h.dir.sane
  have hin : ∀ {k}, k ∈ l → v.InRange k := fun hk => h.dir.cells.inRange hk
  have hout : y ∉ l := fun hmem => h.not_free hmem hfree
  have hnofile : ¬ InFile v d l y := fun hmem => h.file_not_free hmem hfree
  have hxy : x ≠ y := fun heq => hout (heq ▸ hx)
  have hgrown := hsane.grown h.dir.cells hx hy hout
  obtain ⟨hlink, hend, hlinks⟩ := hsane.append_links (hin hx) hy hxy d
  have hword : ∀ z, v.InTable z → z ≠ x → z ≠ y → fat_word v (append_cluster v d x y) z = fat_word v d z := by
    intro z hz hzx hzy
    rw [hsane.fat_word_append (hin hx) hy hz, if_neg hzy, if_neg hzx]
  have hkept : ∀ s lf, FileSlot v d l s → Cells v d (slot v d s.1 s.2).first_cluster lf →
      Cells v (append_cluster v d x y) (slot v d s.1 s.2).first_cluster lf := by
    intro s lf hs hlf
    refine hlf.congr_words hsane fun z hz => hword z (hlf.inRange hz).inTable ?_ ?_
    · rintro rfl
      exact h.files.outside z ⟨s, lf, hs, hlf, hz⟩ hx
    · rintro rfl
      exact hnofile ⟨s, lf, hs, hlf, hz⟩
  have hcells : Cells v (append_cluster v d x y) c (l ++ [y]) := by
    refine h.dir.cells.extend (not_inRange_eoc (v := v)) hx hlast hy hlink hend fun z hz hzx => ?_
    refine hlinks z (hin hz) hzx ?_
    rintro rfl
    exact hout hz
  refine ⟨⟨hgrown.directory h.dir hcells, hgrown.separateFiles h.files hkept hnofile⟩, hgrown, fun z hz => ?_⟩
  have hzy : z ≠ y := fun heq => hz.used (heq ▸ hfree)
  have hzx : z ≠ x := fun heq => hz.outside (heq ▸ hx)
  refine ⟨hz.inRange, (hlinks z hz.inRange hzx hzy).trans hz.link, ?_, ?_, fun hmem => ?_⟩
  · rw [isFree_congr (hword z hz.inRange.inTable hzx hzy)]
    exact hz.used
  · simp [hz.outside, hzy]
  · exact hz.no_file (hgrown.inFile h.files hkept hmem)

/-- Deleting a file: its slot and its chain are given up. -/
theorem Folder.delete (h : Folder v d c l) {k n : ℕ} {lf : List ℕ} (hfile : FileSlot v d l (k, n))
    (hlf : Cells v d (slot v d k n).first_cluster lf)
    (hdeleted : (slot v d' k n).name0 = 0xE5)
    (hother : ∀ k' ∈ l, ∀ i' < slots_per_cluster v, (k', i') ≠ (k, n) → slot v d' k' i' = slot v d k' i')
    (hword : ∀ x, v.InTable x → x ∉ lf → fat_word v d' x = fat_word v d x) :
    Folder v d' c l ∧ (∀ s, Taken v d' l s ↔ Taken v d l s ∧ s ≠ (k, n)) ∧
      ∀ s, Taken v d' l s → slot v d' s.1 s.2 = slot v d s.1 s.2 := by
  have hslots : ∀ k' ∈ l, ∀ i' < slots_per_cluster v, slot v d' k' i' = slot v d k' i' ∨
      ((slot v d' k' i').name0 = 0xE5 ∧ (slot v d k' i').name0 ≠ 0) := by
    intro k' hk' i' hi'
    by_cases heq : (k', i') = (k, n)
    · cases heq
      exact .inr ⟨hdeleted, hfile.1.2.2.1⟩
    · exact .inl (hother k' hk' i' hi' heq)
  have htaken : ∀ s, Taken v d' l s ↔ Taken v d l s ∧ s ≠ (k, n) := by
    intro s
    constructor
    · intro hs
      refine ⟨(taken_of_restrict hslots hs).2, ?_⟩
      rintro rfl
      exact hs.2.2.2.1 hdeleted
    · rintro ⟨⟨hk', hi', hocc⟩, hne⟩
      refine ⟨hk', hi', ?_⟩
      rwa [hother s.1 hk' s.2 hi' hne]
  refine ⟨(h.restrict hslots ?_ ?_).1, htaken, fun s hs => (taken_of_restrict hslots hs).1⟩
  · intro x hx
    refine hword x (h.dir.cells.inRange hx).inTable fun hmem => ?_
    exact h.files.outside x ⟨(k, n), lf, hfile, hlf, hmem⟩ hx
  · -- the chains of the other files are disjoint from the one that is freed
    intro s ls hs hls x hx
    refine hword x (hls.inRange hx).inTable fun hmem => ?_
    have heq := h.files.apart s (k, n) ls lf x (fileSlot_of_restrict hslots hs).2 hfile hls hlf hx hmem
    exact ((htaken s).mp hs.1).2 heq

end os_dev.fat32
