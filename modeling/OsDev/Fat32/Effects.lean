import OsDev.Fat32.Shape

open os_dev.ata os_dev.libc little_endian forest link_chain

namespace os_dev.fat32

variable {v : Volume} {d d' : Disk}

section Append

variable (h : WellFormed v d) {x y : ℕ} (hx : InUse v d x)
  (hlast : get_next_cluster v d x = FAT32_EOC) (hy : v.InRange y) (hfree : IsFree v d y)

include h hx hlast hy hfree

omit hlast in
theorem append_links :
    get_next_cluster v (append_cluster v d x y) x = y ∧
      get_next_cluster v (append_cluster v d x y) y = FAT32_EOC ∧
      ∀ z, InUse v d z → z ≠ x →
        get_next_cluster v (append_cluster v d x y) z = get_next_cluster v d z := by
  have hne : ∀ z, InUse v d z → z ≠ y := by
    rintro z hz rfl
    exact h.not_free hz hfree
  obtain ⟨hlink, hend, hsame⟩ := h.sane.append_links hx.inRange hy (hne x hx) d
  exact ⟨hlink, hend, fun z hz hzx => hsame z hz.inRange hzx (hne z hz)⟩

omit hlast in
theorem append_slots {k : ℕ} (hk : DirCluster v d k) {i : ℕ} (hi : i < slots_per_cluster v) :
    slot v (append_cluster v d x y) k i = slot v d k i := by
  have huse := h.inUse_of_dirCluster hk
  apply slot_congr
  apply h.sane.append_cluster_data hx.inRange hy huse.inRange _ (sector_of_slot hi)
  rintro rfl
  exact h.not_free huse hfree

omit hx hlast hfree in
theorem append_new_slots {i : ℕ} (hi : i < slots_per_cluster v) :
    (slot v (append_cluster v d x y) y i).name0 = 0 := by
  unfold slot
  rw [h.sane.append_cluster_cleared hy (sector_of_slot hi)]
  exact dir_entry_zero_name0 _

/-- The chain of every object after the change. -/
theorem append_cells {o : Option (ℕ × ℕ)} {c : ℕ} {l : List ℕ} (ho : Owns v d o c) (hl : Cells v d c l) :
    Cells v (append_cluster v d x y) c (if x ∈ l then l ++ [y] else l) := by
  obtain ⟨hlink, hend, hsame⟩ := append_links h hx hy hfree
  split
  case isTrue hmem =>
    exact hl.extend (not_inRange_eoc (v := v)) hmem hlast hy hlink hend
      fun z hz hzx => hsame z (.of_cells ho hl hz) hzx
  case isFalse hmem =>
    refine hl.congr fun z hz => hsame z (.of_cells ho hl hz) ?_
    rintro rfl
    exact hmem hz

/-- Linking a free cluster behind the last cluster of an object keeps the volume
    well formed, with the same directories. -/
theorem append_shape : WellFormed v (append_cluster v d x y) ∧
    ∀ c, LiveDir v (append_cluster v d x y) c ↔ LiveDir v d c := by
  obtain ⟨depth, hforest⟩ := h.exists_forest
  obtain ⟨hlink, hend, hsame⟩ := append_links h hx hy hfree
  have hnew : (view v (append_cluster v d x y)).Forest (LiveDir v d) depth := by
    rw [view_eq_update v d]
    refine hforest.extend hlast hy (h.not_inUse_of_free hfree) hlink hend hsame ?_ ?_
    · exact fun k i hk => view_ent_congr fun hi => append_slots h hx hy hfree hk hi
    · intro i
      simp only [view]
      split
      case isTrue hi => exact named_object_of_free (.inl (append_new_slots h hy hi))
      case isFalse => rfl
  exact wellFormed_of_forest h.sane hnew

theorem append_lists_iff (p k i : ℕ) (isDir : Bool) (c : ℕ) :
    Lists v (append_cluster v d x y) p k i isDir c ↔ Lists v d p k i isDir c := by
  have hdirs := (append_shape h hx hlast hy hfree).2
  have hent : ∀ {k}, DirCluster v d k → ∀ i,
      (view v (append_cluster v d x y)).ent k i = (view v d).ent k i :=
    fun hk i => view_ent_congr fun hi => append_slots h hx hy hfree hk hi
  constructor
  · rintro ⟨hp, ⟨l, hl, hk⟩, hslot⟩
    have hp' := (hdirs p).mp hp
    obtain ⟨o, ho⟩ := h.dir_owner hp'
    obtain ⟨l₀, hl₀⟩ := h.dir_cells hp'
    rw [Cells.unique hl (append_cells h hx hlast hy hfree ho hl₀)] at hk
    have hk₀ : k ∈ l₀ ∨ k = y := by
      split at hk
      · simpa using hk
      · exact .inl hk
    rcases hk₀ with hk₀ | rfl
    · exact ⟨hp', ⟨l₀, hl₀, hk₀⟩, (hent ⟨p, l₀, hp', hl₀, hk₀⟩ i).symm.trans hslot⟩
    · -- the slots of the new cluster are end marks
      obtain ⟨hi, hobj⟩ := view_ent_some hslot
      rw [named_object_of_free (.inl (append_new_slots h hy hi))] at hobj
      cases hobj
  · rintro ⟨hp, ⟨l, hl, hk⟩, hslot⟩
    obtain ⟨o, ho⟩ := h.dir_owner hp
    refine ⟨(hdirs p).mpr hp, ⟨_, append_cells h hx hlast hy hfree ho hl, ?_⟩,
      (hent ⟨p, l, hp, hl, hk⟩ i).trans hslot⟩
    split
    · simp [hk]
    · exact hk

theorem append_inUse {z : ℕ} (hz : InUse v (append_cluster v d x y) z) : InUse v d z ∨ z = y := by
  obtain ⟨o, c, l, ho, hl, hz⟩ := hz
  have ho' := (owns_congr (append_lists_iff h hx hlast hy hfree) o c).mp ho
  obtain ⟨l₀, hl₀⟩ := h.tidy.2.chain ho'
  rw [Cells.unique hl (append_cells h hx hlast hy hfree ho' hl₀)] at hz
  split at hz
  · rcases List.mem_append.mp hz with hz | hz
    · exact .inl ⟨o, c, l₀, ho', hl₀, hz⟩
    · exact .inr (List.mem_singleton.mp hz)
  · exact .inl ⟨o, c, l₀, ho', hl₀, hz⟩

end Append

section Insert

variable (h : WellFormed v d) {p k i y : ℕ} {l : List ℕ} {isDir : Bool} (hp : LiveDir v d p)
  (hl : Cells v d p l) (hk : k ∈ l) (hi : i < slots_per_cluster v)
  (hnone : named_object (slot v d k i) = none) (hobj : named_object (slot v d' k i) = some (isDir, y))
  (hy : v.InRange y) (hfresh : ¬ InUse v d y) (hend : get_next_cluster v d y = FAT32_EOC)
  (hempty : isDir = true → ∀ j < slots_per_cluster v, named_object (slot v d y j) = none)
  (hword : ∀ c, v.InTable c → fat_word v d' c = fat_word v d c)
  (hslots : ∀ k', v.InRange k' → ∀ i' < slots_per_cluster v, (k', i') ≠ (k, i) →
    slot v d' k' i' = slot v d k' i')

include h hp hl hk hi hnone hobj hy hfresh hend hempty hword hslots

/-- Naming a cluster that nothing uses in a free slot keeps the volume well
    formed; a new directory joins the others. -/
theorem insert_shape : WellFormed v d' ∧ ∀ c, LiveDir v d' c ↔ LiveDir v d c ∨ isDir = true ∧ c = y := by
  obtain ⟨depth, hforest⟩ := h.exists_forest
  have hlink : ∀ c, v.InRange c → get_next_cluster v d' c = get_next_cluster v d c :=
    fun c hc => h.sane.link_congr hc.inTable (hword c hc.inTable)
  have hne : ∀ j, (y, j) ≠ (k, i) := by
    intro j heq
    cases heq
    exact hfresh (h.inUse_of_dirCluster ⟨p, l, hp, hl, hk⟩)
  obtain ⟨depth', hnew⟩ := hforest.insert (get_next_cluster v d') (view v d').ent
    hp hl hk ((view_ent_of_lt hi).trans hnone) hy hfresh ((hlink y hy).trans hend)
    (fun z hz => hlink z hz.ok) ((view_ent_of_lt hi).trans hobj)
    (fun k' i' hk' hne' => view_ent_congr fun hi' =>
      hslots k' (h.inUse_of_dirCluster hk').inRange i' hi' hne')
    (by
      intro hdir j
      simp only [view]
      split
      case isTrue hj =>
        rw [hslots y hy j hj (hne j)]
        exact hempty hdir j hj
      case isFalse => rfl)
  rw [← view_eq_update v d d'] at hnew
  exact wellFormed_of_forest h.sane hnew

omit hp hl hk hi hnone hobj hy hfresh hend hempty hslots in
theorem insert_cells {o : Option (ℕ × ℕ)} {c : ℕ} {l₁ : List ℕ} (ho : Owns v d o c)
    (hl₁ : Cells v d c l₁) : Cells v d' c l₁ :=
  hl₁.congr_words h.sane fun _ hz => hword _ (InUse.of_cells ho hl₁ hz).inRange.inTable

theorem insert_lists_iff (p' k' i' : ℕ) (b : Bool) (c : ℕ) :
    Lists v d' p' k' i' b c ↔ Lists v d p' k' i' b c ∨ (p', k', i', b, c) = (p, k, i, isDir, y) := by
  have hdirs := (insert_shape h hp hl hk hi hnone hobj hy hfresh hend hempty hword hslots).2
  have hother : ∀ {k' i'}, DirCluster v d k' → (k', i') ≠ (k, i) →
      (view v d').ent k' i' = (view v d).ent k' i' :=
    fun hk' hne => view_ent_congr fun hi' => hslots _ (h.inUse_of_dirCluster hk').inRange _ hi' hne
  have hnew : ∀ {l'}, Cells v d' y l' → l' = [y] := by
    intro l' hl'
    refine Cells.unique hl' (.last hy ?_)
    exact (h.sane.link_congr hy.inTable (hword y hy.inTable)).trans hend
  constructor
  · rintro ⟨hp', ⟨l', hl', hk'⟩, hslot⟩
    rcases (hdirs p').mp hp' with hold | ⟨hdir, rfl⟩
    · obtain ⟨o, ho⟩ := h.dir_owner hold
      obtain ⟨l₀, hl₀⟩ := h.dir_cells hold
      rw [Cells.unique hl' (insert_cells h hword ho hl₀)] at hk'
      by_cases heq : (k', i') = (k, i)
      · obtain ⟨depth, hforest⟩ := h.exists_forest
        cases heq
        rw [view_ent_of_lt hi, hobj] at hslot
        cases hslot
        rw [hforest.dir_unique hold hl₀ hp hl hk' hk]
        exact .inr rfl
      · exact .inl ⟨hold, ⟨l₀, hl₀, hk'⟩, (hother ⟨p', l₀, hold, hl₀, hk'⟩ heq).symm.trans hslot⟩
    · -- a new directory lists nothing
      obtain ⟨hi', hobj'⟩ := view_ent_some hslot
      rw [hnew hl', List.mem_singleton] at hk'
      subst hk'
      rw [hslots k' hy i' hi' (by rintro heq; cases heq; exact hfresh (h.inUse_of_dirCluster ⟨p, l, hp, hl, hk⟩)),
        hempty hdir i' hi'] at hobj'
      cases hobj'
  · rintro (⟨hp', ⟨l', hl', hk'⟩, hslot⟩ | heq)
    · obtain ⟨o, ho⟩ := h.dir_owner hp'
      have hne : (k', i') ≠ (k, i) := by
        rintro heq
        cases heq
        rw [view_ent_of_lt hi, hnone] at hslot
        cases hslot
      exact ⟨(hdirs p').mpr (.inl hp'), ⟨l', insert_cells h hword ho hl', hk'⟩,
        (hother ⟨p', l', hp', hl', hk'⟩ hne).trans hslot⟩
    · cases heq
      obtain ⟨o, ho⟩ := h.dir_owner hp
      exact ⟨(hdirs p).mpr (.inl hp), ⟨l, insert_cells h hword ho hl, hk⟩, (view_ent_of_lt hi).trans hobj⟩

end Insert

section Remove

variable (h : WellFormed v d) {p k i y : ℕ} {isDir : Bool} (hlists : Lists v d p k i isDir y)
  (hnone : named_object (slot v d' k i) = none)
  (hslots : ∀ k', DirCluster v d k' → ∀ i' < slots_per_cluster v, (k', i') ≠ (k, i) →
    slot v d' k' i' = slot v d k' i')
  (hword : ∀ x, InUse v d x → ¬ (view v d).BelowCell (LiveDir v d) (k, i) x →
    fat_word v d' x = fat_word v d x)

include h hlists hnone hslots hword

/-- Clearing a slot and freeing the subtree it names keeps the volume well formed. -/
theorem remove_shape : WellFormed v d' ∧
    ∀ c, LiveDir v d' c ↔ LiveDir v d c ∧ ¬ (isDir = true ∧ (view v d).Under y c) := by
  obtain ⟨depth, hforest⟩ := h.exists_forest
  have hi : i < slots_per_cluster v := (view_ent_some hlists.2.2).1
  have hnew := hforest.remove (get_next_cluster v d') (view v d').ent hlists
    ((view_ent_of_lt hi).trans hnone)
    (fun k' i' hk' hne => view_ent_congr fun hi' => hslots k' hk' i' hi' hne)
    (fun x hx hout => h.sane.link_congr hx.ok.inTable (hword x hx hout))
  rw [← view_eq_update v d d'] at hnew
  exact wellFormed_of_forest h.sane hnew

omit hlists hnone hslots in
/-- Everything outside the removed subtree keeps its clusters. -/
theorem remove_cells {o : Option (ℕ × ℕ)} {c : ℕ} {l : List ℕ} (ho : Owns v d o c) (hl : Cells v d c l)
    (hout : ∀ s, o = some s → ¬ (view v d).Below (LiveDir v d) (k, i) s) : Cells v d' c l := by
  refine hl.congr_words h.sane fun x hx => hword x (.of_cells ho hl hx) ?_
  rintro ⟨s, c', l', hbelow, hown, hl', hx'⟩
  exact hout s (h.tidy.2.owner_unique ho hl hown hl' hx hx') hbelow

theorem remove_dir_cells {c : ℕ} {l : List ℕ} (hc : LiveDir v d' c) :
    LiveDir v d c ∧ (Cells v d' c l ↔ Cells v d c l) := by
  obtain ⟨hold, hout⟩ := ((remove_shape h hlists hnone hslots hword).2 c).mp hc
  obtain ⟨depth, hforest⟩ := h.exists_forest
  obtain ⟨o, ho, hdir⟩ := hforest.owner hold
  obtain ⟨l₀, hl₀⟩ := h.dir_cells hold
  have hl₀' : Cells v d' c l₀ := by
    refine remove_cells h hword ho hl₀ ?_
    rintro s rfl (heq | ⟨y₁, c₁, b₁, z₁, hent₁, hu₁, hl₁⟩)
    · -- the removed slot itself names `c`
      subst heq
      have hsame := hlists.2.2.symm.trans (hdir _ rfl)
      cases hsame
      exact hout ⟨rfl, .self⟩
    · have hsame := hlists.2.2.symm.trans hent₁
      cases hsame
      obtain ⟨c₂, b₂, hl₂⟩ := ho
      obtain ⟨_, ⟨l₃, hl₃, hk₃⟩, _⟩ := hl₁
      exact hout ⟨rfl, hu₁.sub hl₃ hk₃ (hdir _ rfl)⟩
  refine ⟨hold, ?_, ?_⟩
  · intro hl
    rwa [Cells.unique hl hl₀']
  · intro hl
    rwa [Cells.unique hl hl₀]

theorem remove_lists_iff (p' k' i' : ℕ) (b : Bool) (c : ℕ) :
    Lists v d' p' k' i' b c ↔
      Lists v d p' k' i' b c ∧ ¬ (view v d).Below (LiveDir v d) (k, i) (k', i') := by
  have hdirs := (remove_shape h hlists hnone hslots hword).2
  obtain ⟨depth, hforest⟩ := h.exists_forest
  have hi : i < slots_per_cluster v := (view_ent_some hlists.2.2).1
  constructor
  · rintro ⟨hp', ⟨l', hl', hk'⟩, hslot⟩
    obtain ⟨hold, hcells⟩ := @remove_dir_cells v d d' h p k i y isDir hlists hnone hslots hword p' l' hp'
    have hne : (k', i') ≠ (k, i) := by
      rintro heq
      cases heq
      rw [view_ent_of_lt hi, hnone] at hslot
      cases hslot
    have hl₀ := hcells.mp hl'
    have hold_lists : Lists v d p' k' i' b c := by
      refine ⟨hold, ⟨l', hl₀, hk'⟩, Eq.trans (Eq.symm ?_) hslot⟩
      exact view_ent_congr fun hi' => hslots k' ⟨p', l', hold, hl₀, hk'⟩ i' hi' hne
    refine ⟨hold_lists, ?_⟩
    rintro (heq | ⟨y₁, c₁, b₁, z₁, hent₁, hu₁, hl₁⟩)
    · exact hne heq
    · have hsame := hlists.2.2.symm.trans hent₁
      cases hsame
      obtain rfl := hforest.lists_dir hold_lists hl₁
      exact ((hdirs p').mp hp').2 ⟨rfl, hu₁⟩
  · rintro ⟨hold, hout⟩
    obtain ⟨hp', ⟨l', hl', hk'⟩, hslot⟩ := hold
    have hdir : LiveDir v d' p' := by
      refine (hdirs p').mpr ⟨hp', ?_⟩
      rintro ⟨rfl, hu⟩
      exact hout (.inr ⟨y, p', b, c, hlists.2.2, hu, hp', ⟨l', hl', hk'⟩, hslot⟩)
    have hcells := (@remove_dir_cells v d d' h p k i y isDir hlists hnone hslots hword p' l' hdir).2
    refine ⟨hdir, ⟨l', hcells.mpr hl', hk'⟩, Eq.trans ?_ hslot⟩
    refine view_ent_congr fun hi' => hslots k' ⟨p', l', hp', hl', hk'⟩ i' hi' ?_
    rintro heq
    exact hout (.inl heq)

end Remove

end os_dev.fat32
