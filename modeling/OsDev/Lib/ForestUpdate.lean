import OsDev.Lib.Forest

namespace forest

open link_chain

variable {α ι : Type} {V : View α ι} {D R : α → Prop} {depth : α → ℕ} {link' : α → α}
  {ent' : α → ι → Option (Bool × α)}

/-- The cells of the directories in `D`. -/
def View.DirCell (V : View α ι) (D : α → Prop) (k : α) : Prop := ∃ c l, D c ∧ V.Cells c l ∧ k ∈ l

/-- The cells of the objects of the store. -/
def View.Owned (V : View α ι) (D : α → Prop) (x : α) : Prop :=
  ∃ o c l, V.Owns D o c ∧ V.Cells c l ∧ x ∈ l

/-- The same store after its links and slots have changed. -/
abbrev View.update (V : View α ι) (link' : α → α) (ent' : α → ι → Option (Bool × α)) : View α ι :=
  { V with link := link', ent := ent' }

theorem View.Lists.dirCell {c k c' : α} {i : ι} {isDir : Bool} (h : V.Lists D c k i isDir c') :
    V.DirCell D k := by
  obtain ⟨hc, ⟨l, hl, hk⟩, _⟩ := h
  exact ⟨c, l, hc, hl, hk⟩

theorem View.Owned.ok {x : α} (h : V.Owned D x) : V.ok x := by
  obtain ⟨_, _, l, _, hl, hx⟩ := h
  exact hl.ok_of_mem hx

theorem View.Forest.owned_of_dirCell (h : V.Forest D depth) {k : α} (hk : V.DirCell D k) :
    V.Owned D k := by
  obtain ⟨c, l, hc, hl, hk⟩ := hk
  obtain ⟨o, ho, _⟩ := h.owner hc
  exact ⟨o, c, l, ho, hl, hk⟩

/-- Take a set `R` of directories out of a forest, together with slots that name
    them, and change the links of what no longer belongs to it. -/
theorem View.Forest.restrict (h : V.Forest D depth) (hroot : ¬ R V.root)
    (hent : ∀ k i, V.DirCell (fun c => D c ∧ ¬ R c) k → ent' k i = V.ent k i ∨ ent' k i = none)
    (hlink : ∀ o c l, V.Owns (fun c => D c ∧ ¬ R c) o c →
      (∀ slot, o = some slot → ent' slot.1 slot.2 ≠ none) → V.Cells c l → ∀ x ∈ l, link' x = V.link x)
    (hsub : ∀ c k i c', V.Lists (fun c => D c ∧ ¬ R c) c k i true c' → ent' k i ≠ none → ¬ R c')
    (howned : ∀ c k i c', V.Lists D c k i true c' → ¬ R c' → ¬ R c ∧ ent' k i ≠ none) :
    (V.update link' ent').Forest (fun c => D c ∧ ¬ R c) depth := by
  -- what a surviving slot names, it named before
  have hback : ∀ {k i}, V.DirCell (fun c => D c ∧ ¬ R c) k → ent' k i ≠ none →
      ent' k i = V.ent k i := fun hk hne => (hent _ _ hk).resolve_right hne
  have hdir : ∀ {c l}, D c ∧ ¬ R c → V.Cells c l → (V.update link' ent').Cells c l := by
    intro c l hc hl
    rcases h.owned hc.1 with rfl | ⟨c₀, k, i, hlists⟩
    · exact hl.congr (hlink none _ l rfl (by simp) hl)
    · obtain ⟨hc₀, hne⟩ := howned _ _ _ _ hlists hc.2
      refine hl.congr (hlink (some (k, i)) c l ⟨c₀, true, ⟨hlists.1, hc₀⟩, hlists.2⟩ ?_ hl)
      rintro slot hslot
      cases hslot
      exact hne
  have hcell : ∀ {c l k}, D c ∧ ¬ R c → (V.update link' ent').Cells c l → k ∈ l → V.Cells c l := by
    intro c l k hc hl _
    obtain ⟨l₀, hl₀⟩ := h.dir_chain hc.1
    rw [hl.unique h.stop (hdir hc hl₀)]
    exact hl₀
  have hlists : ∀ {c k i isDir c'}, (V.update link' ent').Lists (fun c => D c ∧ ¬ R c) c k i isDir c' →
      V.Lists (fun c => D c ∧ ¬ R c) c k i isDir c' ∧ ent' k i ≠ none := by
    rintro c k i isDir c' ⟨hc, ⟨l, hl, hk⟩, hslot⟩
    change ent' k i = some (isDir, c') at hslot
    have hl₀ := hcell hc hl hk
    have hne : ent' k i ≠ none := by simp [hslot]
    refine ⟨⟨hc, ⟨l, hl₀, hk⟩, ?_⟩, hne⟩
    rw [← hback ⟨c, l, hc, hl₀, hk⟩ hne, hslot]
  have howns : ∀ {o c}, (V.update link' ent').Owns (fun c => D c ∧ ¬ R c) o c →
      V.Owns (fun c => D c ∧ ¬ R c) o c ∧ ∀ slot, o = some slot → ent' slot.1 slot.2 ≠ none := by
    intro o c ho
    cases o with
    | none => exact ⟨ho, by simp⟩
    | some slot =>
      obtain ⟨c₀, isDir, hl⟩ := ho
      obtain ⟨hl, hne⟩ := hlists hl
      refine ⟨⟨c₀, isDir, hl⟩, ?_⟩
      rintro slot hslot
      cases hslot
      exact hne
  have hmono {o c} (ho : V.Owns (fun c => D c ∧ ¬ R c) o c) : V.Owns D o c := ho.mono fun _ hc => hc.1
  have hold : ∀ {o c l}, (V.update link' ent').Owns (fun c => D c ∧ ¬ R c) o c →
      (V.update link' ent').Cells c l → V.Cells c l := by
    intro o c l ho hl
    obtain ⟨ho', hne⟩ := howns ho
    obtain ⟨l₀, hl₀⟩ := h.tidy.chain (hmono ho')
    have hnew : (V.update link' ent').Cells c l₀ := hl₀.congr (hlink o c l₀ ho' hne hl₀)
    rw [hl.unique h.stop hnew]
    exact hl₀
  refine ⟨h.stop, ⟨?_, ?_⟩, ⟨h.root, hroot⟩, ?_, ?_, ?_⟩
  · intro o c ho
    obtain ⟨ho', hne⟩ := howns ho
    obtain ⟨l, hl⟩ := h.tidy.chain (hmono ho')
    exact ⟨l, hl.congr (hlink o c l ho' hne hl)⟩
  · intro o c l o' c' l' ho hl ho' hl' hne
    exact h.tidy.disjoint (hmono (howns ho).1) (hold ho hl) (hmono (howns ho').1) (hold ho' hl') hne
  · intro c k i c' hl
    obtain ⟨hl₀, hne⟩ := hlists hl
    obtain ⟨hc', hdepth⟩ := h.sub ⟨hl₀.1.1, hl₀.2⟩
    exact ⟨⟨hc', hsub _ _ _ _ hl₀ hne⟩, hdepth⟩
  · rintro c ⟨hc, hr⟩
    rcases h.owned hc with rfl | ⟨c₀, k, i, hl⟩
    · exact .inl rfl
    · obtain ⟨hr₀, hne⟩ := howned _ _ _ _ hl hr
      obtain ⟨hc₀, ⟨l, hcells, hk⟩, hslot⟩ := hl
      refine .inr ⟨c₀, k, i, ⟨hc₀, hr₀⟩, ⟨l, hdir ⟨hc₀, hr₀⟩ hcells, hk⟩, ?_⟩
      exact (hback ⟨c₀, l, ⟨hc₀, hr₀⟩, hcells, hk⟩ hne).trans hslot
  · obtain ⟨B, hB⟩ := h.bounded
    exact ⟨B, fun c hc => hB c hc.1⟩

/-- Changes outside the cells of the objects and the slots of the directories
    leave a forest as it is. -/
theorem View.Forest.congr (h : V.Forest D depth) (hlink : ∀ x, V.Owned D x → link' x = V.link x)
    (hent : ∀ k i, V.DirCell D k → ent' k i = V.ent k i) : (V.update link' ent').Forest D depth := by
  have hset : (fun c => D c ∧ ¬ (fun _ : α => False) c) = D := by simp
  have hres := @View.Forest.restrict α ι V D (fun _ => False) depth link' ent' h (by simp)
  rw [hset] at hres
  apply hres
  · exact fun k i hk => .inl (hent k i hk)
  · exact fun o c l ho _ hl x hx => hlink x ⟨o, c, l, ho, hl, hx⟩
  · simp
  · intro c k i c' hlists _
    rw [hent k i hlists.dirCell, hlists.2.2]
    simp

/-- Append a fresh cell without slots to the chain of one object. -/
theorem View.Forest.extend (h : V.Forest D depth) {x y : α} (hlast : V.link x = V.stop) (hok : V.ok y)
    (hfresh : ¬ V.Owned D y) (hxy : link' x = y) (hy : link' y = V.stop)
    (hlink : ∀ z, V.Owned D z → z ≠ x → link' z = V.link z)
    (hent : ∀ k i, V.DirCell D k → ent' k i = V.ent k i) (hnew : ∀ i, ent' y i = none) :
    (V.update link' ent').Forest D depth := by
  classical
  have hcells : ∀ {o₁ c₁ l₁}, V.Owns D o₁ c₁ → V.Cells c₁ l₁ →
      (V.update link' ent').Cells c₁ (if x ∈ l₁ then l₁ ++ [y] else l₁) := by
    intro o₁ c₁ l₁ ho₁ hl₁
    split
    case isTrue hmem =>
      exact hl₁.extend h.stop hmem hlast hok hxy hy
        fun z hz hzx => hlink z ⟨o₁, c₁, l₁, ho₁, hl₁, hz⟩ hzx
    case isFalse hmem =>
      refine hl₁.congr fun z hz => hlink z ⟨o₁, c₁, l₁, ho₁, hl₁, hz⟩ ?_
      rintro rfl
      exact hmem hz
  have hold : ∀ {c₁ l₁ k i}, D c₁ → (V.update link' ent').Cells c₁ l₁ → k ∈ l₁ → ent' k i ≠ none →
      ∃ l₀, V.Cells c₁ l₀ ∧ k ∈ l₀ := by
    intro c₁ l₁ k i hc₁ hl₁ hk hne
    obtain ⟨o₁, ho₁, _⟩ := h.owner hc₁
    obtain ⟨l₀, hl₀⟩ := h.tidy.chain ho₁
    refine ⟨l₀, hl₀, ?_⟩
    rw [hl₁.unique h.stop (hcells ho₁ hl₀)] at hk
    split at hk
    · rcases List.mem_append.mp hk with hk | hk
      · exact hk
      · obtain rfl := List.mem_singleton.mp hk
        exact absurd (hnew i) hne
    · exact hk
  have hlists : ∀ {c₁ k i isDir c'}, (V.update link' ent').Lists D c₁ k i isDir c' →
      V.Lists D c₁ k i isDir c' := by
    rintro c₁ k i isDir c' ⟨hc₁, ⟨l₁, hl₁, hk⟩, hslot⟩
    change ent' k i = some (isDir, c') at hslot
    obtain ⟨l₀, hl₀, hk₀⟩ := hold (i := i) hc₁ hl₁ hk (by simp [hslot])
    exact ⟨hc₁, ⟨l₀, hl₀, hk₀⟩, (hent k i ⟨c₁, l₀, hc₁, hl₀, hk₀⟩).symm.trans hslot⟩
  have howns : ∀ {o₁ c₁}, (V.update link' ent').Owns D o₁ c₁ → V.Owns D o₁ c₁ := by
    intro o₁ c₁ ho₁
    cases o₁ with
    | none => exact ho₁
    | some slot =>
      obtain ⟨c₀, isDir, hl₁⟩ := ho₁
      exact ⟨c₀, isDir, hlists hl₁⟩
  refine ⟨h.stop, ⟨?_, ?_⟩, h.root, fun hl₁ => h.sub (hlists hl₁), ?_, h.bounded⟩
  · intro o₁ c₁ ho₁
    obtain ⟨l₁, hl₁⟩ := h.tidy.chain (howns ho₁)
    exact ⟨_, hcells (howns ho₁) hl₁⟩
  · intro o₁ c₁ l₁ o₂ c₂ l₂ ho₁ hl₁ ho₂ hl₂ hne z hz₁ hz₂
    obtain ⟨m₁, hm₁⟩ := h.tidy.chain (howns ho₁)
    obtain ⟨m₂, hm₂⟩ := h.tidy.chain (howns ho₂)
    rw [hl₁.unique h.stop (hcells (howns ho₁) hm₁)] at hz₁
    rw [hl₂.unique h.stop (hcells (howns ho₂) hm₂)] at hz₂
    have hsplit : ∀ {m : List α}, z ∈ (if x ∈ m then m ++ [y] else m) → z ∈ m ∨ (x ∈ m ∧ z = y) := by
      intro m hz
      split at hz
      case isTrue hmem => exact (List.mem_append.mp hz).imp id fun hz => ⟨hmem, List.mem_singleton.mp hz⟩
      case isFalse => exact .inl hz
    have hdisj := h.tidy.disjoint (howns ho₁) hm₁ (howns ho₂) hm₂ hne
    rcases hsplit hz₁ with hz₁ | ⟨hx₁, rfl⟩ <;> rcases hsplit hz₂ with hz₂ | ⟨hx₂, hzy⟩
    · exact hdisj z hz₁ hz₂
    · exact hfresh (hzy ▸ ⟨o₁, c₁, m₁, howns ho₁, hm₁, hz₁⟩)
    · exact hfresh ⟨o₂, c₂, m₂, howns ho₂, hm₂, hz₂⟩
    · exact hdisj x hx₁ hx₂
  · intro c₁ hc₁
    refine (h.owned hc₁).imp id ?_
    rintro ⟨c₀, k, i, hc₀, ⟨l₀, hl₀, hk⟩, hslot⟩
    obtain ⟨o₀, ho₀, _⟩ := h.owner hc₀
    refine ⟨c₀, k, i, hc₀, ⟨_, hcells ho₀ hl₀, ?_⟩, (hent k i ⟨c₀, l₀, hc₀, hl₀, hk⟩).trans hslot⟩
    split
    · simp [hk]
    · exact hk

/-- Name a fresh object of one cell in an unused slot of a directory. -/
theorem View.Forest.insert (link' : α → α) (ent' : α → ι → Option (Bool × α)) (h : V.Forest D depth) {c k y : α} {i : ι} {l : List α} {isDir : Bool}
    (hc : D c) (hl : V.Cells c l) (hk : k ∈ l) (hnone : V.ent k i = none)
    (hok : V.ok y) (hfresh : ¬ V.Owned D y) (hy : link' y = V.stop)
    (hlink : ∀ z, V.Owned D z → link' z = V.link z) (hslot : ent' k i = some (isDir, y))
    (hent : ∀ k' i', V.DirCell D k' → (k', i') ≠ (k, i) → ent' k' i' = V.ent k' i')
    (hnew : isDir = true → ∀ j, ent' y j = none) :
    ∃ depth', (V.update link' ent').Forest (fun c' => D c' ∨ isDir = true ∧ c' = y) depth' := by
  classical
  have hcells : ∀ {o₁ c₁ l₁}, V.Owns D o₁ c₁ → V.Cells c₁ l₁ → (V.update link' ent').Cells c₁ l₁ :=
    fun ho₁ hl₁ => hl₁.congr fun z hz => hlink z ⟨_, _, _, ho₁, hl₁, hz⟩
  have hcellsNew : (V.update link' ent').Cells y [y] := .last hok hy
  have hdirCells : ∀ {c₁ l₁}, D c₁ → V.Cells c₁ l₁ → (V.update link' ent').Cells c₁ l₁ := by
    intro c₁ l₁ hc₁ hl₁
    obtain ⟨o₁, ho₁, _⟩ := h.owner hc₁
    exact hcells ho₁ hl₁
  have hne : ∀ {c₁}, D c₁ → c₁ ≠ y := by
    rintro c₁ hc₁ rfl
    obtain ⟨l₁, hl₁⟩ := h.dir_chain hc₁
    exact hfresh (h.owned_of_dirCell ⟨_, l₁, hc₁, hl₁, hl₁.head_mem⟩)
  -- a slot in use after the change was in use before, or is the new one
  have hlists : ∀ {c₁ k₁ i₁ b c'},
      (V.update link' ent').Lists (fun c' => D c' ∨ isDir = true ∧ c' = y) c₁ k₁ i₁ b c' →
      V.Lists D c₁ k₁ i₁ b c' ∨ ((k₁, i₁) = (k, i) ∧ c₁ = c ∧ b = isDir ∧ c' = y) := by
    rintro c₁ k₁ i₁ b c' ⟨hc₁, ⟨l₁, hl₁, hk₁⟩, hslot₁⟩
    change ent' k₁ i₁ = some (b, c') at hslot₁
    rcases hc₁ with hc₁ | ⟨hdir, rfl⟩
    · obtain ⟨l₀, hl₀⟩ := h.dir_chain hc₁
      rw [hl₁.unique h.stop (hdirCells hc₁ hl₀)] at hk₁
      by_cases heq : (k₁, i₁) = (k, i)
      · have hslots := heq
        cases heq
        rw [hslot] at hslot₁
        cases hslot₁
        exact .inr ⟨hslots, h.dir_unique hc₁ hl₀ hc hl hk₁ hk, rfl, rfl⟩
      · exact .inl ⟨hc₁, ⟨l₀, hl₀, hk₁⟩, (hent k₁ i₁ ⟨c₁, l₀, hc₁, hl₀, hk₁⟩ heq).symm.trans hslot₁⟩
    · rw [hl₁.unique h.stop hcellsNew, List.mem_singleton] at hk₁
      subst hk₁
      rw [hnew hdir] at hslot₁
      cases hslot₁
  have howns : ∀ {o₁ c₁}, (V.update link' ent').Owns (fun c' => D c' ∨ isDir = true ∧ c' = y) o₁ c₁ →
      V.Owns D o₁ c₁ ∨ (o₁ = some (k, i) ∧ c₁ = y) := by
    intro o₁ c₁ ho₁
    cases o₁ with
    | none => exact .inl ho₁
    | some slot =>
      obtain ⟨c₀, b, hl₁⟩ := ho₁
      rcases hlists hl₁ with hl₁ | ⟨heq, _, _, hc'⟩
      · exact .inl hl₁.owns
      · exact .inr ⟨congrArg some heq, hc'⟩
  refine ⟨fun c' => if c' = y then depth c + 1 else depth c', h.stop, ⟨?_, ?_⟩, .inl h.root, ?_, ?_, ?_⟩
  · intro o₁ c₁ ho₁
    rcases howns ho₁ with hw₁ | ⟨_, rfl⟩
    · obtain ⟨l₁, hl₁⟩ := h.tidy.chain hw₁
      exact ⟨l₁, hcells hw₁ hl₁⟩
    · exact ⟨_, hcellsNew⟩
  · intro o₁ c₁ l₁ o₂ c₂ l₂ ho₁ hl₁ ho₂ hl₂ hneq z hz₁ hz₂
    -- an object is an old one in its old cells, or the new one in the fresh cell
    have hwhere : ∀ {o c' l'}, (V.update link' ent').Owns (fun c' => D c' ∨ isDir = true ∧ c' = y) o c' →
        (V.update link' ent').Cells c' l' → z ∈ l' →
        (V.Owns D o c' ∧ V.Cells c' l') ∨ (o = some (k, i) ∧ z = y) := by
      intro o c' l' ho hl' hz
      rcases howns ho with ho | ⟨hslot', hcy⟩
      · obtain ⟨m, hm⟩ := h.tidy.chain ho
        rw [hl'.unique h.stop (hcells ho hm)]
        exact .inl ⟨ho, hm⟩
      · subst hcy
        rw [hl'.unique h.stop hcellsNew, List.mem_singleton] at hz
        exact .inr ⟨hslot', hz⟩
    rcases hwhere ho₁ hl₁ hz₁ with ⟨hw₁, hm₁⟩ | ⟨hs₁, hy₁⟩ <;>
      rcases hwhere ho₂ hl₂ hz₂ with ⟨hw₂, hm₂⟩ | ⟨hs₂, hy₂⟩
    · exact h.tidy.disjoint hw₁ hm₁ hw₂ hm₂ hneq z hz₁ hz₂
    · exact hfresh (hy₂ ▸ ⟨_, _, _, hw₁, hm₁, hz₁⟩)
    · exact hfresh (hy₁ ▸ ⟨_, _, _, hw₂, hm₂, hz₂⟩)
    · exact hneq (hs₁.trans hs₂.symm)
  · intro c₁ k₁ i₁ c' hl₁
    rcases hlists hl₁ with hl₁ | ⟨_, rfl, hdir, rfl⟩
    · obtain ⟨hc', hdepth⟩ := h.sub hl₁
      refine ⟨.inl hc', ?_⟩
      simp only [if_neg (hne hc'), if_neg (hne hl₁.1), hdepth]
    · exact ⟨.inr ⟨hdir.symm, rfl⟩, by simp [hne hc]⟩
  · rintro c₁ (hc₁ | ⟨hdir, rfl⟩)
    · refine (h.owned hc₁).imp id ?_
      rintro ⟨c₀, k₀, i₀, hc₀, ⟨l₀, hl₀, hk₀⟩, hslot₀⟩
      have hother : (k₀, i₀) ≠ (k, i) := by
        intro heq
        cases heq
        rw [hnone] at hslot₀
        cases hslot₀
      exact ⟨c₀, k₀, i₀, .inl hc₀, ⟨l₀, hdirCells hc₀ hl₀, hk₀⟩,
        (hent k₀ i₀ ⟨c₀, l₀, hc₀, hl₀, hk₀⟩ hother).trans hslot₀⟩
    · exact .inr ⟨c, k, i, .inl hc, ⟨l, hdirCells hc hl, hk⟩, hdir ▸ hslot⟩
  · obtain ⟨B, hB⟩ := h.bounded
    refine ⟨B + 1, ?_⟩
    rintro c₁ (hc₁ | ⟨_, rfl⟩)
    · simp only [if_neg (hne hc₁)]
      exact (hB c₁ hc₁).trans (Nat.le_succ B)
    · simp only [if_true]
      exact Nat.succ_le_succ (hB c hc)

end forest
