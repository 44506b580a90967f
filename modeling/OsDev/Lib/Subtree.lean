import OsDev.Lib.ForestUpdate

namespace forest

open link_chain

variable {α ι : Type} {V : View α ι} {D : α → Prop} {depth : α → ℕ}

/-- The directories at or below the directory `y`. -/
inductive View.Under (V : View α ι) (y : α) : α → Prop where
  | self : V.Under y y
  | sub {c c' k : α} {l : List α} {i : ι} (dir : V.Under y c) (hcells : V.Cells c l) (hk : k ∈ l)
      (hent : V.ent k i = some (true, c')) : V.Under y c'

/-- Slot `o` names an object of the subtree that slot `s` names. -/
def View.Below (V : View α ι) (D : α → Prop) (s o : α × ι) : Prop :=
  o = s ∨ ∃ y c isDir c', V.ent s.1 s.2 = some (true, y) ∧ V.Under y c ∧ V.Lists D c o.1 o.2 isDir c'

/-- The cells of the subtree that slot `s` names. -/
def View.BelowCell (V : View α ι) (D : α → Prop) (s : α × ι) (x : α) : Prop :=
  ∃ o c l, V.Below D s o ∧ V.Owns D (some o) c ∧ V.Cells c l ∧ x ∈ l

theorem View.BelowCell.ok {s : α × ι} {x : α} (h : V.BelowCell D s x) : V.ok x := by
  obtain ⟨_, _, l, _, _, hl, hx⟩ := h
  exact hl.ok_of_mem hx

theorem View.Forest.under_mem (h : V.Forest D depth) {y c : α} (hy : D y) (hu : V.Under y c) :
    D c ∧ depth y ≤ depth c := by
  induction hu with
  | self => exact ⟨hy, le_rfl⟩
  | sub _ hcells hk hent ih =>
    obtain ⟨hc', hdepth⟩ := h.sub ⟨ih.1, ⟨_, hcells, hk⟩, hent⟩
    exact ⟨hc', by omega⟩

theorem View.Under.trans {a b c : α} (hab : V.Under a b) (hbc : V.Under b c) : V.Under a c := by
  induction hbc with
  | self => exact hab
  | sub _ hcells hk hent ih => exact .sub ih hcells hk hent

/-- A directory below `y` is `y` itself or lies below one of its subdirectories. -/
theorem View.Under.head {y c : α} (h : V.Under y c) :
    c = y ∨ ∃ k l i y', V.Cells y l ∧ k ∈ l ∧ V.ent k i = some (true, y') ∧ V.Under y' c := by
  induction h with
  | self => exact .inl rfl
  | @sub c c' k l i _ hcells hk hent ih =>
    right
    rcases ih with rfl | ⟨k₁, l₁, i₁, y₁, hcells₁, hk₁, hent₁, hunder⟩
    · exact ⟨k, l, i, c', hcells, hk, hent, .self⟩
    · exact ⟨k₁, l₁, i₁, y₁, hcells₁, hk₁, hent₁, hunder.sub hcells hk hent⟩

/-- A directory lies below one directory of each depth. -/
theorem View.Forest.under_unique (h : V.Forest D depth) {a b c : α} (ha : D a) (hb : D b)
    (hac : V.Under a c) (hbc : V.Under b c) (hdepth : depth a = depth b) : a = b := by
  induction hac with
  | self =>
    cases hbc with
    | self => rfl
    | sub dir hcells hk hent =>
      obtain ⟨hd, hle⟩ := h.under_mem hb dir
      have hsub := (h.sub ⟨hd, ⟨_, hcells, hk⟩, hent⟩).2
      omega
  | @sub c₁ c' k l i dir hcells hk hent ih =>
    obtain ⟨hd, hle⟩ := h.under_mem ha dir
    have hlists : V.Lists D c₁ k i true c' := ⟨hd, ⟨l, hcells, hk⟩, hent⟩
    cases hbc with
    | self =>
      have hsub := (h.sub hlists).2
      omega
    | @sub c₂ _ k₂ l₂ i₂ dir₂ hcells₂ hk₂ hent₂ =>
      have hd₂ := (h.under_mem hb dir₂).1
      have hlists₂ : V.Lists D c₂ k₂ i₂ true c' := ⟨hd₂, ⟨l₂, hcells₂, hk₂⟩, hent₂⟩
      cases h.tidy.slot_unique hlists.owns hlists₂.owns
      obtain rfl := h.dir_unique hd hcells hd₂ hcells₂ hk hk₂
      exact ih dir₂

/-- The directory that holds a given slot is unique. -/
theorem View.Forest.lists_dir (h : V.Forest D depth) {c c₂ k x x₂ : α} {i : ι} {b b₂ : Bool}
    (hl : V.Lists D c k i b x) (hl₂ : V.Lists D c₂ k i b₂ x₂) : c = c₂ := by
  obtain ⟨hc, ⟨l, hcells, hk⟩, _⟩ := hl
  obtain ⟨hc₂, ⟨l₂, hcells₂, hk₂⟩, _⟩ := hl₂
  exact h.dir_unique hc hcells hc₂ hcells₂ hk hk₂

/-- Two slots of one directory name disjoint subtrees. -/
theorem View.Forest.below_disjoint (h : V.Forest D depth) {y : α} {s t o : α × ι} {b b' : Bool}
    {x x' : α} (hs : V.Lists D y s.1 s.2 b x) (ht : V.Lists D y t.1 t.2 b' x') (hne : s ≠ t)
    (hos : V.Below D s o) : ¬ V.Below D t o := by
  -- an object inside one subtree does not lie in the directory of the slots itself
  have hdeep : ∀ {s : α × ι} {b x}, V.Lists D y s.1 s.2 b x → ∀ {y' c}, V.ent s.1 s.2 = some (true, y') →
      V.Under y' c → D y' ∧ depth y' = depth y + 1 ∧ depth y < depth c := by
    intro s b x hs y' c hent hu
    obtain ⟨hd, hdepth⟩ := h.sub ⟨hs.1, hs.2.1, hent⟩
    have hle := (h.under_mem hd hu).2
    exact ⟨hd, hdepth, by omega⟩
  rintro hot
  rcases hos with rfl | ⟨y₁, c₁, b₁, z₁, hent₁, hu₁, hl₁⟩
  · rcases hot with rfl | ⟨y₂, c₂, b₂, z₂, hent₂, hu₂, hl₂⟩
    · exact hne rfl
    · obtain rfl := h.lists_dir hs hl₂
      exact absurd (hdeep ht hent₂ hu₂).2.2 (lt_irrefl _)
  · rcases hot with rfl | ⟨y₂, c₂, b₂, z₂, hent₂, hu₂, hl₂⟩
    · obtain rfl := h.lists_dir ht hl₁
      exact absurd (hdeep hs hent₁ hu₁).2.2 (lt_irrefl _)
    · obtain rfl := h.lists_dir hl₁ hl₂
      obtain ⟨hd₁, hdepth₁, _⟩ := hdeep hs hent₁ hu₁
      obtain ⟨hd₂, hdepth₂, _⟩ := hdeep ht hent₂ hu₂
      obtain rfl := h.under_unique hd₁ hd₂ hu₁ hu₂ (hdepth₁.trans hdepth₂.symm)
      exact hne (Option.some.inj (h.tidy.slot_unique (View.Lists.owns ⟨hs.1, hs.2.1, hent₁⟩)
        (View.Lists.owns ⟨ht.1, ht.2.1, hent₂⟩)))

theorem View.Forest.belowCell_disjoint (h : V.Forest D depth) {y z : α} {s t : α × ι} {b b' : Bool}
    {x x' : α} (hs : V.Lists D y s.1 s.2 b x) (ht : V.Lists D y t.1 t.2 b' x') (hne : s ≠ t)
    (hz : V.BelowCell D s z) : ¬ V.BelowCell D t z := by
  rintro ⟨o', c', l', hbelow', hown', hcells', hz'⟩
  obtain ⟨o, c, l, hbelow, hown, hcells, hz⟩ := hz
  cases h.tidy.owner_unique hown hcells hown' hcells' hz hz'
  exact h.below_disjoint hs ht hne hbelow hbelow'

/-- The subtree of a slot does not contain the directory the slot lies in. -/
theorem View.Forest.not_belowCell_of_dir (h : V.Forest D depth) {y z x : α} {s : α × ι} {b : Bool}
    {l : List α} (hs : V.Lists D y s.1 s.2 b x) (hcells : V.Cells y l) (hz : z ∈ l) :
    ¬ V.BelowCell D s z := by
  rintro ⟨o, c, l', hbelow, hown, hcells', hz'⟩
  obtain ⟨rfl, hdir⟩ := h.dir_of_cell hs.1 hcells hz hown hcells' hz'
  obtain ⟨c₀, b₀, hl₀⟩ := hown
  have hdepth := (h.sub ⟨hl₀.1, hl₀.2.1, hdir⟩).2
  rcases hbelow with rfl | ⟨y₁, c₁, b₁, z₁, hent₁, hu₁, hl₁⟩
  · obtain rfl := h.lists_dir hs hl₀
    omega
  · obtain rfl := h.lists_dir hl₀ hl₁
    obtain ⟨hd, hdepth₁⟩ := h.sub ⟨hs.1, hs.2.1, hent₁⟩
    have hle := (h.under_mem hd hu₁).2
    omega

/-- The subtree of a slot of a directory is part of the directory's subtree. -/
theorem View.Lists.below_of_child {c₀ y : α} {s t o : α × ι} {b : Bool} {x : α}
    (hs : V.Lists D c₀ s.1 s.2 true y) (ht : V.Lists D y t.1 t.2 b x) (ho : V.Below D t o) :
    V.Below D s o := by
  rcases ho with rfl | ⟨y₁, c₁, b₁, z₁, hent₁, hu₁, hl₁⟩
  · exact .inr ⟨y, y, b, x, hs.2.2, .self, ht⟩
  · obtain ⟨_, ⟨l, hcells, hk⟩, _⟩ := ht
    exact .inr ⟨y, c₁, b₁, z₁, hs.2.2, (View.Under.self.sub hcells hk hent₁).trans hu₁, hl₁⟩

theorem View.Lists.belowCell_of_child {c₀ y z : α} {s t : α × ι} {b : Bool} {x : α}
    (hs : V.Lists D c₀ s.1 s.2 true y) (ht : V.Lists D y t.1 t.2 b x)
    (hz : V.BelowCell D t z) : V.BelowCell D s z := by
  obtain ⟨o, c, l, hbelow, hrest⟩ := hz
  exact ⟨o, c, l, hs.below_of_child ht hbelow, hrest⟩

theorem View.Lists.belowCell_self {c y z : α} {s : α × ι} {b : Bool} {l : List α}
    (hs : V.Lists D c s.1 s.2 b y) (hl : V.Cells y l) (hz : z ∈ l) : V.BelowCell D s z :=
  ⟨s, y, l, .inl rfl, hs.owns, hl, hz⟩

/-- Clear a slot and change the links of the subtree it named. -/
theorem View.Forest.remove (link' : α → α) (ent' : α → ι → Option (Bool × α))
    (h : V.Forest D depth) {c k y : α} {i : ι} {isDir : Bool} (hlists : V.Lists D c k i isDir y)
    (hslot : ent' k i = none)
    (hent : ∀ k' i', V.DirCell D k' → (k', i') ≠ (k, i) → ent' k' i' = V.ent k' i')
    (hlink : ∀ x, V.Owned D x → ¬ V.BelowCell D (k, i) x → link' x = V.link x) :
    (V.update link' ent').Forest (fun c' => D c' ∧ ¬ (isDir = true ∧ V.Under y c')) depth := by
  have hdir : isDir = true → D y := fun hd => (h.sub (hd ▸ hlists)).1
  have hmono : ∀ {k}, V.DirCell (fun c' => D c' ∧ ¬ (isDir = true ∧ V.Under y c')) k → V.DirCell D k := by
    rintro k ⟨c', l, hc', hl, hk⟩
    exact ⟨c', l, hc'.1, hl, hk⟩
  apply h.restrict
  · rintro ⟨hd, hu⟩
    cases hu with
    | self => exact h.ne_root hlists.owns rfl
    | sub dir hcells hk hent' =>
      exact h.ne_root (View.Lists.owns ⟨(h.under_mem (hdir hd) dir).1, ⟨_, hcells, hk⟩, hent'⟩) rfl
  · intro k' i' hk'
    by_cases heq : (k', i') = (k, i)
    · cases heq
      exact .inr hslot
    · exact .inl (hent k' i' (hmono hk') heq)
  · intro o c' l ho hne hl x hx
    have ho' : V.Owns D o c' := ho.mono fun _ hc => hc.1
    refine hlink x ⟨o, c', l, ho', hl, hx⟩ ?_
    rintro ⟨o₂, c₂, l₂, hbelow, ho₂, hl₂, hx₂⟩
    obtain rfl := h.tidy.owner_unique ho' hl ho₂ hl₂ hx hx₂
    rcases hbelow with rfl | ⟨y₁, c₁, b₁, z₁, hent₁, hu₁, hl₁⟩
    · exact hne _ rfl hslot
    · rw [hlists.2.2] at hent₁
      cases hent₁
      obtain ⟨c₃, b₃, hl₃⟩ := ho
      obtain rfl := h.lists_dir hl₁ ⟨hl₃.1.1, hl₃.2⟩
      exact hl₃.1.2 ⟨rfl, hu₁⟩
  · rintro c₁ k₁ i₁ c' hl₁ hne ⟨hd, hu⟩
    have hl₁' : V.Lists D c₁ k₁ i₁ true c' := ⟨hl₁.1.1, hl₁.2⟩
    cases hu with
    | self =>
      cases h.tidy.slot_unique hl₁'.owns hlists.owns
      exact hne hslot
    | @sub c₂ _ k₂ l₂ i₂ dir hcells hk hent₂ =>
      have hl₂ : V.Lists D c₂ k₂ i₂ true c' := ⟨(h.under_mem (hdir hd) dir).1, ⟨l₂, hcells, hk⟩, hent₂⟩
      cases h.tidy.slot_unique hl₁'.owns hl₂.owns
      obtain rfl := h.lists_dir hl₁' hl₂
      exact hl₁.1.2 ⟨hd, dir⟩
  · intro c₁ k₁ i₁ c' hl₁ hr
    refine ⟨?_, ?_⟩
    · rintro ⟨hd, hu⟩
      obtain ⟨_, ⟨l, hcells, hk⟩, hent₁⟩ := hl₁
      exact hr ⟨hd, hu.sub hcells hk hent₁⟩
    · by_cases heq : (k₁, i₁) = (k, i)
      · cases heq
        have hsame := hlists.2.2.symm.trans hl₁.2.2
        cases hsame
        exact absurd ⟨rfl, .self⟩ hr
      · rw [hent k₁ i₁ hl₁.dirCell heq, hl₁.2.2]
        simp

end forest
