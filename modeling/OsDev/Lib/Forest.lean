import OsDev.Lib.LinkChain
import Mathlib.Data.Fintype.Card
import Mathlib.Data.Set.Finite.Basic

namespace forest

open link_chain

/-- A store of linked cells some of which hold directory slots: the link of each
    cell, and for a slot in use whether it names a directory and the first cell
    of what it names. -/
structure View (α ι : Type) where
  root : α
  stop : α
  ok : α → Prop
  link : α → α
  ent : α → ι → Option (Bool × α)

variable {α ι : Type}

/-- The cells that store the object with a given first cell. -/
abbrev View.Cells (V : View α ι) : α → List α → Prop := Chain V.ok V.link V.stop

/-- The directories reachable from the root, with their nesting depth. -/
inductive View.Reach (V : View α ι) : ℕ → α → Prop where
  | root : V.Reach 0 V.root
  | sub {n : ℕ} {c c' k : α} {l : List α} {i : ι} (dir : V.Reach n c) (hcells : V.Cells c l)
      (hk : k ∈ l) (hent : V.ent k i = some (true, c')) : V.Reach (n + 1) c'

/-- A directory reachable at some depth. -/
def View.Reachable (V : View α ι) (c : α) : Prop := ∃ n, V.Reach n c

/-- Slot `i` of cell `k` belongs to the directory `c`, a member of `D`, and names
    an object with first cell `c'`. -/
def View.Lists (V : View α ι) (D : α → Prop) (c k : α) (i : ι) (isDir : Bool) (c' : α) : Prop :=
  D c ∧ (∃ l, V.Cells c l ∧ k ∈ l) ∧ V.ent k i = some (isDir, c')

/-- The objects of the store and their first cells: the root, which no slot
    names, and whatever the slots of the directories in `D` name. -/
def View.Owns (V : View α ι) (D : α → Prop) : Option (α × ι) → α → Prop
  | none, c' => c' = V.root
  | some (k, i), c' => ∃ c isDir, V.Lists D c k i isDir c'

/-- Every object is stored in a chain of cells, and different objects share no cell. -/
structure View.Tidy (V : View α ι) (D : α → Prop) : Prop where
  chain : ∀ {o c}, V.Owns D o c → ∃ l, V.Cells c l
  disjoint : ∀ {o c l o' c' l'}, V.Owns D o c → V.Cells c l → V.Owns D o' c' → V.Cells c' l' →
    o ≠ o' → ∀ x ∈ l, x ∉ l'

/-- The reachable part of the store is tidy. -/
def View.WellFormed (V : View α ι) : Prop := ¬ V.ok V.stop ∧ V.Tidy V.Reachable

/-- A set `D` of directories, closed under subdirectories, that forms a forest
    of bounded depth below the root. -/
structure View.Forest (V : View α ι) (D : α → Prop) (depth : α → ℕ) : Prop where
  stop : ¬ V.ok V.stop
  tidy : V.Tidy D
  root : D V.root
  sub : ∀ {c k i c'}, V.Lists D c k i true c' → D c' ∧ depth c' = depth c + 1
  owned : ∀ {c}, D c → c = V.root ∨ ∃ c₀ k i, V.Lists D c₀ k i true c
  bounded : ∃ B, ∀ c, D c → depth c ≤ B

variable {V V' : View α ι} {D : α → Prop} {depth : α → ℕ}

theorem View.Lists.owns {c k c' : α} {i : ι} {isDir : Bool} (h : V.Lists D c k i isDir c') :
    V.Owns D (some (k, i)) c' := ⟨c, isDir, h⟩

/-- An object has one first cell. -/
theorem View.Owns.unique {o : Option (α × ι)} {c c' : α} (h : V.Owns D o c) (h' : V.Owns D o c') :
    c = c' := by
  cases o with
  | none => exact h.trans h'.symm
  | some slot =>
    obtain ⟨_, _, _, _, hent⟩ := h
    obtain ⟨_, _, _, _, hent'⟩ := h'
    rw [hent] at hent'
    exact (Prod.mk.inj (Option.some.inj hent')).2

theorem View.Tidy.owner_unique (h : V.Tidy D) {o o' : Option (α × ι)} {c c' x : α} {l l' : List α}
    (ho : V.Owns D o c) (hl : V.Cells c l) (ho' : V.Owns D o' c') (hl' : V.Cells c' l')
    (hx : x ∈ l) (hx' : x ∈ l') : o = o' := by
  by_contra hne
  exact h.disjoint ho hl ho' hl' hne x hx hx'

theorem View.Forest.owner (h : V.Forest D depth) {c : α} (hc : D c) :
    ∃ o, V.Owns D o c ∧ ∀ slot, o = some slot → V.ent slot.1 slot.2 = some (true, c) := by
  rcases h.owned hc with rfl | ⟨c₀, k, i, hlists⟩
  · exact ⟨none, rfl, by simp⟩
  · refine ⟨some (k, i), hlists.owns, ?_⟩
    rintro slot hslot
    cases hslot
    exact hlists.2.2

theorem View.Forest.dir_chain (h : V.Forest D depth) {c : α} (hc : D c) : ∃ l, V.Cells c l := by
  obtain ⟨o, ho, _⟩ := h.owner hc
  exact h.tidy.chain ho

/-- A cell belongs to at most one directory. -/
theorem View.Forest.dir_unique (h : V.Forest D depth) {c c' x : α} {l l' : List α}
    (hc : D c) (hl : V.Cells c l) (hc' : D c') (hl' : V.Cells c' l')
    (hx : x ∈ l) (hx' : x ∈ l') : c = c' := by
  obtain ⟨o, ho, _⟩ := h.owner hc
  obtain ⟨o', ho', _⟩ := h.owner hc'
  have heq := h.tidy.owner_unique ho hl ho' hl' hx hx'
  subst heq
  exact ho.unique ho'

/-- A cell that stores a directory stores nothing else: whatever owns it is that
    directory's own slot, and says so. -/
theorem View.Forest.dir_of_cell (h : V.Forest D depth) {c c' x : α} {l l' : List α} {k : α} {i : ι}
    (hc : D c) (hl : V.Cells c l) (hx : x ∈ l) (ho : V.Owns D (some (k, i)) c') (hl' : V.Cells c' l')
    (hx' : x ∈ l') : c = c' ∧ V.ent k i = some (true, c) := by
  obtain ⟨o, hown, hdir⟩ := h.owner hc
  have heq := h.tidy.owner_unique hown hl ho hl' hx hx'
  subst heq
  exact ⟨hown.unique ho, hdir _ rfl⟩

/-- No slot names the root. -/
theorem View.Forest.ne_root (h : V.Forest D depth) {k c : α} {i : ι}
    (ho : V.Owns D (some (k, i)) c) : c ≠ V.root := by
  rintro rfl
  obtain ⟨l, hl⟩ := h.tidy.chain ho
  have hroot : V.Owns D none V.root := rfl
  exact h.tidy.disjoint ho hl hroot hl (by simp) _ hl.head_mem hl.head_mem

/-- Two slots that name the same first cell are the same slot. -/
theorem View.Tidy.slot_unique (h : V.Tidy D) {o o' : Option (α × ι)} {c : α}
    (ho : V.Owns D o c) (ho' : V.Owns D o' c) : o = o' := by
  obtain ⟨l, hl⟩ := h.chain ho
  exact h.owner_unique ho hl ho' hl hl.head_mem hl.head_mem

/-- Every reachable directory is in every forest. -/
theorem View.Forest.of_reach (h : V.Forest D depth) {n : ℕ} {c : α} (hreach : V.Reach n c) : D c := by
  induction hreach with
  | root => exact h.root
  | sub _ hcells hk hent ih => exact (h.sub ⟨ih, ⟨_, hcells, hk⟩, hent⟩).1

theorem View.Owns.mono {E : α → Prop} (hsub : ∀ c, D c → E c) {o : Option (α × ι)} {c : α}
    (h : V.Owns D o c) : V.Owns E o c := by
  cases o with
  | none => exact h
  | some slot =>
    obtain ⟨c₀, b, hd, hcell, hent⟩ := h
    exact ⟨c₀, b, hsub _ hd, hcell, hent⟩

/-- The directories of any forest contain a well-formed reachable part. -/
theorem View.Forest.wellFormed (h : V.Forest D depth) : V.WellFormed := by
  have hsub : ∀ c, V.Reachable c → D c := fun c ⟨_, hreach⟩ => h.of_reach hreach
  refine ⟨h.stop, fun ho => h.tidy.chain (ho.mono hsub), ?_⟩
  intro o c l o' c' l' ho hl ho' hl' hne
  exact h.tidy.disjoint (ho.mono hsub) hl (ho'.mono hsub) hl' hne

theorem View.Reach.lists {n : ℕ} {c c' k : α} {l : List α} {i : ι} (dir : V.Reach n c)
    (hcells : V.Cells c l) (hk : k ∈ l) (hent : V.ent k i = some (true, c')) :
    V.Lists V.Reachable c k i true c' := ⟨⟨n, dir⟩, ⟨l, hcells, hk⟩, hent⟩

/-- The owner of a reachable directory. -/
theorem View.Reach.owner {n : ℕ} {c : α} (h : V.Reach n c) :
    ∃ o, V.Owns V.Reachable o c := by
  cases h with
  | root => exact ⟨none, rfl⟩
  | sub dir hcells hk hent => exact ⟨some (_, _), (dir.lists hcells hk hent).owns⟩

/-- In a well-formed store every directory has one depth: its slot is unique and
    so is the directory that holds this slot. -/
theorem View.Reach.depth_unique (hwf : V.WellFormed) {n m : ℕ} {c : α}
    (hn : V.Reach n c) (hm : V.Reach m c) : n = m := by
  have htidy := hwf.2
  have hroot {n : ℕ} {c k : α} {l : List α} {i : ι} (dir : V.Reach n c) (hcells : V.Cells c l)
      (hk : k ∈ l) (hent : V.ent k i = some (true, V.root)) : False := by
    have hnone : V.Owns V.Reachable none V.root := rfl
    cases htidy.slot_unique (dir.lists hcells hk hent).owns hnone
  induction hn generalizing m with
  | root =>
    cases hm with
    | root => rfl
    | sub dir hcells hk hent => exact (hroot dir hcells hk hent).elim
  | @sub n c c' k l i dir hcells hk hent ih =>
    cases hm with
    | root => exact (hroot dir hcells hk hent).elim
    | @sub m c₂ _ k₂ l₂ i₂ dir₂ hcells₂ hk₂ hent₂ =>
      cases htidy.slot_unique (dir.lists hcells hk hent).owns (dir₂.lists hcells₂ hk₂ hent₂).owns
      obtain ⟨o, ho⟩ := dir.owner
      obtain ⟨o₂, ho₂⟩ := dir₂.owner
      have howner := htidy.owner_unique ho hcells ho₂ hcells₂ hk hk₂
      subst howner
      have hdir := ho.unique ho₂
      subst hdir
      rw [ih dir₂]

/-- Every directory has ancestors at all smaller depths. -/
theorem View.Reach.ancestor {n m : ℕ} {c : α} (h : V.Reach n c) (hm : m ≤ n) : ∃ c', V.Reach m c' := by
  induction h with
  | root =>
    obtain rfl := Nat.le_zero.mp hm
    exact ⟨_, .root⟩
  | @sub n _ _ _ _ _ dir hcells hk hent ih =>
    rcases Nat.le_succ_iff.mp hm with hm | rfl
    · exact ih hm
    · exact ⟨_, .sub dir hcells hk hent⟩

/-- With finitely many cells the nesting is bounded: the ancestors of a directory
    have different depths, hence different first cells. -/
theorem View.Reach.depth_lt (hwf : V.WellFormed) {cells : Finset α} (hfinite : ∀ c, V.ok c → c ∈ cells)
    {n : ℕ} {c : α} (h : V.Reach n c) : n < cells.card := by
  have hanc : ∀ m : Fin (n + 1), ∃ c', V.Reach m c' := fun m => h.ancestor (Nat.le_of_lt_succ m.isLt)
  choose f hf using hanc
  have hmem : ∀ m, f m ∈ cells := by
    intro m
    obtain ⟨o, ho⟩ := (hf m).owner
    obtain ⟨l, hl⟩ := hwf.2.chain ho
    exact hfinite _ hl.ok_head
  have hinj : Function.Injective f := by
    intro a b hab
    exact Fin.ext ((hf a).depth_unique hwf (hab ▸ hf b))
  have hcard := Finset.card_le_card_of_injOn (s := Finset.univ) f (fun m _ => hmem m) hinj.injOn
  simp only [Finset.card_univ, Fintype.card_fin] at hcard
  omega

/-- The directories of a forest are exactly the reachable ones: following the
    owners up, the depth decreases to the root. -/
theorem View.Forest.eq_reachable (h : V.Forest D depth) : D = V.Reachable := by
  have hreach : ∀ n c, depth c = n → D c → V.Reachable c := by
    intro n
    induction n using Nat.strong_induction_on with
    | _ n ih =>
      intro c hn hc
      rcases h.owned hc with rfl | ⟨c₀, k, i, hlists⟩
      · exact ⟨0, .root⟩
      · have hdepth := (h.sub hlists).2
        obtain ⟨hc₀, ⟨l, hl, hk⟩, hent⟩ := hlists
        obtain ⟨m, hm⟩ := ih (depth c₀) (by omega) c₀ rfl hc₀
        exact ⟨m + 1, .sub hm hl hk hent⟩
  funext c
  exact propext ⟨hreach _ c rfl, fun ⟨_, hm⟩ => h.of_reach hm⟩

/-- A well-formed store with finitely many cells is a forest of its reachable
    directories. -/
theorem View.WellFormed.exists_forest (hwf : V.WellFormed) {cells : Finset α}
    (hfinite : ∀ c, V.ok c → c ∈ cells) :
    ∃ depth, V.Forest V.Reachable depth := by
  classical
  refine ⟨fun c => if h : V.Reachable c then h.choose else 0, hwf.1, hwf.2, ⟨0, .root⟩, ?_, ?_,
    ⟨cells.card, ?_⟩⟩
  · rintro c k i c' ⟨⟨n, hreach⟩, ⟨l, hcells, hk⟩, hent⟩
    have hsub : V.Reach (n + 1) c' := .sub hreach hcells hk hent
    have hc : V.Reachable c := ⟨n, hreach⟩
    have hc' : V.Reachable c' := ⟨_, hsub⟩
    refine ⟨hc', ?_⟩
    simp only [dif_pos hc, dif_pos hc']
    rw [hc.choose_spec.depth_unique hwf hreach, hc'.choose_spec.depth_unique hwf hsub]
  · rintro c ⟨n, hreach⟩
    cases hreach with
    | root => exact .inl rfl
    | sub dir hcells hk hent => exact .inr ⟨_, _, _, dir.lists hcells hk hent⟩
  · rintro c ⟨n, hreach⟩
    have hc : V.Reachable c := ⟨n, hreach⟩
    simp only [dif_pos hc]
    exact (hc.choose_spec.depth_lt hwf hfinite).le

end forest
