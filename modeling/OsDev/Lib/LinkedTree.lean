import Mathlib.Data.List.Induction
import Mathlib.Data.Option.Basic
import Mathlib.Data.Fintype.Card
import Mathlib.Data.Finset.Prod

namespace linked_tree

variable {α ι : Type} {child child' : α → ι → Option α} {root x y t : α} {i : ι} {depth : ℕ}

/-- The node that a path of child indices leads to. -/
def follow (child : α → ι → Option α) (root : α) (path : List ι) : Option α := path.foldlM child root

@[simp] theorem follow_nil (child : α → ι → Option α) (root : α) : follow child root [] = some root := rfl

theorem follow_snoc (child : α → ι → Option α) (root : α) (path : List ι) (i : ι) :
    follow child root (path ++ [i]) = (follow child root path).bind fun t => child t i := by
  simp only [follow, List.foldlM_append, List.foldlM_cons, List.foldlM_nil, bind_pure]
  rfl

theorem follow_snoc_eq_some {path : List ι} :
    follow child root (path ++ [i]) = some t ↔ ∃ u, follow child root path = some u ∧ child u i = some t := by
  rw [follow_snoc, Option.bind_eq_some_iff]

/-- Down to a depth, no node is reached by two paths. -/
def Unshared (child : α → ι → Option α) (root : α) (depth : ℕ) : Prop :=
  ∀ p q t, p.length ≤ depth → q.length ≤ depth → follow child root p = some t → follow child root q = some t → p = q

/-- A node that is not reached down to a depth. -/
def Fresh (child : α → ι → Option α) (root : α) (depth : ℕ) (t : α) : Prop :=
  ∀ p, p.length ≤ depth → follow child root p ≠ some t

/-- Only the nodes above the last level matter. -/
theorem follow_congr (hsame : ∀ p t, p.length < depth → follow child root p = some t → child' t = child t)
    {p : List ι} (hp : p.length ≤ depth) : follow child' root p = follow child root p := by
  induction p using List.reverseRecOn with
  | nil => rfl
  | append_singleton q j ih =>
    rw [List.length_append, List.length_singleton] at hp
    rw [follow_snoc, follow_snoc, ih (by omega)]
    cases hq : follow child root q with
    | none => rfl
    | some u => simp only [Option.bind_some, hsame q u (by omega) hq]

theorem Unshared.congr (h : Unshared child root depth)
    (hsame : ∀ p t, p.length < depth → follow child root p = some t → child' t = child t) :
    Unshared child' root depth := by
  intro p q t hp hq hpt hqt
  rw [follow_congr hsame hp] at hpt
  rw [follow_congr hsame hq] at hqt
  exact h p q t hp hq hpt hqt

section link

variable [DecidableEq α] [DecidableEq ι]

/-- Hang a node under an index of another. -/
def link (child : α → ι → Option α) (x : α) (i : ι) (y : α) : α → ι → Option α :=
  fun t j => if t = x ∧ j = i then some y else child t j

theorem link_same (child : α → ι → Option α) (x : α) (i : ι) (y : α) : link child x i y x i = some y :=
  if_pos ⟨rfl, rfl⟩

theorem link_other (child : α → ι → Option α) {x : α} {i : ι} (y : α) {t : α} {j : ι} (h : ¬ (t = x ∧ j = i)) :
    link child x i y t j = child t j := if_neg h

/-- A fresh childless node under an empty index adds one path and changes no other. -/
theorem follow_link (hunshared : Unshared child root depth) {path : List ι} (hpath : path.length ≤ depth)
    (hx : follow child root path = some x) (hempty : child x i = none) (hfresh : Fresh child root depth y)
    (hchildless : ∀ j, child y j = none) {p : List ι} (hp : p.length ≤ depth) :
    follow (link child x i y) root p = some t ↔ follow child root p = some t ∨ p = path ++ [i] ∧ t = y := by
  induction p using List.reverseRecOn generalizing t with
  | nil => simp
  | append_singleton q j ih =>
    rw [List.length_append, List.length_singleton] at hp
    have hne : y ≠ x := fun heq => hfresh path hpath (heq ▸ hx)
    simp only [follow_snoc_eq_some, ih (show q.length ≤ depth by omega)]
    constructor
    · rintro ⟨u, hu | ⟨-, rfl⟩, hchild⟩
      · by_cases hlink : u = x ∧ j = i
        · obtain ⟨rfl, rfl⟩ := hlink
          rw [link_same, Option.some.injEq] at hchild
          exact .inr ⟨by rw [hunshared q path u (by omega) hpath hu hx], hchild.symm⟩
        · rw [link_other child y hlink] at hchild
          exact .inl ⟨u, hu, hchild⟩
      · rw [link_other child u (fun h => hne h.1), hchildless] at hchild
        cases hchild
    · rintro (⟨u, hu, hchild⟩ | ⟨heq, rfl⟩)
      · refine ⟨u, .inl hu, ?_⟩
        rwa [link_other]
        rintro ⟨rfl, rfl⟩
        rw [hempty] at hchild
        cases hchild
      · obtain ⟨rfl, hij⟩ := List.append_inj heq (by
          have := congrArg List.length heq
          simp only [List.length_append, List.length_singleton] at this
          omega)
        obtain rfl := List.singleton_inj.mp hij
        exact ⟨x, .inl hx, link_same child x j t⟩

theorem Unshared.link (hunshared : Unshared child root depth) {path : List ι} (hpath : path.length ≤ depth)
    (hx : follow child root path = some x) (hempty : child x i = none) (hfresh : Fresh child root depth y)
    (hchildless : ∀ j, child y j = none) : Unshared (link child x i y) root depth := by
  intro p q t hp hq hpt hqt
  rw [follow_link hunshared hpath hx hempty hfresh hchildless hp] at hpt
  rw [follow_link hunshared hpath hx hempty hfresh hchildless hq] at hqt
  obtain hpt | ⟨rfl, rfl⟩ := hpt
  · obtain hqt | ⟨-, rfl⟩ := hqt
    · exact hunshared p q t hp hq hpt hqt
    · exact absurd hpt (hfresh p hp)
  · obtain hqt | ⟨rfl, -⟩ := hqt
    · exact absurd hqt (hfresh q hq)
    · rfl

end link

section size

variable [Fintype ι] [DecidableEq ι]

/-- The paths down to a depth. -/
def paths (ι : Type) [Fintype ι] [DecidableEq ι] : ℕ → Finset (List ι)
  | 0 => {[]}
  | n + 1 => insert [] ((Finset.univ ×ˢ paths ι n).image fun step => step.1 :: step.2)

theorem mem_paths {n : ℕ} {p : List ι} : p ∈ paths ι n ↔ p.length ≤ n := by
  induction n generalizing p with
  | zero => rw [paths, Finset.mem_singleton, Nat.le_zero, List.length_eq_zero_iff]
  | succ n ih =>
    rw [paths, Finset.mem_insert, Finset.mem_image]
    cases p with
    | nil => exact iff_of_true (.inl rfl) (Nat.zero_le _)
    | cons i p =>
      rw [List.length_cons, Nat.add_le_add_iff_right, ← ih]
      constructor
      · rintro (heq | ⟨step, hstep, heq⟩)
        · cases heq
        · obtain ⟨rfl, rfl⟩ := List.cons.inj heq
          exact (Finset.mem_product.mp hstep).2
      · exact fun hp => .inr ⟨(i, p), Finset.mem_product.mpr ⟨Finset.mem_univ i, hp⟩, rfl⟩

theorem card_paths_succ_le (n : ℕ) : (paths ι (n + 1)).card ≤ Fintype.card ι * (paths ι n).card + 1 := by
  refine (Finset.card_insert_le _ _).trans (Nat.add_le_add_right (Finset.card_image_le.trans ?_) 1)
  rw [Finset.card_product, Finset.card_univ]

/-- The paths that lead to a node. -/
def nodes (child : α → ι → Option α) (root : α) (depth : ℕ) : Finset (List ι) :=
  (paths ι depth).filter fun p => (follow child root p).isSome

theorem mem_nodes {p : List ι} :
    p ∈ nodes child root depth ↔ p.length ≤ depth ∧ ∃ t, follow child root p = some t := by
  rw [nodes, Finset.mem_filter, mem_paths, Option.isSome_iff_exists]

theorem card_nodes_le (child : α → ι → Option α) (root : α) (depth : ℕ) :
    (nodes child root depth).card ≤ (paths ι depth).card := Finset.card_filter_le _ _

theorem nodes_congr (h : ∀ p, p.length ≤ depth → follow child' root p = follow child root p) :
    nodes child' root depth = nodes child root depth := by
  ext p
  rw [mem_nodes, mem_nodes]
  exact and_congr_right fun hp => by rw [h p hp]

/-- Where a new node comes in, the tree has one more. -/
theorem card_nodes_succ_le {path : List ι} (hpath : path.length ≤ depth) (hnone : follow child root path = none)
    (hfollow : ∀ p u, p.length ≤ depth → (follow child' root p = some u ↔ follow child root p = some u ∨ p = path ∧ u = t)) :
    (nodes child root depth).card + 1 ≤ (nodes child' root depth).card := by
  have hnew : path ∉ nodes child root depth := by
    intro hmem
    obtain ⟨-, u, hu⟩ := mem_nodes.mp hmem
    rw [hnone] at hu
    cases hu
  rw [← Finset.card_insert_of_notMem hnew]
  refine Finset.card_le_card fun p hp => mem_nodes.mpr ?_
  obtain rfl | hp := Finset.mem_insert.mp hp
  · exact ⟨hpath, t, (hfollow p t hpath).mpr (.inr ⟨rfl, rfl⟩)⟩
  · obtain ⟨hlen, u, hu⟩ := mem_nodes.mp hp
    exact ⟨hlen, u, (hfollow p u hlen).mpr (.inl hu)⟩

end size

end linked_tree
