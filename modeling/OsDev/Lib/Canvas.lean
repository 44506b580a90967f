import Mathlib.Logic.Function.Basic
import Mathlib.Data.List.Basic

namespace canvas

variable {α β ι ω : Type} [DecidableEq α]

/-- A memory after a list of stores, the first one first. -/
def store_all (mem : α → β) (stores : List (α × β)) : α → β :=
  stores.foldl (fun mem st => Function.update mem st.1 st.2) mem

/-- Address `a` is the target of one of the stores. -/
def Touches (stores : List (α × β)) (a : α) : Prop := ∃ b, (a, b) ∈ stores

variable {mem mem' : α → β} {stores stores' : List (α × β)} {a : α}

theorem store_all_of_not_touches (h : ¬ Touches stores a) : store_all mem stores a = mem a := by
  induction stores generalizing mem with
  | nil => rfl
  | cons st stores ih =>
    have hne : a ≠ st.1 := by
      rintro rfl
      exact h ⟨st.2, List.mem_cons_self⟩
    have hrest := @ih (Function.update mem st.1 st.2) fun ⟨b, hb⟩ => h ⟨b, List.mem_cons_of_mem _ hb⟩
    exact hrest.trans (Function.update_of_ne hne _ _)

/-- What the stores leave at the addresses they touch does not depend on what was there. -/
theorem store_all_of_touches (h : Touches stores a) : store_all mem stores a = store_all mem' stores a := by
  induction stores generalizing mem mem' with
  | nil => obtain ⟨b, hb⟩ := h; cases hb
  | cons st stores ih =>
    by_cases hlater : Touches stores a
    · exact ih hlater
    · obtain ⟨b, hb⟩ := h
      have hfirst : (a, b) = st := by
        rcases List.mem_cons.mp hb with heq | hb
        · exact heq
        · exact absurd ⟨b, hb⟩ hlater
      subst hfirst
      have hkeep : ∀ m : α → β, store_all m ((a, b) :: stores) a = b := fun m =>
        (@store_all_of_not_touches _ _ _ (Function.update m a b) _ _ hlater).trans (Function.update_self a b m)
      rw [hkeep, hkeep]

/-- The stores have already been made: to make them again changes nothing. -/
def Stored (mem : α → β) (stores : List (α × β)) : Prop := store_all mem stores = mem

theorem stored_store_all : Stored (store_all mem stores) stores := by
  funext a
  by_cases h : Touches stores a
  · exact store_all_of_touches h
  · exact store_all_of_not_touches h

/-- Stores to other addresses do not undo stores. -/
theorem Stored.store_all (h : Stored mem stores) (hapart : ∀ a, Touches stores a → ¬ Touches stores' a) :
    Stored (store_all mem stores') stores := by
  funext a
  by_cases ha : Touches stores a
  · rw [@store_all_of_touches _ _ _ _ mem _ _ ha, store_all_of_not_touches (hapart a ha)]
    exact congrFun h a
  · exact store_all_of_not_touches ha

variable [DecidableEq ι] [DecidableEq ω]

/-- A memory together with the value that each cell was last drawn with. -/
@[ext] structure Canvas (α β ι ω : Type) where
  mem : α → β
  last : ι → ω

/-- Draw cell `i` with the value `w`, by the stores `draw i w`, unless it shows that
    value already. -/
def redraw (draw : ι → ω → List (α × β)) (force : Bool) (cv : Canvas α β ι ω) (cell : ι × ω) : Canvas α β ι ω :=
  if force = true ∨ cv.last cell.1 ≠ cell.2 then
    ⟨canvas.store_all cv.mem (draw cell.1 cell.2), Function.update cv.last cell.1 cell.2⟩
  else cv

def redraw_all (draw : ι → ω → List (α × β)) (force : Bool) (cv : Canvas α β ι ω) (cells : List (ι × ω)) : Canvas α β ι ω :=
  cells.foldl (redraw draw force) cv

variable {draw : ι → ω → List (α × β)} {cv : Canvas α β ι ω} {cells : List (ι × ω)} {i j : ι} {w : ω}

/-- The memory shows cell `i` with the value that it was last drawn with. -/
def Canvas.Shows (draw : ι → ω → List (α × β)) (cv : Canvas α β ι ω) (i : ι) : Prop :=
  Stored cv.mem (draw i (cv.last i))

/-- No two of the cells share an address, whatever they are drawn with. -/
def Apart (draw : ι → ω → List (α × β)) (S : ι → Prop) : Prop :=
  ∀ i j, S i → S j → i ≠ j → ∀ w w' a, Touches (draw i w) a → ¬ Touches (draw j w') a

theorem redraw_last (force : Bool) (cv : Canvas α β ι ω) (cell : ι × ω) :
    (redraw draw force cv cell).last = Function.update cv.last cell.1 cell.2 := by
  unfold redraw
  split
  case isTrue => rfl
  case isFalse h =>
    obtain ⟨_, hsame⟩ := not_or.mp h
    rw [← not_not.mp hsame, Function.update_eq_self]

theorem redraw_mem_of_ne {force : Bool} (h : cv.last i ≠ w) :
    (redraw draw force cv (i, w)).mem = canvas.store_all cv.mem (draw i w) := by
  rw [redraw, if_pos (.inr h)]

/-- Forcing a redraw makes no difference to a cell that is shown. -/
theorem redraw_force {cell : ι × ω} (h : cv.Shows draw cell.1) : redraw draw true cv cell = redraw draw false cv cell := by
  by_cases hsame : cv.last cell.1 = cell.2
  · have hstored : canvas.store_all cv.mem (draw cell.1 cell.2) = cv.mem := hsame ▸ h
    have hkept : Function.update cv.last cell.1 cell.2 = cv.last := by rw [← hsame, Function.update_eq_self]
    simp [redraw, hsame, hstored, hkept]
  · simp [redraw, hsame]

theorem redraw_shows_self {force : Bool} (h : force = true ∨ cv.Shows draw i) : (redraw draw force cv (i, w)).Shows draw i := by
  unfold redraw Canvas.Shows
  split
  case isTrue =>
    simp only [Function.update_self]
    exact stored_store_all
  case isFalse hskip =>
    exact h.resolve_left fun hforce => hskip (.inl hforce)

theorem redraw_shows_other {S : ι → Prop} (hapart : Apart draw S) (hi : S i) (hj : S j) (hne : j ≠ i)
    {force : Bool} (h : cv.Shows draw j) : (redraw draw force cv (i, w)).Shows draw j := by
  unfold redraw Canvas.Shows
  split
  case isTrue =>
    simp only [Function.update_of_ne hne]
    exact Stored.store_all h (hapart j i hj hi hne _ _)
  case isFalse => exact h

section RedrawAll

variable {S : ι → Prop} (hapart : Apart draw S) (hcells : ∀ cell ∈ cells, S cell.1)

include hapart hcells

/-- A redraw shows the cells that were shown before it, and if it is forced the ones it
    draws. -/
theorem redraw_all_shows {force : Bool} (hj : S j) (h : cv.Shows draw j ∨ force = true ∧ ∃ w, (j, w) ∈ cells) :
    (redraw_all draw force cv cells).Shows draw j := by
  induction cells generalizing cv with
  | nil =>
    obtain h | ⟨_, w, hw⟩ := h
    · exact h
    · cases hw
  | cons cell cells ih =>
    obtain ⟨i, w⟩ := cell
    have hi : S i := hcells _ List.mem_cons_self
    refine ih (fun cell hcell => hcells cell (List.mem_cons_of_mem _ hcell)) ?_
    by_cases hij : j = i
    · subst hij
      left
      exact redraw_shows_self (h.symm.imp_left And.left)
    · obtain h | ⟨hforce, w', hw'⟩ := h
      · exact .inl (redraw_shows_other hapart hi hj hij h)
      · refine .inr ⟨hforce, w', (List.mem_cons.mp hw').resolve_left fun heq => hij (congrArg Prod.fst heq)⟩

/-- A redraw that skips the unchanged cells does what a forced one does, when all cells
    are shown. -/
theorem redraw_all_force (h : ∀ i, S i → cv.Shows draw i) : redraw_all draw true cv cells = redraw_all draw false cv cells := by
  induction cells generalizing cv with
  | nil => rfl
  | cons cell cells ih =>
    have hfirst : S cell.1 := hcells _ List.mem_cons_self
    simp only [redraw_all, List.foldl_cons]
    rw [redraw_force (h _ hfirst)]
    refine ih (fun cell hcell => hcells cell (List.mem_cons_of_mem _ hcell)) fun j hj => ?_
    exact @redraw_all_shows _ _ _ _ _ _ _ _ _ [cell] _ _ hapart (by simpa using hfirst) _ hj (.inl (h j hj))

end RedrawAll

/-- A redraw of what was drawn last does nothing. -/
theorem redraw_all_same (h : ∀ cell ∈ cells, cv.last cell.1 = cell.2) : redraw_all draw false cv cells = cv := by
  induction cells with
  | nil => rfl
  | cons cell cells ih =>
    have hfirst : redraw draw false cv cell = cv := by
      simp [redraw, h cell List.mem_cons_self]
    simp only [redraw_all, List.foldl_cons, hfirst]
    exact ih fun cell hcell => h cell (List.mem_cons_of_mem _ hcell)

/-- A redraw in which only the first cell has changed. -/
theorem redraw_all_first (h : ∀ cell ∈ cells, cell.1 ≠ i ∧ cv.last cell.1 = cell.2) :
    redraw_all draw false cv ((i, w) :: cells) = redraw draw false cv (i, w) := by
  have hrest : ∀ cell ∈ cells, (redraw draw false cv (i, w)).last cell.1 = cell.2 := fun cell hcell => by
    rw [redraw_last]
    exact (Function.update_of_ne (h cell hcell).1 _ _).trans (h cell hcell).2
  exact redraw_all_same hrest

theorem redraw_all_last (force : Bool) (cv : Canvas α β ι ω) (cells : List (ι × ω)) :
    (redraw_all draw force cv cells).last = canvas.store_all cv.last cells := by
  induction cells generalizing cv with
  | nil => rfl
  | cons cell cells ih =>
    simp only [redraw_all, List.foldl_cons, canvas.store_all] at ih ⊢
    rw [ih, redraw_last]

/-- A forced redraw makes the stores of all cells. -/
theorem redraw_all_forced_mem (cv : Canvas α β ι ω) (cells : List (ι × ω)) :
    (redraw_all draw true cv cells).mem =
      canvas.store_all cv.mem (cells.flatMap fun cell => draw cell.1 cell.2) := by
  induction cells generalizing cv with
  | nil => rfl
  | cons cell cells ih =>
    have hfirst : (redraw draw true cv cell).mem = canvas.store_all cv.mem (draw cell.1 cell.2) := by
      rw [redraw, if_pos (.inl rfl)]
    simp only [redraw_all, List.foldl_cons, List.flatMap_cons] at ih ⊢
    rw [ih, hfirst, canvas.store_all, canvas.store_all, canvas.store_all, List.foldl_append]

/-- Stores that all put the value of one function leave it at every address they touch. -/
theorem store_all_of_fun {f : α → β} (h : ∀ st ∈ stores, st.2 = f st.1) (ha : Touches stores a) :
    canvas.store_all mem stores a = f a := by
  induction stores generalizing mem with
  | nil => obtain ⟨b, hb⟩ := ha; cases hb
  | cons st stores ih =>
    by_cases hlater : Touches stores a
    · exact ih (fun st' hst' => h st' (List.mem_cons_of_mem _ hst')) hlater
    · obtain ⟨b, hb⟩ := ha
      obtain rfl : (a, b) = st := (List.mem_cons.mp hb).resolve_right fun hb => hlater ⟨b, hb⟩
      have hval : b = f a := h (a, b) List.mem_cons_self
      rw [← hval]
      exact (store_all_of_not_touches hlater).trans (Function.update_self a b mem)

end canvas
