import Mathlib.Logic.Function.Basic

namespace mapped_memory

variable {V P B R : Type}

/-- A program of loads and stores at the addresses `V`. What it does next may depend on what it has loaded. -/
inductive Program (V B R : Type) where
  | done (result : R)
  | load (a : V) (next : B → Program V B R)
  | store (a : V) (value : B) (next : Program V B R)

/-- A run on a memory that has just these addresses. -/
def Program.run [DecidableEq V] : Program V B R → (V → B) → R × (V → B)
  | .done r, flat => (r, flat)
  | .load a next, flat => (next (flat a)).run flat
  | .store a value next, flat => next.run (Function.update flat a value)

/-- A run through a translation to places, with whether one may write there. The translation may itself be read from
    the memory. There is no result on a fault. -/
def Program.run_mapped [DecidableEq P] (translate : (P → B) → V → Option (P × Bool)) :
    Program V B R → (P → B) → Option (R × (P → B))
  | .done r, mem => some (r, mem)
  | .load a next, mem => do
    let (p, _) ← translate mem a
    (next (mem p)).run_mapped translate mem
  | .store a value next, mem => do
    let (p, writable) ← translate mem a
    if writable then next.run_mapped translate (Function.update mem p value) else none

/-- The accesses of a run stay in a window. -/
def Program.Within [DecidableEq V] (window : V → Prop) : Program V B R → (V → B) → Prop
  | .done _, _ => True
  | .load a next, flat => window a ∧ (next (flat a)).Within window flat
  | .store a value next, flat => window a ∧ next.Within window (Function.update flat a value)

/-- Memory that differs in the places of a window only. -/
def SameOutside (window : V → Prop) (place : V → P) (mem mem' : P → B) : Prop :=
  ∀ p, (∀ a, window a → p ≠ place a) → mem' p = mem p

/-- Each address of a window has a place of its own, and stores there do not change the translation. -/
structure Backs (translate : (P → B) → V → Option (P × Bool)) (window : V → Prop) (place : V → P) (mem : P → B) : Prop where
  mapped : ∀ a, window a → translate mem a = some (place a, true)
  apart : ∀ a a', window a → window a' → place a = place a' → a = a'
  steady : ∀ mem', SameOutside window place mem mem' → ∀ a, translate mem' a = translate mem a

/-- The memory of a window, as seen through its places. -/
def Views (window : V → Prop) (place : V → P) (mem : P → B) (flat : V → B) : Prop := ∀ a, window a → flat a = mem (place a)

variable {window : V → Prop} {place : V → P} {mem mem₁ mem₂ : P → B} {flat : V → B}
  {translate : (P → B) → V → Option (P × Bool)}

theorem SameOutside.refl : SameOutside window place mem mem := fun _ _ => rfl

theorem SameOutside.trans (h : SameOutside window place mem mem₁) (h' : SameOutside window place mem₁ mem₂) :
    SameOutside window place mem mem₂ := fun p hp => (h' p hp).trans (h p hp)

section store

variable [DecidableEq P] {a : V} {value : B}

theorem SameOutside.update (ha : window a) : SameOutside window place mem (Function.update mem (place a) value) :=
  fun _ hp => Function.update_of_ne (hp a ha) value mem

/-- A store to the window changes the memory behind it at that address only. -/
theorem Views.update [DecidableEq V] (h : Views window place mem flat) (hbacks : Backs translate window place mem)
    (ha : window a) : Views window place (Function.update mem (place a) value) (Function.update flat a value) := by
  intro a' ha'
  by_cases hsame : a' = a
  · rw [hsame, Function.update_self, Function.update_self]
  · rw [Function.update_of_ne hsame, Function.update_of_ne fun heq => hsame (hbacks.apart a' a ha' ha heq)]
    exact h a' ha'

end store

theorem Backs.congr (h : Backs translate window place mem) (hsame : SameOutside window place mem mem₁) :
    Backs translate window place mem₁ := by
  refine ⟨fun a ha => ?_, h.apart, fun mem₂ hsame₂ a => ?_⟩
  · rw [h.steady mem₁ hsame]
    exact h.mapped a ha
  · rw [h.steady mem₂ (hsame.trans hsame₂), h.steady mem₁ hsame]

/-- A program that stays in the window runs through the translation as on flat memory. -/
theorem Backs.run_mapped [DecidableEq V] [DecidableEq P] (h : Backs translate window place mem) (program : Program V B R)
    (hview : Views window place mem flat) (hin : program.Within window flat) :
    ∃ mem', program.run_mapped translate mem = some ((program.run flat).1, mem') ∧
      Views window place mem' (program.run flat).2 ∧ SameOutside window place mem mem' := by
  induction program generalizing mem flat with
  | done r => exact ⟨mem, rfl, hview, .refl⟩
  | load a next ih =>
    obtain ⟨mem', hrun, hview', hsame⟩ := ih (flat a) h hview hin.2
    refine ⟨mem', ?_, hview', hsame⟩
    rw [hview a hin.1] at hrun
    rw [Program.run_mapped, h.mapped a hin.1, Option.bind_eq_bind, Option.bind_some, Program.run, hview a hin.1]
    exact hrun
  | store a value next ih =>
    have hstored : SameOutside window place mem (Function.update mem (place a) value) := .update hin.1
    obtain ⟨mem', hrun, hview', hsame⟩ := ih (h.congr hstored) (hview.update h hin.1) hin.2
    refine ⟨mem', ?_, hview', hstored.trans hsame⟩
    rw [Program.run_mapped, h.mapped a hin.1, Option.bind_eq_bind, Option.bind_some]
    exact hrun

end mapped_memory
