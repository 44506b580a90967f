import Mathlib.Logic.Function.Basic
import Mathlib.Data.Nat.ModEq

namespace line_ring

variable {α β : Type} {n top k : ℕ} {R : β → α → Prop} {ring : ℕ → β} {lines : ℕ → α} {a : α} {b : β}

/-- A ring of `n` slots holds the last `n` of the lines up to `top`, line `k` in slot `k % n`. -/
def Holds (n : ℕ) (R : β → α → Prop) (ring : ℕ → β) (lines : ℕ → α) (top : ℕ) : Prop :=
  ∀ k ≤ top, top < k + n → R (ring (k % n)) (lines k)

/-- Of the lines in the ring only the last one is in its slot. -/
theorem eq_top_of_slot_eq (hle : k ≤ top) (hin : top < k + n) (hslot : k % n = top % n) : k = top := by
  have hdvd : n ∣ top - k := (Nat.modEq_iff_dvd' hle).mp hslot
  have hzero : top - k = 0 := Nat.eq_zero_of_dvd_of_lt hdvd (by omega)
  omega

theorem holds_zero (h : R (ring 0) (lines 0)) : Holds n R ring lines 0 := by
  intro k hle _
  obtain rfl : k = 0 := by omega
  rw [Nat.zero_mod]
  exact h

/-- The last line is written over. -/
theorem Holds.rewrite (h : Holds n R ring lines top) (hb : R b a) :
    Holds n R (Function.update ring (top % n) b) (Function.update lines top a) top := by
  intro k hle hin
  by_cases htop : k = top
  · subst htop
    simpa only [Function.update_self] using hb
  · have hslot : k % n ≠ top % n := fun hslot => htop (eq_top_of_slot_eq hle hin hslot)
    rw [Function.update_of_ne hslot, Function.update_of_ne htop]
    exact h k hle hin

/-- A further line takes the slot of the oldest one. -/
theorem Holds.push (h : Holds n R ring lines top) (hb : R b (lines (top + 1))) :
    Holds n R (Function.update ring ((top + 1) % n) b) lines (top + 1) := by
  intro k hle hin
  by_cases htop : k = top + 1
  · subst htop
    simpa only [Function.update_self] using hb
  · have hslot : k % n ≠ (top + 1) % n := fun hslot => htop (eq_top_of_slot_eq hle hin hslot)
    rw [Function.update_of_ne hslot]
    exact h k (by omega) (by omega)

end line_ring
