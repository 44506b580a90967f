import Mathlib.Data.Nat.Find

namespace countdown

/-- `while (again(k) && timeout--);` with a counter below `size` that wraps around: the number of the next test
    and what is left of the counter. -/
def poll (again : ℕ → Bool) (size : ℕ) : ℕ → ℕ → ℕ × ℕ
  | 0, k => (k + 1, if again k then size - 1 else 0)
  | timeout + 1, k => if again k then poll again size timeout (k + 1) else (k + 1, timeout + 1)

variable {again : ℕ → Bool} {size timeout k i : ℕ}

/-- The loop ends with the first test that fails. -/
theorem poll_of_first (hle : i ≤ timeout) (hbefore : ∀ j < i, again (k + j) = true) (hstop : again (k + i) = false) :
    poll again size timeout k = (k + i + 1, timeout - i) := by
  induction i generalizing k timeout with
  | zero =>
    rw [Nat.add_zero] at hstop
    cases timeout with
    | zero => rw [poll, hstop]; rfl
    | succ timeout => rw [poll, hstop]; rfl
  | succ i ih =>
    obtain ⟨timeout, rfl⟩ := Nat.exists_eq_succ_of_ne_zero (Nat.ne_zero_of_lt hle)
    have hhere := hbefore 0 (Nat.succ_pos i)
    have hnext : ∀ j < i, again (k + 1 + j) = true := by
      intro j hj
      rw [Nat.add_assoc, Nat.add_comm 1 j]
      exact hbefore (j + 1) (Nat.succ_lt_succ hj)
    have hshift : k + 1 + i = k + (i + 1) := by rw [Nat.add_assoc, Nat.add_comm 1 i]
    rw [Nat.add_zero] at hhere
    rw [poll, if_pos hhere, ih (Nat.le_of_succ_le_succ hle) hnext (by rw [hshift]; exact hstop), hshift,
      Nat.succ_sub_succ]

/-- Without one, the counter has gone below zero. -/
theorem poll_of_never (hnever : ∀ j ≤ timeout, again (k + j) = true) :
    poll again size timeout k = (k + timeout + 1, size - 1) := by
  induction timeout generalizing k with
  | zero =>
    have hhere := hnever 0 (Nat.le_refl 0)
    rw [Nat.add_zero] at hhere
    rw [poll, if_pos hhere, Nat.add_zero]
  | succ timeout ih =>
    have hhere := hnever 0 (Nat.zero_le _)
    have hnext : ∀ j ≤ timeout, again (k + 1 + j) = true := by
      intro j hj
      rw [Nat.add_assoc, Nat.add_comm 1 j]
      exact hnever (j + 1) (Nat.succ_le_succ hj)
    rw [Nat.add_zero] at hhere
    rw [poll, if_pos hhere, ih hnext, Nat.add_assoc k 1, Nat.add_comm 1 timeout]

/-- The two ways out of the loop. -/
theorem poll_cases (again : ℕ → Bool) (size timeout k : ℕ) :
    (∃ i ≤ timeout, (∀ j < i, again (k + j) = true) ∧ again (k + i) = false ∧
      poll again size timeout k = (k + i + 1, timeout - i)) ∨
    ((∀ j ≤ timeout, again (k + j) = true) ∧ poll again size timeout k = (k + timeout + 1, size - 1)) := by
  by_cases hnever : ∀ j ≤ timeout, again (k + j) = true
  · exact .inr ⟨hnever, poll_of_never hnever⟩
  · simp only [not_forall, Bool.not_eq_true] at hnever
    obtain ⟨hle, hstop⟩ := Nat.find_spec hnever
    refine .inl ⟨Nat.find hnever, hle, ?_⟩
    have hbefore : ∀ j < Nat.find hnever, again (k + j) = true := by
      intro j hj
      by_contra hfails
      rw [Bool.not_eq_true] at hfails
      exact Nat.find_min hnever hj ⟨Nat.le_trans (Nat.le_of_lt hj) hle, hfails⟩
    exact ⟨hbefore, hstop, poll_of_first hle hbefore hstop⟩

end countdown
