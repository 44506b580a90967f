import OsDev.Lib.Fuel

open fuel

namespace walker

variable {σ : Type}

/-- A loop over records: the record at `p` is handled as long as `goes p` holds, and the next one is at `next p`. The
    handling of a record may fault or not return. -/
def walk (goes : ℕ → Prop) [DecidablePred goes] (next : ℕ → ℕ) (body : ℕ → ℕ → σ → Option σ) : ℕ → ℕ → σ → Option σ
  | 0, _, _ => none
  | fuel + 1, p, s => if goes p then body fuel p s >>= walk goes next body fuel (next p) else some s

/-- The records that a walk gets to if it is not stopped by one of them. -/
inductive Visits (goes : ℕ → Prop) (next : ℕ → ℕ) : ℕ → ℕ → Prop
  | here {p : ℕ} (hgoes : goes p) : Visits goes next p p
  | later {p q : ℕ} (hgoes : goes p) (hrest : Visits goes next (next p) q) : Visits goes next p q

variable {goes : ℕ → Prop} [DecidablePred goes] {next : ℕ → ℕ} {body : ℕ → ℕ → σ → Option σ} {p q bound : ℕ} {s s' : σ}

omit [DecidablePred goes] in
theorem Visits.stands (h : Visits goes next p q) : goes q := by
  induction h with
  | here hgoes => exact hgoes
  | later _ _ ih => exact ih

theorem walk_stop (hstop : ¬ goes p) : Returns (fun fuel => walk goes next body fuel p s) s := by
  refine .of_gt 0 fun fuel hfuel => ?_
  obtain ⟨fuel, rfl⟩ := Nat.exists_eq_succ_of_ne_zero (Nat.ne_zero_of_lt hfuel)
  rw [walk, if_neg hstop]

theorem walk_step {s₁ : σ} (hgoes : goes p) (hbody : Returns (fun fuel => body fuel p s) s₁)
    (hrest : Returns (fun fuel => walk goes next body fuel (next p) s₁) s') :
    Returns (fun fuel => walk goes next body fuel p s) s' := by
  refine (hbody.bind hrest).of_succ fun fuel => ?_
  rw [walk, if_pos hgoes]

/-- A walk below a bound that moves on at every record ends, if each record is handled. -/
theorem walk_ends (hbound : ∀ q, goes q → q < bound) (hnext : ∀ q, Visits goes next p q → q < next q)
    (hbody : ∀ q, Visits goes next p q → ∀ s, ∃ s', Returns (fun fuel => body fuel q s) s') (s : σ) :
    ∃ s', Returns (fun fuel => walk goes next body fuel p s) s' := by
  induction hleft : bound - p using Nat.strong_induction_on generalizing p s with
  | _ left ih =>
    by_cases hgoes : goes p
    · obtain ⟨s₁, hfirst⟩ := hbody p (.here hgoes) s
      have hmoves := hnext p (.here hgoes)
      have hless : bound - next p < left := by
        have := hbound p hgoes
        omega
      obtain ⟨s', hrest⟩ := ih _ hless (fun q hq => hnext q (.later hgoes hq)) (fun q hq => hbody q (.later hgoes hq)) s₁ rfl
      exact ⟨s', walk_step hgoes hfirst hrest⟩
    · exact ⟨s, walk_stop hgoes⟩

/-- A walk that ends has handled every record that it gets to. -/
theorem walk_handles {fuel : ℕ} (hvisits : Visits goes next p q) (h : walk goes next body fuel p s = some s') :
    ∃ fuel₁ s₁ s₂, body fuel₁ q s₁ = some s₂ := by
  induction hvisits generalizing fuel s with
  | here hgoes =>
    cases fuel with
    | zero => cases h
    | succ fuel =>
      rw [walk, if_pos hgoes] at h
      obtain ⟨s₁, hbody, -⟩ := Option.bind_eq_some_iff.mp h
      exact ⟨fuel, s, s₁, hbody⟩
  | later hgoes _ ih =>
    cases fuel with
    | zero => cases h
    | succ fuel =>
      rw [walk, if_pos hgoes] at h
      obtain ⟨s₁, -, hrest⟩ := Option.bind_eq_some_iff.mp h
      exact ih hrest

/-- A record that leads back to itself holds up every walk that gets to it. -/
theorem walk_diverges (hvisits : Visits goes next p q) (hnext : next q = q) (s : σ) :
    Diverges fun fuel => walk goes next body fuel p s := by
  intro fuel
  induction fuel generalizing p s with
  | zero => rfl
  | succ fuel ih =>
    have hagain : goes p ∧ Visits goes next (next p) q := by
      cases hvisits with
      | here hgoes => exact ⟨hgoes, hnext.symm ▸ .here hgoes⟩
      | later hgoes hrest => exact ⟨hgoes, hrest⟩
    simp only [walk, if_pos hagain.1]
    exact Option.bind_eq_none_iff.mpr fun s₁ _ => ih hagain.2 s₁

/-- Where records override a value, a walk that ends has the value of the last one that it gets to. -/
theorem walk_last {marked : ℕ → Prop} [DecidablePred marked] {value : ℕ → σ} {fuel : ℕ}
    (h : walk goes next (fun _ q s => some (if marked q then value q else s)) fuel p s = some s') :
    (∃ q, Visits goes next p q ∧ marked q ∧ s' = value q ∧ ∀ later, Visits goes next (next q) later → ¬ marked later) ∨
      (∀ q, Visits goes next p q → ¬ marked q) ∧ s' = s := by
  induction fuel generalizing p s with
  | zero => cases h
  | succ fuel ih =>
    rw [walk] at h
    split at h
    case isFalse hstop =>
      refine .inr ⟨fun q hq => ?_, (Option.some.inj h).symm⟩
      cases hq with
      | here hgoes => exact absurd hgoes hstop
      | later hgoes _ => exact absurd hgoes hstop
    case isTrue hgoes =>
      obtain ⟨q, hq, hmarked, hvalue, hlast⟩ | ⟨hnone, hsame⟩ := ih h
      · exact .inl ⟨q, .later hgoes hq, hmarked, hvalue, hlast⟩
      · by_cases hmarked : marked p
        · exact .inl ⟨p, .here hgoes, hmarked, hsame.trans (if_pos hmarked), hnone⟩
        · refine .inr ⟨fun q hq => ?_, hsame.trans (if_neg hmarked)⟩
          cases hq with
          | here _ => exact hmarked
          | later _ hrest => exact hnone q hrest

theorem walk_stable (hbody : ∀ p s, Stable fun fuel => body fuel p s) (p : ℕ) (s : σ) :
    Stable fun fuel => walk goes next body fuel p s := by
  intro n m a hle h
  induction n generalizing m p s with
  | zero => cases h
  | succ n ih =>
    obtain ⟨m, rfl⟩ := Nat.exists_eq_succ_of_ne_zero (Nat.ne_zero_of_lt hle)
    have hle' := Nat.le_of_succ_le_succ hle
    simp only [walk] at h ⊢
    split at h
    · obtain ⟨s₁, hfirst, hrest⟩ := Option.bind_eq_some_iff.mp h
      rw [if_pos ‹_›]
      exact Option.bind_eq_some_iff.mpr ⟨s₁, hbody p s n m s₁ hle' hfirst, ih (next p) s₁ m hle' hrest⟩
    · rw [if_neg ‹_›]
      exact h

end walker
