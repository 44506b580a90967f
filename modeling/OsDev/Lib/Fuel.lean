import Mathlib.Order.Filter.AtTopBot.Basic

namespace fuel

open Filter

variable {α β : Type}

/-- A computation whose loops are cut off after `fuel` rounds ends with the
    result `a`: every large enough bound gives it. -/
def Returns (f : ℕ → Option α) (a : α) : Prop := ∀ᶠ fuel in atTop, f fuel = some a

/-- A computation that no bound ever sees ending. -/
def Diverges (f : ℕ → Option α) : Prop := ∀ fuel, f fuel = none

theorem Returns.unique {f : ℕ → Option α} {a b : α} (ha : Returns f a) (hb : Returns f b) : a = b := by
  obtain ⟨fuel, h₁, h₂⟩ := (ha.and hb).exists
  exact Option.some.inj (h₁.symm.trans h₂)

theorem Returns.not_diverges {f : ℕ → Option α} {a : α} (h : Returns f a) : ¬ Diverges f := by
  intro hdiv
  obtain ⟨fuel, heq⟩ := h.exists
  rw [hdiv fuel] at heq
  cases heq

theorem Returns.of_forall {f : ℕ → Option α} {a : α} (h : ∀ fuel, f fuel = some a) : Returns f a :=
  Filter.Eventually.of_forall h

theorem Returns.of_gt {f : ℕ → Option α} {a : α} (n : ℕ) (h : ∀ fuel, n < fuel → f fuel = some a) :
    Returns f a := by
  filter_upwards [eventually_gt_atTop n] with fuel hfuel
  exact h fuel hfuel

/-- A recursion that spends one unit of fuel on the call. -/
theorem Returns.of_succ {f g : ℕ → Option α} {a : α} (h : Returns g a) (hstep : ∀ fuel, f (fuel + 1) = g fuel) :
    Returns f a := by
  obtain ⟨n, hn⟩ := eventually_atTop.mp h
  refine .of_gt n fun fuel hfuel => ?_
  obtain ⟨fuel, rfl⟩ := Nat.exists_eq_succ_of_ne_zero (Nat.ne_zero_of_lt hfuel)
  exact (hstep fuel).trans (hn fuel (Nat.le_of_lt_succ hfuel))

theorem Returns.congr {f g : ℕ → Option α} {a : α} (h : Returns f a)
    (hsame : ∀ fuel, f fuel = some a → g fuel = some a) : Returns g a := by
  filter_upwards [h] with fuel hfuel
  exact hsame fuel hfuel

/-- Sequencing: the second computation may use the result of the first. -/
theorem Returns.bind {f : ℕ → Option α} {g : ℕ → α → Option β} {a : α} {b : β} (hf : Returns f a)
    (hg : Returns (fun fuel => g fuel a) b) : Returns (fun fuel => f fuel >>= g fuel) b := by
  filter_upwards [hf, hg] with fuel h₁ h₂
  rw [h₁]
  exact h₂

theorem Returns.map {f : ℕ → Option α} {a : α} (hf : Returns f a) (g : α → β) :
    Returns (fun fuel => (f fuel).map g) (g a) := by
  filter_upwards [hf] with fuel h
  rw [h, Option.map_some]

/-- More fuel never changes a result. -/
def Stable (f : ℕ → Option α) : Prop := ∀ n m a, n ≤ m → f n = some a → f m = some a

theorem Stable.const (x : Option α) : Stable fun _ => x := fun _ _ _ _ h => h

theorem Stable.bind {f : ℕ → Option α} {g : ℕ → α → Option β} (hf : Stable f)
    (hg : ∀ a, Stable fun fuel => g fuel a) : Stable fun fuel => f fuel >>= g fuel := by
  intro n m b hle h
  obtain ⟨a, ha, hb⟩ := Option.bind_eq_some_iff.mp h
  change f m >>= g m = some b
  rw [hf n m a hle ha]
  exact hg a n m b hle hb

theorem Stable.ite {f g : ℕ → Option α} (p : Prop) [Decidable p] (hf : Stable f) (hg : Stable g) :
    Stable fun fuel => if p then f fuel else g fuel := by
  by_cases hp : p
  · simpa only [if_pos hp] using hf
  · simpa only [if_neg hp] using hg

theorem Stable.map {f : ℕ → Option α} (hf : Stable f) (g : α → β) : Stable fun fuel => (f fuel).map g := by
  intro n m b hle h
  obtain ⟨a, ha, rfl⟩ := Option.map_eq_some_iff.mp h
  simp only [hf n m a hle ha, Option.map_some]

theorem Stable.returns {f : ℕ → Option α} (hf : Stable f) {n : ℕ} {a : α} (h : f n = some a) : Returns f a := by
  filter_upwards [eventually_ge_atTop n] with fuel hfuel
  exact hf n fuel a hfuel h

theorem Stable.returns_or_diverges {f : ℕ → Option α} (hf : Stable f) : (∃ a, Returns f a) ∨ Diverges f := by
  by_cases h : ∃ n a, f n = some a
  · obtain ⟨n, a, hn⟩ := h
    exact .inl ⟨a, hf.returns hn⟩
  · refine .inr fun n => ?_
    cases hn : f n with
    | none => rfl
    | some a => exact absurd ⟨n, a, hn⟩ h

/-- A loop that runs `next` until `exit` gives a result, cut off after `fuel` tests. -/
def loop {σ : Type} (exit : σ → Option α) (next : σ → σ) : ℕ → σ → Option α
  | 0, _ => none
  | fuel + 1, s =>
    match exit s with
    | some a => some a
    | none => loop exit next fuel (next s)

theorem loop_stable {σ : Type} (exit : σ → Option α) (next : σ → σ) (s : σ) :
    Stable fun fuel => loop exit next fuel s := by
  intro n m a hle h
  induction n generalizing m s with
  | zero => cases h
  | succ n ih =>
    obtain ⟨m, rfl⟩ := Nat.exists_eq_succ_of_ne_zero (show m ≠ 0 by omega)
    simp only [loop] at h ⊢
    cases hexit : exit s with
    | some b => simpa [hexit] using h
    | none =>
      simp only [hexit] at h ⊢
      exact ih (next s) m (by omega) h

/-- A loop ends exactly if one of its rounds meets the exit. -/
theorem loop_ends_iff {σ : Type} (exit : σ → Option α) (next : σ → σ) (s : σ) :
    (∃ a, Returns (fun fuel => loop exit next fuel s) a) ↔ ∃ n, (exit (next^[n] s)).isSome := by
  constructor
  · rintro ⟨a, h⟩
    obtain ⟨fuel, hfuel⟩ := h.exists
    induction fuel generalizing s with
    | zero => cases hfuel
    | succ fuel ih =>
      simp only [loop] at hfuel
      cases hexit : exit s with
      | some b => exact ⟨0, by simp [hexit]⟩
      | none =>
        simp only [hexit] at hfuel
        obtain ⟨n, hn⟩ := ih (next s) ((loop_stable exit next _).returns hfuel) hfuel
        exact ⟨n + 1, hn⟩
  · rintro ⟨n, hn⟩
    suffices hsome : ∃ a, loop exit next (n + 1) s = some a by
      obtain ⟨a, ha⟩ := hsome
      exact ⟨a, (loop_stable exit next s).returns ha⟩
    induction n generalizing s with
    | zero =>
      obtain ⟨a, ha⟩ := Option.isSome_iff_exists.mp hn
      exact ⟨a, by simp [loop, show exit s = some a from ha]⟩
    | succ n ih =>
      rw [loop]
      cases hexit : exit s with
      | some b => exact ⟨b, rfl⟩
      | none => exact ih (next s) hn

/-- What the rounds of a loop preserve holds where it ends. -/
theorem loop_invariant {σ : Type} {exit : σ → Option α} {next : σ → σ} {I : σ → Prop}
    (hnext : ∀ s, exit s = none → I s → I (next s)) {fuel : ℕ} {s : σ} {a : α} (hs : I s)
    (h : loop exit next fuel s = some a) : ∃ s', I s' ∧ exit s' = some a := by
  induction fuel generalizing s with
  | zero => cases h
  | succ fuel ih =>
    rw [loop] at h
    cases hexit : exit s with
    | some b =>
      rw [hexit] at h
      exact ⟨s, hs, hexit.trans h⟩
    | none =>
      rw [hexit] at h
      exact ih (hnext s hexit hs) h

theorem Stable.foldlM {γ : Type} {f : ℕ → α → γ → Option α} (hf : ∀ a c, Stable fun fuel => f fuel a c)
    (l : List γ) (a : α) : Stable fun fuel => l.foldlM (f fuel) a := by
  induction l generalizing a with
  | nil => exact Stable.const _
  | cons c l ih => exact (hf a c).bind fun a' => ih a'

/-- What every step of a fold keeps holds of its result. -/
theorem foldlM_invariant {σ : Type} {f : σ → α → Option σ} {I : σ → Prop}
    (hstep : ∀ s a s', f s a = some s' → I s → I s') {l : List α} {s s' : σ} (h : l.foldlM f s = some s') (hs : I s) :
    I s' := by
  induction l generalizing s with
  | nil => exact Option.some.inj h ▸ hs
  | cons a l ih =>
    obtain ⟨s₁, hfirst, hrest⟩ := Option.bind_eq_some_iff.mp h
    exact ih hrest (hstep s a s₁ hfirst hs)

/-- A round of a loop that does not exit. -/
theorem Returns.loop_next {σ : Type} {exit : σ → Option α} {next : σ → σ} {s : σ} {a : α} (hexit : exit s = none)
    (h : Returns (fun fuel => loop exit next fuel (next s)) a) : Returns (fun fuel => loop exit next fuel s) a := by
  obtain ⟨fuel, hfuel⟩ := h.exists
  refine (loop_stable exit next s).returns (n := fuel + 1) ?_
  simp only [loop, hexit]
  exact hfuel

theorem Returns.loop_exit {σ : Type} {exit : σ → Option α} (next : σ → σ) {s : σ} {a : α} (hexit : exit s = some a) :
    Returns (fun fuel => loop exit next fuel s) a :=
  (loop_stable exit next s).returns (n := 1) (by simp only [loop, hexit])

/-- What a scan from `a` on collects: it follows `next` as long as `go` holds, and takes
    an item at each step. -/
inductive Collects {σ : Type} (go : σ → Prop) (next : σ → σ) (item : σ → β) : σ → List β → Prop
  | stop {a : σ} (hstop : ¬ go a) : Collects go next item a []
  | step {a : σ} {items : List β} (hgo : go a) (hrest : Collects go next item (next a) items) :
      Collects go next item a (item a :: items)

theorem Collects.returns {σ : Type} {go : σ → Prop} [DecidablePred go] {next : σ → σ} {item : σ → β} {a : σ}
    {items : List β} (h : Collects go next item a items) (seen : List β) :
    Returns (fun fuel => loop (fun s : σ × List β => if go s.1 then none else some s.2)
      (fun s => (next s.1, s.2 ++ [item s.1])) fuel (a, seen)) (seen ++ items) := by
  induction h generalizing seen with
  | stop hstop => exact Returns.loop_exit _ (by simp only [if_neg hstop, List.append_nil])
  | step hgo _ ih =>
    refine Returns.loop_next (if_pos hgo) ?_
    simpa only [List.append_assoc, List.singleton_append] using ih (seen ++ [item _])

/-- A fold ends if each of its steps does, from any state. -/
theorem Returns.foldlM {σ : Type} {f : ℕ → σ → α → Option σ} (l : List α)
    (hstep : ∀ a ∈ l, ∀ s, ∃ s', Returns (fun fuel => f fuel s a) s') (s : σ) :
    ∃ s', Returns (fun fuel => l.foldlM (f fuel) s) s' := by
  induction l generalizing s with
  | nil => exact ⟨s, .of_forall fun _ => rfl⟩
  | cons a l ih =>
    obtain ⟨s₁, hfirst⟩ := hstep a List.mem_cons_self s
    obtain ⟨s', hrest⟩ := ih (fun b hb => hstep b (List.mem_cons_of_mem a hb)) s₁
    exact ⟨s', hfirst.bind hrest⟩

end fuel
