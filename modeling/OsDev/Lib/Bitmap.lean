import Mathlib.Data.Nat.Bitwise
import Mathlib.Data.Nat.Find
import Mathlib.Data.Finset.Card
import Mathlib.Logic.Function.Basic

namespace bitmap

/-- The byte whose only set bit is the one that stands for `bit`. -/
def mask (bit : ℕ) : UInt8 := UInt8.ofNat (2 ^ (bit % 8))

/-- The bit is set in a table of bits kept in bytes. -/
def Taken (bytes : ℕ → UInt8) (bit : ℕ) : Prop := bytes (bit / 8) &&& mask bit ≠ 0

instance (bytes : ℕ → UInt8) (bit : ℕ) : Decidable (Taken bytes bit) := inferInstanceAs (Decidable (_ ≠ _))

def mark (bytes : ℕ → UInt8) (bit : ℕ) : ℕ → UInt8 :=
  Function.update bytes (bit / 8) (bytes (bit / 8) ||| mask bit)

def unmark (bytes : ℕ → UInt8) (bit : ℕ) : ℕ → UInt8 :=
  Function.update bytes (bit / 8) (bytes (bit / 8) &&& ~~~mask bit)

variable {bytes : ℕ → UInt8} {bit other : ℕ}

theorem mask_toNat (bit : ℕ) : (mask bit).toNat = 2 ^ (bit % 8) := by
  have hlt : 2 ^ (bit % 8) < 2 ^ 8 := Nat.pow_lt_pow_right (by decide) (Nat.mod_lt _ (by decide))
  simp only [mask, UInt8.toNat_ofNat']
  exact Nat.mod_eq_of_lt hlt

theorem taken_iff : Taken bytes bit ↔ (bytes (bit / 8)).toNat.testBit (bit % 8) = true := by
  have hzero : bytes (bit / 8) &&& mask bit = 0 ↔ (bytes (bit / 8)).toNat &&& 2 ^ (bit % 8) = 0 := by
    rw [← UInt8.toNat_inj, UInt8.toNat_and, mask_toNat]
    rfl
  rw [Taken, Ne, hzero, Nat.and_two_pow]
  cases (bytes (bit / 8)).toNat.testBit (bit % 8) <;> simp

/-- Two bits of one byte at the same place are the same bit. -/
theorem eq_of_div_mod (hdiv : bit / 8 = other / 8) (hmod : bit % 8 = other % 8) : bit = other := by omega

theorem taken_mark : Taken (mark bytes bit) other ↔ other = bit ∨ Taken bytes other := by
  rw [taken_iff, taken_iff, mark]
  by_cases hdiv : other / 8 = bit / 8
  · rw [hdiv, Function.update_self, UInt8.toNat_or, Nat.testBit_or, mask_toNat, Nat.testBit_two_pow,
      Bool.or_eq_true, decide_eq_true_eq]
    constructor
    · rintro (h | h)
      · exact .inr h
      · exact .inl (eq_of_div_mod hdiv h.symm)
    · rintro (h | h)
      · exact .inr (by rw [h])
      · exact .inl h
  · rw [Function.update_of_ne hdiv]
    constructor
    · exact .inr
    · rintro (rfl | h)
      · exact absurd rfl hdiv
      · exact h

theorem taken_unmark : Taken (unmark bytes bit) other ↔ other ≠ bit ∧ Taken bytes other := by
  rw [taken_iff, taken_iff, unmark]
  by_cases hdiv : other / 8 = bit / 8
  · have hnot : (~~~mask bit).toNat = 2 ^ 8 - (2 ^ (bit % 8) + 1) := by
      rw [UInt8.toNat_not, mask_toNat, UInt8.size]
      omega
    have hpow : 2 ^ (bit % 8) < 2 ^ 8 := Nat.pow_lt_pow_right (by decide) (Nat.mod_lt _ (by decide))
    rw [hdiv, Function.update_self, UInt8.toNat_and, Nat.testBit_and, hnot, Nat.testBit_two_pow_sub_succ hpow,
      Nat.testBit_two_pow, Bool.and_eq_true, Bool.and_eq_true, decide_eq_true_eq, Bool.not_eq_true',
      decide_eq_false_iff_not]
    constructor
    · rintro ⟨htaken, -, hne⟩
      exact ⟨fun heq => hne (by rw [heq]), htaken⟩
    · rintro ⟨hne, htaken⟩
      exact ⟨htaken, Nat.mod_lt _ (by decide), fun hmod => hne (eq_of_div_mod hdiv hmod.symm)⟩
  · rw [Function.update_of_ne hdiv]
    constructor
    · intro h
      exact ⟨fun heq => hdiv (by rw [heq]), h⟩
    · exact fun h => h.2

/-- All bits of a byte are set exactly if it is `0xFF`. -/
theorem byte_full_iff (bytes : ℕ → UInt8) (i : ℕ) : bytes i = 0xFF ↔ ∀ j < 8, Taken bytes (8 * i + j) := by
  have hbit : ∀ j < 8, (Taken bytes (8 * i + j) ↔ (bytes i).toNat.testBit j = true) := by
    intro j hj
    rw [taken_iff, show (8 * i + j) / 8 = i by omega, show (8 * i + j) % 8 = j by omega]
  constructor
  · intro h j hj
    rw [hbit j hj, h, show ((0xFF : UInt8)).toNat = 2 ^ 8 - 1 by rfl, Nat.testBit_two_pow_sub_one]
    exact decide_eq_true hj
  · intro h
    apply UInt8.toNat_inj.mp
    rw [show ((0xFF : UInt8)).toNat = 2 ^ 8 - 1 by rfl]
    apply Nat.eq_of_testBit_eq
    intro j
    rw [Nat.testBit_two_pow_sub_one]
    by_cases hj : j < 8
    · rw [(hbit j hj).mp (h j hj), decide_eq_true hj]
    · rw [decide_eq_false hj]
      exact Nat.testBit_lt_two_pow ((bytes i).toNat_lt.trans_le (Nat.pow_le_pow_right (by decide) (by omega)))

/-- The first clear bit from `low` on, before `high`. -/
structure FirstClear (bytes : ℕ → UInt8) (low high bit : ℕ) : Prop where
  low_le : low ≤ bit
  lt_high : bit < high
  clear : ¬ Taken bytes bit
  before : ∀ c, low ≤ c → c < bit → Taken bytes c

theorem FirstClear.unique {low high : ℕ} (h : FirstClear bytes low high bit)
    (h' : FirstClear bytes low high other) : bit = other := by
  obtain hlt | heq | hlt := Nat.lt_trichotomy bit other
  · exact absurd (h'.before bit h.low_le hlt) h.clear
  · exact heq
  · exact absurd (h.before other h'.low_le hlt) h'.clear

/-- A clear bit in the range makes for a first one. -/
theorem exists_first_clear {low high c : ℕ} (hlow : low ≤ c) (hhigh : c < high) (hclear : ¬ Taken bytes c) :
    ∃ bit, FirstClear bytes low high bit ∧ bit ≤ c := by
  have hex : ∃ bit, low ≤ bit ∧ ¬ Taken bytes bit := ⟨c, hlow, hclear⟩
  have hmin := Nat.find_min' hex ⟨hlow, hclear⟩
  obtain ⟨hfind, hfree⟩ := Nat.find_spec hex
  refine ⟨Nat.find hex, ⟨hfind, hmin.trans_lt hhigh, hfree, fun x hx hlt => ?_⟩, hmin⟩
  by_contra hnot
  exact Nat.find_min hex hlt ⟨hx, hnot⟩

/-- Look through one byte, low bit first, for a clear bit from `low` on. -/
def scan_byte (bytes : ℕ → UInt8) (low i : ℕ) : Option ℕ :=
  if bytes i ≠ 0xFF then
    ((List.range 8).find? fun j => low ≤ i * 8 + j ∧ ¬ Taken bytes (i * 8 + j)).map (i * 8 + ·)
  else none

/-- Look through `rounds` bytes from byte `i` on. -/
def scan (bytes : ℕ → UInt8) (low : ℕ) : ℕ → ℕ → Option ℕ
  | 0, _ => none
  | rounds + 1, i =>
    match scan_byte bytes low i with
    | some bit => some bit
    | none => scan bytes low rounds (i + 1)

theorem scan_byte_cases (bytes : ℕ → UInt8) (low i : ℕ) :
    (∃ bit, scan_byte bytes low i = some bit ∧ FirstClear bytes (max low (i * 8)) (i * 8 + 8) bit) ∨
      scan_byte bytes low i = none ∧ ∀ c, low ≤ c → i * 8 ≤ c → c < i * 8 + 8 → Taken bytes c := by
  unfold scan_byte
  by_cases hfull : bytes i = 0xFF
  · rw [if_neg (fun h => h hfull)]
    refine .inr ⟨rfl, fun c _ hlow hhigh => ?_⟩
    have htaken := (byte_full_iff bytes i).mp hfull (c - 8 * i) (by omega)
    rwa [show 8 * i + (c - 8 * i) = c by omega] at htaken
  · rw [if_pos hfull]
    cases hfind : (List.range 8).find? fun j => low ≤ i * 8 + j ∧ ¬ Taken bytes (i * 8 + j) with
    | none =>
      refine .inr ⟨rfl, fun c hc hlow hhigh => ?_⟩
      have hnot := List.find?_eq_none.mp hfind (c - i * 8) (List.mem_range.mpr (by omega))
      simp only [decide_eq_true_eq, not_and, not_not] at hnot
      have htaken := hnot (by omega)
      rwa [show i * 8 + (c - i * 8) = c by omega] at htaken
    | some j =>
      obtain ⟨hj, k, hk, heq, hbefore⟩ := List.find?_eq_some_iff_getElem.mp hfind
      simp only [List.getElem_range] at heq
      simp only [List.getElem_range, Bool.not_eq_eq_eq_not, Bool.not_true, decide_eq_false_iff_not, not_and,
        not_not] at hbefore
      subst heq
      have hk : k < 8 := by simpa using hk
      obtain ⟨hlow, hclear⟩ := of_decide_eq_true hj
      refine .inl ⟨i * 8 + k, rfl, by omega, by omega, hclear, fun c hc hck => ?_⟩
      have htaken := hbefore (c - i * 8) (by omega) (by omega)
      rwa [show i * 8 + (c - i * 8) = c by omega] at htaken

/-- What a scan finds: the first clear bit in its range, or none if there is none. -/
theorem scan_cases (bytes : ℕ → UInt8) (low rounds i : ℕ) :
    (∃ bit, scan bytes low rounds i = some bit ∧ FirstClear bytes (max low (i * 8)) ((i + rounds) * 8) bit) ∨
      scan bytes low rounds i = none ∧ ∀ c, low ≤ c → i * 8 ≤ c → c < (i + rounds) * 8 → Taken bytes c := by
  induction rounds generalizing i with
  | zero => exact .inr ⟨rfl, fun c _ hlow hhigh => by omega⟩
  | succ rounds ih =>
    obtain ⟨bit, hbyte, hfirst⟩ | ⟨hbyte, hnone⟩ := scan_byte_cases bytes low i
    · refine .inl ⟨bit, by simp [scan, hbyte], hfirst.low_le, ?_, hfirst.clear, hfirst.before⟩
      have := hfirst.lt_high
      omega
    · have hstep : scan bytes low (rounds + 1) i = scan bytes low rounds (i + 1) := by simp [scan, hbyte]
      rw [hstep]
      obtain ⟨bit, hscan, hfirst⟩ | ⟨hscan, hrest⟩ := ih (i + 1)
      · refine .inl ⟨bit, hscan, ?_, ?_, hfirst.clear, fun c hc hlt => ?_⟩
        · have := hfirst.low_le
          omega
        · have := hfirst.lt_high
          omega
        · by_cases hc' : c < i * 8 + 8
          · exact hnone c (by omega) (by omega) hc'
          · exact hfirst.before c (by omega) hlt
      · refine .inr ⟨hscan, fun c hc hlow hhigh => ?_⟩
        by_cases hc' : c < i * 8 + 8
        · exact hnone c hc hlow hc'
        · exact hrest c hc (by omega) (by omega)

/-- The bytes that a scan reads. -/
def scan_reads (bytes : ℕ → UInt8) (low : ℕ) : ℕ → ℕ → List ℕ
  | 0, _ => []
  | rounds + 1, i =>
    i :: match scan_byte bytes low i with
      | some _ => []
      | none => scan_reads bytes low rounds (i + 1)

theorem scan_reads_bounds {low rounds i k : ℕ} (hk : k ∈ scan_reads bytes low rounds i) : i ≤ k ∧ k < i + rounds := by
  induction rounds generalizing i with
  | zero => cases hk
  | succ rounds ih =>
    rw [scan_reads] at hk
    obtain rfl | hk := List.mem_cons.mp hk
    · omega
    · cases hbyte : scan_byte bytes low i with
      | some bit =>
        rw [hbyte] at hk
        cases hk
      | none =>
        rw [hbyte] at hk
        have := ih hk
        omega

/-- A scan stops at the byte of the bit that it finds. -/
theorem scan_reads_le {low rounds i k : ℕ} (hscan : scan bytes low rounds i = some bit)
    (hk : k ∈ scan_reads bytes low rounds i) : k ≤ bit / 8 := by
  induction rounds generalizing i with
  | zero => cases hk
  | succ rounds ih =>
    rw [scan_reads] at hk
    rw [scan] at hscan
    obtain ⟨bit', hbyte, hfirst⟩ | ⟨hbyte, -⟩ := scan_byte_cases bytes low i
    · rw [hbyte] at hk hscan
      obtain rfl := Option.some.inj hscan
      have hge := hfirst.low_le
      rw [List.mem_singleton.mp hk]
      omega
    · rw [hbyte] at hk hscan
      obtain rfl | hk := List.mem_cons.mp hk
      · obtain ⟨bit', hfound, hfirst⟩ | ⟨hnone, -⟩ := scan_cases bytes low rounds (k + 1)
        · have hge := hfirst.low_le
          rw [← Option.some.inj (hscan.symm.trans hfound)] at hge
          omega
        · cases hscan.symm.trans hnone
      · exact ih hscan hk

/-- A byte of the range is read if the bits before it are set. -/
theorem mem_scan_reads {low rounds i k : ℕ} (hlow : i ≤ k) (hhigh : k < i + rounds)
    (htaken : ∀ c, low ≤ c → i * 8 ≤ c → c < k * 8 → Taken bytes c) : k ∈ scan_reads bytes low rounds i := by
  induction rounds generalizing i with
  | zero => omega
  | succ rounds ih =>
    rw [scan_reads]
    obtain rfl | hlt := Nat.eq_or_lt_of_le hlow
    · exact List.mem_cons_self
    · refine List.mem_cons_of_mem _ ?_
      obtain ⟨bit, -, hfirst⟩ | ⟨hbyte, -⟩ := scan_byte_cases bytes low i
      · have hge := hfirst.low_le
        have hlt := hfirst.lt_high
        exact absurd (htaken bit (by omega) (by omega) (by omega)) hfirst.clear
      · rw [hbyte]
        exact ih (by omega) (by omega) fun c hc hge => htaken c hc (by omega)

/-- The clear bits among the first `size`. -/
def clear_bits (bytes : ℕ → UInt8) (size : ℕ) : Finset ℕ := (Finset.range size).filter fun bit => ¬ Taken bytes bit

variable {size : ℕ}

@[simp] theorem mem_clear_bits : bit ∈ clear_bits bytes size ↔ bit < size ∧ ¬ Taken bytes bit := by
  simp [clear_bits]

theorem clear_bits_mark (bytes : ℕ → UInt8) (size bit : ℕ) :
    clear_bits (mark bytes bit) size = (clear_bits bytes size).erase bit := by
  ext c
  simp only [mem_clear_bits, Finset.mem_erase, taken_mark]
  tauto

theorem clear_bits_unmark (hbit : bit < size) :
    clear_bits (unmark bytes bit) size = insert bit (clear_bits bytes size) := by
  ext c
  simp only [mem_clear_bits, Finset.mem_insert, taken_unmark]
  constructor
  · rintro ⟨hc, hnot⟩
    by_cases heq : c = bit
    · exact .inl heq
    · exact .inr ⟨hc, fun htaken => hnot ⟨heq, htaken⟩⟩
  · rintro (rfl | ⟨hc, hnot⟩)
    · exact ⟨hbit, fun h => h.1 rfl⟩
    · exact ⟨hc, fun h => hnot h.2⟩

end bitmap
