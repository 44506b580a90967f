import Mathlib.Data.List.Basic

namespace char_array

/-- Text behind a full buffer is lost whether it comes in one piece or not. -/
theorem take_append_take {α : Type} (n : ℕ) (s t : List α) : (s.take n ++ t).take n = (s ++ t).take n := by
  rcases Nat.le_total s.length n with hfits | hfull
  · rw [List.take_of_length_le hfits]
  · have hlen : n ≤ (s.take n).length := Nat.le_of_eq (List.length_take_of_le hfull).symm
    rw [List.take_append_of_le_length hlen, List.take_append_of_le_length hfull, List.take_take, Nat.min_self]

/-- An array of `n` characters: the string in it, and whether every write so far has been
    inside of the array. Once one has not, the string no longer says anything. -/
structure CharArray (n : ℕ) where
  str : List UInt8
  inside : Bool
  deriving DecidableEq

namespace CharArray

variable {n : ℕ}

/-- An array of static storage. -/
def zeroed (n : ℕ) : CharArray n := ⟨[], true⟩

/-- Write `count` bytes behind the first `start`. -/
def wrote (a : CharArray n) (start count : ℕ) : Bool := a.inside && decide (start + count ≤ n)

/-- `strcpy`: the string with its NUL. -/
def strcpy (a : CharArray n) (s : List UInt8) : CharArray n := ⟨s, a.wrote 0 (s.length + 1)⟩

/-- `strcat`: the string with its NUL, from the old NUL on. -/
def strcat (a : CharArray n) (s : List UInt8) : CharArray n := ⟨a.str ++ s, a.wrote a.str.length (s.length + 1)⟩

/-- `strncpy` of `count` characters to the offset `start`, and a NUL behind them. -/
def strncpy (a : CharArray n) (start : ℕ) (s : List UInt8) (count : ℕ) : CharArray n :=
  ⟨a.str.take start ++ s.take count, a.wrote start (count + 1)⟩

/-- Append bytes without a NUL. -/
def append (a : CharArray n) (s : List UInt8) : CharArray n := ⟨a.str ++ s, a.wrote a.str.length s.length⟩

/-- Write the NUL behind the string. -/
def terminate (a : CharArray n) : CharArray n := ⟨a.str, a.wrote a.str.length 1⟩

/-- Start over without writing anything. -/
def restart (a : CharArray n) : CharArray n := ⟨[], a.inside⟩

/-- A string that fits, as it lies in memory after writes inside of the array. -/
def Sound (a : CharArray n) : Prop := a.inside = true ∧ a.str.length < n

variable {a : CharArray n} {s : List UInt8} {start count : ℕ}

theorem wrote_eq_true (h : a.inside = true) (hfits : start + count ≤ n) : a.wrote start count = true := by
  rw [wrote, h, decide_eq_true hfits]
  rfl

theorem zeroed_sound (h : 0 < n) : (zeroed n).Sound := ⟨rfl, h⟩

theorem Sound.strcpy (h : a.Sound) (hfits : s.length < n) : (a.strcpy s).Sound :=
  ⟨wrote_eq_true h.1 (by omega), hfits⟩

theorem Sound.strcat (h : a.Sound) (hfits : a.str.length + s.length < n) : (a.strcat s).Sound := by
  refine ⟨wrote_eq_true h.1 (by omega), ?_⟩
  simp only [CharArray.strcat, List.length_append]
  exact hfits

theorem Sound.strncpy (h : a.Sound) (hfits : start + count < n) : (a.strncpy start s count).Sound := by
  refine ⟨wrote_eq_true h.1 (by omega), ?_⟩
  simp only [CharArray.strncpy, List.length_append, List.length_take]
  omega

theorem Sound.append (h : a.Sound) (hfits : a.str.length + s.length < n) : (a.append s).Sound := by
  refine ⟨wrote_eq_true h.1 (by omega), ?_⟩
  simp only [CharArray.append, List.length_append]
  exact hfits

theorem Sound.terminate (h : a.Sound) : a.terminate = a := by
  have hinside : a.terminate.inside = a.inside := by rw [h.1, CharArray.terminate, wrote_eq_true h.1 h.2]
  cases a
  exact congrArg _ hinside

theorem Sound.restart (h : a.Sound) : a.restart.Sound := ⟨h.1, Nat.zero_lt_of_lt h.2⟩

end CharArray

end char_array
