import OsDev.Libc.Str

namespace os_dev.libc

/-- The case folding of the comparisons. -/
def lower (c : UInt8) : UInt8 := if 0x41 ≤ c ∧ c ≤ 0x5A then c + 0x20 else c

/-- The loop of `strncmp` and `strncasecmp`, which compare by a key: it stops in front of the last of `n` characters,
    at the end of a string and at a difference, and subtracts what stands there. -/
def compare_loop (key : UInt8 → UInt8) : ℕ → CStr → CStr → Int
  | n + 2, a :: s1, b :: s2 => if key a = key b then compare_loop key (n + 1) s1 s2 else (key a).toNat - (key b).toNat
  | _, s1, s2 => (key (s1.headD 0)).toNat - (key (s2.headD 0)).toNat

def strncmp (s1 s2 : CStr) (n : ℕ) : Int := if n = 0 then 0 else compare_loop id n s1 s2

def strncasecmp (s1 s2 : CStr) (n : ℕ) : Int := if n = 0 then 0 else compare_loop lower n s1 s2

/-- A string in front of which another one stands, up to case. -/
def HasPrefix (s front : CStr) : Prop := front.map lower <+: s.map lower

instance (s front : CStr) : Decidable (HasPrefix s front) := inferInstanceAs (Decidable (_ <+: _))

variable {key : UInt8 → UInt8} {s1 s2 : CStr} {a b : UInt8}

theorem toNat_sub_eq_zero : ((a.toNat : Int) - b.toNat = 0) ↔ a = b := by
  rw [Int.sub_eq_zero, Int.natCast_inj, UInt8.toNat_inj]

/-- The loop over a whole string without a NUL finds out if it stands in front of the other. -/
theorem compare_loop_eq_zero_iff (hkey : ∀ b ∈ s2, key b ≠ key 0) (hne : s2 ≠ []) :
    compare_loop key s2.length s1 s2 = 0 ↔ s2.map key <+: s1.map key := by
  induction s2 generalizing s1 with
  | nil => exact absurd rfl hne
  | cons b s2 ih =>
    have hb := hkey b List.mem_cons_self
    cases s1 with
    | nil =>
      have hloop : compare_loop key (b :: s2).length [] (b :: s2) = (key 0).toNat - (key b).toNat := by
        cases s2 <;> rfl
      rw [hloop, toNat_sub_eq_zero]
      exact iff_of_false (fun heq => hb heq.symm) (fun h => nomatch List.prefix_nil.mp h)
    | cons a s1 =>
      rw [List.map_cons, List.map_cons, List.cons_prefix_cons]
      cases s2 with
      | nil =>
        have hloop : compare_loop key [b].length (a :: s1) [b] = (key a).toNat - (key b).toNat := rfl
        rw [hloop, toNat_sub_eq_zero, List.map_nil, and_iff_left List.nil_prefix, eq_comm]
      | cons b' s2 =>
        have hloop : compare_loop key (b :: b' :: s2).length (a :: s1) (b :: b' :: s2) =
            if key a = key b then compare_loop key (b' :: s2).length s1 (b' :: s2) else (key a).toNat - (key b).toNat := rfl
        rw [hloop]
        split
        · rename_i hsame
          rw [ih (fun c hc => hkey c (List.mem_cons_of_mem b hc)) (List.cons_ne_nil _ _), and_iff_right hsame.symm]
        · rename_i hdiff
          rw [toNat_sub_eq_zero]
          exact iff_of_false hdiff fun h => hdiff h.1.symm

theorem lower_ne_zero (hb : b ≠ 0) : lower b ≠ lower 0 := by
  have hzero : lower 0 = 0 := rfl
  rw [hzero, lower]
  split
  · rename_i hcase
    have hlow := UInt8.le_iff_toNat_le.mp hcase.1
    have hhigh := UInt8.le_iff_toNat_le.mp hcase.2
    intro heq
    have hsum := congrArg UInt8.toNat heq
    rw [UInt8.toNat_add] at hsum
    simp only [UInt8.reduceToNat] at hlow hhigh hsum
    omega
  · exact hb

/-- `strncasecmp` with the length of its second string tells if that one stands in front of the first. -/
theorem strncasecmp_eq_zero_iff (hnul : 0 ∉ s2) : strncasecmp s1 s2 s2.length = 0 ↔ HasPrefix s1 s2 := by
  rw [strncasecmp]
  split
  · rename_i hlen
    rw [List.length_eq_zero_iff.mp hlen]
    exact iff_of_true rfl List.nil_prefix
  · rename_i hlen
    refine compare_loop_eq_zero_iff (fun b hb => lower_ne_zero ?_) fun hnil => hlen (by rw [hnil]; rfl)
    rintro rfl
    exact hnul hb

end os_dev.libc
