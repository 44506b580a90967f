import Mathlib.Data.Nat.Bitwise
import Mathlib.Tactic.Ring

namespace little_endian

/-- The unsigned 16-bit integer stored at `offset`, least significant byte first. -/
def le16 (bytes : ℕ → UInt8) (offset : ℕ) : ℕ :=
  (bytes offset).toNat + 256 * (bytes (offset + 1)).toNat

/-- The unsigned 32-bit integer stored at `offset`, least significant byte first. -/
def le32 (bytes : ℕ → UInt8) (offset : ℕ) : ℕ :=
  (bytes offset).toNat + 256 * (bytes (offset + 1)).toNat +
    65536 * (bytes (offset + 2)).toNat + 16777216 * (bytes (offset + 3)).toNat

/-- Byte `k` of the little-endian representation of `value`. -/
def byteOf (value k : ℕ) : UInt8 :=
  UInt8.ofNat (value / 256 ^ k)

/-- Overwrite the four bytes at `offset` by the representation of `value`. -/
def put32 (bytes : ℕ → UInt8) (offset value : ℕ) : ℕ → UInt8 := fun j =>
  if offset ≤ j ∧ j < offset + 4 then byteOf value (j - offset) else bytes j

theorem le32_lt (bytes : ℕ → UInt8) (offset : ℕ) : le32 bytes offset < 2 ^ 32 := by
  have h0 := (bytes offset).toNat_lt
  have h1 := (bytes (offset + 1)).toNat_lt
  have h2 := (bytes (offset + 2)).toNat_lt
  have h3 := (bytes (offset + 3)).toNat_lt
  unfold le32
  omega

@[simp] theorem byteOf_toNat (value k : ℕ) : (byteOf value k).toNat = value / 256 ^ k % 256 := by
  simp [byteOf]

theorem le16_congr {first second : ℕ → UInt8} {i j : ℕ}
    (h0 : first i = second j) (h1 : first (i + 1) = second (j + 1)) :
    le16 first i = le16 second j := by
  simp only [le16, h0, h1]

theorem le32_congr {first second : ℕ → UInt8} {i j : ℕ}
    (hsame : ∀ k < 4, first (i + k) = second (j + k)) : le32 first i = le32 second j := by
  have h0 := hsame 0 (by omega)
  have h1 := hsame 1 (by omega)
  have h2 := hsame 2 (by omega)
  have h3 := hsame 3 (by omega)
  simp only [Nat.add_zero] at h0
  simp only [le32, h0, h1, h2, h3]

/-- Two bytes that spell the representation of a 16-bit value read back as that value. -/
theorem le16_of_bytes {bytes : ℕ → UInt8} {offset value : ℕ} (hvalue : value < 2 ^ 16)
    (h0 : bytes offset = byteOf value 0) (h1 : bytes (offset + 1) = byteOf value 1) :
    le16 bytes offset = value := by
  simp only [le16, h0, h1, byteOf_toNat]
  omega

/-- Four bytes that spell the representation of a 32-bit value read back as that value. -/
theorem le32_of_bytes {bytes : ℕ → UInt8} {offset value : ℕ} (hvalue : value < 2 ^ 32)
    (hsame : ∀ k < 4, bytes (offset + k) = byteOf value k) : le32 bytes offset = value := by
  have h0 := hsame 0 (by omega)
  have h1 := hsame 1 (by omega)
  have h2 := hsame 2 (by omega)
  have h3 := hsame 3 (by omega)
  simp only [Nat.add_zero] at h0
  simp only [le32, h0, h1, h2, h3, byteOf_toNat]
  omega

theorem le32_put32_same {bytes : ℕ → UInt8} {offset value : ℕ} (hvalue : value < 2 ^ 32) :
    le32 (put32 bytes offset value) offset = value := by
  apply le32_of_bytes hvalue
  intro k hk
  simp [put32, hk]

theorem put32_of_outside {bytes : ℕ → UInt8} {offset value j : ℕ}
    (hout : j < offset ∨ offset + 4 ≤ j) : put32 bytes offset value j = bytes j := by
  rw [put32, if_neg (by omega)]

/-- Writing one aligned word leaves every other word of a table unchanged. -/
theorem le32_put32_of_disjoint {bytes : ℕ → UInt8} {offset other value : ℕ}
    (hout : other + 4 ≤ offset ∨ offset + 4 ≤ other) :
    le32 (put32 bytes offset value) other = le32 bytes other := by
  apply le32_congr
  intro k hk
  exact put32_of_outside (by omega)

/-- The unsigned 64-bit integer stored at `offset`. -/
def le64 (bytes : ℕ → UInt8) (offset : ℕ) : ℕ :=
  le32 bytes offset + 2 ^ 32 * le32 bytes (offset + 4)

/-- Overwrite the eight bytes at `offset` by the representation of `value`. -/
def put64 (bytes : ℕ → UInt8) (offset value : ℕ) : ℕ → UInt8 :=
  put32 (put32 bytes offset value) (offset + 4) (value / 2 ^ 32)

theorem put64_of_outside {bytes : ℕ → UInt8} {offset value j : ℕ} (hout : j < offset ∨ offset + 8 ≤ j) :
    put64 bytes offset value j = bytes j := by
  rw [put64, put32_of_outside (by omega), put32_of_outside (by omega)]

/-- The low word of a larger value is its representation modulo `2 ^ 32`. -/
theorem le32_put32_mod (bytes : ℕ → UInt8) (offset value : ℕ) :
    le32 (put32 bytes offset value) offset = value % 2 ^ 32 := by
  apply le32_of_bytes (Nat.mod_lt _ (by decide))
  intro k hk
  have hbyte : byteOf value k = byteOf (value % 2 ^ 32) k := by
    apply UInt8.toNat_inj.mp
    rw [byteOf_toNat, byteOf_toNat]
    obtain rfl | rfl | rfl | rfl : k = 0 ∨ k = 1 ∨ k = 2 ∨ k = 3 := by omega
    all_goals omega
  rw [← hbyte, put32, if_pos (by omega), Nat.add_sub_cancel_left]

theorem le64_put64_same {bytes : ℕ → UInt8} {offset value : ℕ} (hvalue : value < 2 ^ 64) :
    le64 (put64 bytes offset value) offset = value := by
  rw [le64, put64, le32_put32_of_disjoint (by omega), le32_put32_mod, le32_put32_mod]
  omega

theorem le64_congr {first second : ℕ → UInt8} {i j : ℕ}
    (hsame : ∀ k < 8, first (i + k) = second (j + k)) : le64 first i = le64 second j := by
  have hlow := le32_congr (fun k hk => hsame k (by omega))
  have hhigh : le32 first (i + 4) = le32 second (j + 4) := by
    apply le32_congr
    intro k hk
    simpa only [Nat.add_assoc] using hsame (4 + k) (by omega)
  rw [le64, le64, hlow, hhigh]

theorem le64_of_zero {bytes : ℕ → UInt8} {offset : ℕ} (hzero : ∀ k < 8, bytes (offset + k) = 0) :
    le64 bytes offset = 0 := by
  have hsame : le64 bytes offset = le64 (fun _ => 0) 0 := le64_congr hzero
  rw [hsame]
  rfl

theorem le64_put64_of_disjoint {bytes : ℕ → UInt8} {offset other value : ℕ}
    (hout : other + 8 ≤ offset ∨ offset + 8 ≤ other) :
    le64 (put64 bytes offset value) other = le64 bytes other := by
  apply le64_congr
  intro k hk
  exact put64_of_outside (by omega)

/-- Write an array of `n` words, one after the other. -/
@[irreducible] def put64s (bytes : ℕ → UInt8) (base : ℕ) (value : ℕ → ℕ) (n : ℕ) : ℕ → UInt8 :=
  (List.range n).foldl (fun bytes i => put64 bytes (base + 8 * i) (value i)) bytes

theorem put64s_zero (bytes : ℕ → UInt8) (base : ℕ) (value : ℕ → ℕ) : put64s bytes base value 0 = bytes := by
  rw [put64s, List.range_zero, List.foldl_nil]

theorem put64s_succ (bytes : ℕ → UInt8) (base : ℕ) (value : ℕ → ℕ) (n : ℕ) :
    put64s bytes base value (n + 1) = put64 (put64s bytes base value n) (base + 8 * n) (value n) := by
  rw [put64s, put64s, List.range_succ, List.foldl_append, List.foldl_cons, List.foldl_nil]

theorem put64s_of_lt (bytes : ℕ → UInt8) {base j : ℕ} (value : ℕ → ℕ) (n : ℕ) (h : j < base) :
    put64s bytes base value n j = bytes j := by
  induction n with
  | zero => rw [put64s_zero]
  | succ n ih => rw [put64s_succ, put64_of_outside (by omega), ih]

theorem le64_put64s (bytes : ℕ → UInt8) (base : ℕ) (value : ℕ → ℕ) {n : ℕ} (hvalue : ∀ i < n, value i < 2 ^ 64)
    (k : ℕ) : le64 (put64s bytes base value n) (base + 8 * k) =
      if k < n then value k else le64 bytes (base + 8 * k) := by
  induction n with
  | zero => rw [put64s_zero, if_neg (Nat.not_lt_zero k)]
  | succ n ih =>
    rw [put64s_succ]
    by_cases hk : k = n
    · subst hk
      rw [le64_put64_same (hvalue k (by omega)), if_pos (by omega)]
    · rw [le64_put64_of_disjoint (by omega), ih fun i hi => hvalue i (by omega)]
      by_cases hlt : k < n
      · rw [if_pos hlt, if_pos (by omega)]
      · rw [if_neg hlt, if_neg (by omega)]

theorem le64_put64s_below (bytes : ℕ → UInt8) (base : ℕ) (value : ℕ → ℕ) (n : ℕ) {offset : ℕ}
    (hbelow : offset + 8 ≤ base) : le64 (put64s bytes base value n) offset = le64 bytes offset := by
  induction n with
  | zero => rw [put64s_zero]
  | succ n ih => rw [put64s_succ, le64_put64_of_disjoint (by omega), ih]

end little_endian
