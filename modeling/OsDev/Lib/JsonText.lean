import Mathlib.Data.List.Basic

namespace json_text

/-- The value of a hexadecimal digit. -/
def hex_value (c : UInt8) : Option ℕ :=
  if 0x30 ≤ c ∧ c ≤ 0x39 then some (c.toNat - 0x30)
  else if 0x61 ≤ c ∧ c ≤ 0x66 then some (c.toNat - 0x61 + 10)
  else if 0x41 ≤ c ∧ c ≤ 0x46 then some (c.toNat - 0x41 + 10)
  else none

/-- `\uXXXX` for a code unit. -/
inductive UnicodeEscape : ℕ → List UInt8 → Prop
  | mk {h₀ h₁ h₂ h₃ : UInt8} {v₀ v₁ v₂ v₃ : ℕ} (e₀ : hex_value h₀ = some v₀) (e₁ : hex_value h₁ = some v₁)
      (e₂ : hex_value h₂ = some v₂) (e₃ : hex_value h₃ = some v₃) :
      UnicodeEscape (4096 * v₀ + 256 * v₁ + 16 * v₂ + v₃) [0x5C, 0x75, h₀, h₁, h₂, h₃]

/-- The escapes of two characters. -/
inductive Short where
  | quote
  | backslash
  | slash
  | backspace
  | form_feed
  | newline
  | carriage_return
  | tab
  deriving DecidableEq

def Short.letter : Short → UInt8
  | .quote => 0x22
  | .backslash => 0x5C
  | .slash => 0x2F
  | .backspace => 0x62
  | .form_feed => 0x66
  | .newline => 0x6E
  | .carriage_return => 0x72
  | .tab => 0x74

/-- A character of a text that is written out or as `\uXXXX`, or one that is written as a
    short escape. -/
inductive Piece where
  | char (c : Char)
  | short (e : Short)

/-- The characters that may stand in a string as they are. -/
def CanStand (c : Char) : Prop := 0x20 ≤ c.toNat ∧ c.toNat ≠ 0x22 ∧ c.toNat ≠ 0x5C

instance (c : Char) : Decidable (CanStand c) := inferInstanceAs (Decidable (_ ∧ _ ∧ _))

inductive Spells : Piece → List UInt8 → Prop
  | literal {c : Char} : CanStand c → Spells (.char c) (String.utf8EncodeChar c)
  | unit {c : Char} {bytes : List UInt8} : c.toNat < 0x10000 → UnicodeEscape c.toNat bytes → Spells (.char c) bytes
  | pair {c : Char} {high low : List UInt8} : 0x10000 ≤ c.toNat →
      UnicodeEscape (0xD800 + (c.toNat - 0x10000) / 0x400) high →
      UnicodeEscape (0xDC00 + (c.toNat - 0x10000) % 0x400) low → Spells (.char c) (high ++ low)
  | short (e : Short) : Spells (.short e) [0x5C, e.letter]

/-- The bytes between the quotes of a JSON string for a text. -/
inductive Encodes : List Piece → List UInt8 → Prop
  | nil : Encodes [] []
  | cons {p : Piece} {text : List Piece} {bytes enc : List UInt8} : Spells p bytes → Encodes text enc →
      Encodes (p :: text) (bytes ++ enc)

variable {p : Piece} {c : Char} {text pre post : List Piece} {bytes enc : List UInt8} {unit : ℕ}

theorem encodes_nil_iff : Encodes [] enc ↔ enc = [] := by
  constructor
  · rintro ⟨⟩
    rfl
  · rintro rfl
    exact .nil

theorem Encodes.append {enc' : List UInt8} (h : Encodes pre enc) (h' : Encodes post enc') : Encodes (pre ++ post) (enc ++ enc') := by
  induction h with
  | nil => exact h'
  | cons hspells _ ih =>
    rw [List.append_assoc]
    exact .cons hspells ih

theorem UnicodeEscape.head (h : UnicodeEscape unit bytes) : ∃ rest, bytes = 0x5C :: rest := by
  cases h
  exact ⟨_, rfl⟩

theorem utf8_of_ascii (h : c.toNat < 128) : String.utf8EncodeChar c = [UInt8.ofNat c.toNat] := by
  simp only [String.utf8EncodeChar]
  rw [if_pos]
  · rfl
  · exact Nat.le_of_lt_succ h

theorem high_ofNat {n : ℕ} (hlow : 128 ≤ n) (hhigh : n < 256) : 0x80 ≤ UInt8.ofNat n := by
  rw [UInt8.le_iff_toNat_le, UInt8.toNat_ofNat_of_lt' hhigh]
  exact hlow

/-- Beyond ASCII every byte has its high bit set. -/
theorem utf8_high (h : 128 ≤ c.toNat) : ∀ b ∈ String.utf8EncodeChar c, 0x80 ≤ b := by
  have hnot : ¬ c.val.toNat ≤ 0x7f := Nat.not_le_of_lt h
  simp only [String.utf8EncodeChar, if_neg hnot]
  intro b hb
  split at hb
  · simp only [List.mem_cons, List.not_mem_nil, or_false] at hb
    obtain rfl | rfl := hb <;> exact high_ofNat (by omega) (by omega)
  · split at hb
    · simp only [List.mem_cons, List.not_mem_nil, or_false] at hb
      obtain rfl | rfl | rfl := hb <;> exact high_ofNat (by omega) (by omega)
    · simp only [List.mem_cons, List.not_mem_nil, or_false] at hb
      obtain rfl | rfl | rfl | rfl := hb <;> exact high_ofNat (by omega) (by omega)

theorem utf8_ne_nil (c : Char) : String.utf8EncodeChar c ≠ [] := by
  simp only [String.utf8EncodeChar]
  repeat' split
  all_goals exact List.cons_ne_nil _ _

/-- What a piece is spelled as starts with a backslash, or is the character itself. -/
theorem Spells.cases_head (h : Spells p bytes) :
    (∃ rest, bytes = 0x5C :: rest) ∨ ∃ c, p = .char c ∧ CanStand c ∧ bytes = String.utf8EncodeChar c := by
  cases h with
  | literal hstand => exact .inr ⟨_, rfl, hstand, rfl⟩
  | unit _ hescape => exact .inl hescape.head
  | pair _ hhigh _ =>
    obtain ⟨rest, rfl⟩ := hhigh.head
    exact .inl ⟨_, rfl⟩
  | short e => exact .inl ⟨_, rfl⟩

/-- An encoded text starts with an ASCII character of a string only if the text starts
    with that character, written out. -/
theorem Encodes.head_char {tail : List UInt8} {rest : List UInt8} (h : Encodes text enc) (hascii : c.toNat < 128)
    (hstand : CanStand c) (heq : enc ++ 0x22 :: tail = UInt8.ofNat c.toNat :: rest) :
    ∃ text' enc', text = .char c :: text' ∧ Encodes text' enc' ∧ rest = enc' ++ 0x22 :: tail := by
  have hbyte : (UInt8.ofNat c.toNat).toNat = c.toNat := UInt8.toNat_ofNat_of_lt' (show c.toNat < 256 by omega)
  have hne : ∀ b : UInt8, b = UInt8.ofNat c.toNat → b.toNat = c.toNat := by
    rintro b rfl
    exact hbyte
  cases h with
  | nil =>
    have := hne _ (List.cons.inj heq).1
    exact absurd this.symm hstand.2.1
  | cons hspells hrest =>
    obtain ⟨bytes', rfl⟩ | ⟨c', rfl, _, rfl⟩ := hspells.cases_head
    · have := hne _ (List.cons.inj heq).1
      exact absurd this.symm hstand.2.2
    · by_cases hc' : c'.toNat < 128
      · rw [utf8_of_ascii hc'] at heq
        obtain ⟨hhead, htail⟩ := List.cons.inj heq
        have hsame : c'.toNat = c.toNat := by
          rw [← hne _ hhead]
          exact (UInt8.toNat_ofNat_of_lt' (show c'.toNat < 256 by omega)).symm
        obtain rfl : c' = c := Char.toNat_inj.mp hsame
        exact ⟨_, _, rfl, hrest, htail.symm⟩
      · obtain ⟨b, bs, hb⟩ := List.exists_cons_of_ne_nil (utf8_ne_nil c')
        have hhigh := utf8_high (Nat.le_of_not_lt hc') b (hb ▸ List.mem_cons_self)
        rw [hb] at heq
        have := hne b (List.cons.inj heq).1
        rw [UInt8.le_iff_toNat_le, this] at hhigh
        exact absurd hascii (Nat.not_lt_of_le hhigh)

/-- The same for a word. -/
theorem Encodes.head_word {tail : List UInt8} {rest : List UInt8} (h : Encodes text enc) (word : List Char)
    (hword : ∀ c ∈ word, c.toNat < 128 ∧ CanStand c)
    (heq : enc ++ 0x22 :: tail = word.map (fun c => UInt8.ofNat c.toNat) ++ rest) :
    ∃ text', text = word.map .char ++ text' := by
  induction word generalizing text enc with
  | nil => exact ⟨text, rfl⟩
  | cons c word ih =>
    obtain ⟨hascii, hstand⟩ := hword c List.mem_cons_self
    obtain ⟨text', enc', rfl, henc', hrest⟩ := h.head_char hascii hstand heq
    obtain ⟨text'', rfl⟩ := ih henc' (fun c hc => hword c (List.mem_cons_of_mem _ hc)) hrest.symm
    exact ⟨text'', rfl⟩

/-- Every code unit can be escaped. -/
theorem exists_escape (h : unit < 0x10000) : ∃ bytes, UnicodeEscape unit bytes := by
  have hdigit : ∀ v < 16, hex_value (UInt8.ofNat (if v < 10 then 0x30 + v else 0x57 + v)) = some v := by decide
  have e₀ := hdigit (unit / 4096) (by omega)
  have e₁ := hdigit (unit / 256 % 16) (by omega)
  have e₂ := hdigit (unit / 16 % 16) (by omega)
  have e₃ := hdigit (unit % 16) (by omega)
  have hunit : 4096 * (unit / 4096) + 256 * (unit / 256 % 16) + 16 * (unit / 16 % 16) + unit % 16 = unit := by omega
  have hescape := UnicodeEscape.mk e₀ e₁ e₂ e₃
  rw [hunit] at hescape
  exact ⟨_, hescape⟩

/-- A character can be escaped, as one code unit or as two. -/
theorem exists_coded (c : Char) : ∃ unit bytes more, UnicodeEscape unit bytes ∧ Spells (.char c) (bytes ++ more) ∧
    (more = [] ∨ ∃ rest, more = 0x5C :: rest) ∧ (c.toNat < 0x10000 → unit = c.toNat) := by
  by_cases hsmall : c.toNat < 0x10000
  · obtain ⟨bytes, hescape⟩ := exists_escape hsmall
    refine ⟨_, bytes, [], hescape, ?_, .inl rfl, fun _ => rfl⟩
    rw [List.append_nil]
    exact .unit hsmall hescape
  · have hbound : c.toNat < 0x110000 := by
      obtain hlow | ⟨_, hhigh⟩ := c.valid
      · exact Nat.lt_trans hlow (by decide)
      · exact hhigh
    obtain ⟨high, hhigh⟩ := exists_escape (show 0xD800 + (c.toNat - 0x10000) / 0x400 < 0x10000 by omega)
    obtain ⟨low, hlow⟩ := exists_escape (show 0xDC00 + (c.toNat - 0x10000) % 0x400 < 0x10000 by omega)
    exact ⟨_, high, low, hhigh, .pair (Nat.le_of_not_lt hsmall) hhigh hlow, .inr hlow.head, fun h => absurd h hsmall⟩

/-- Characters of a word that all stand for themselves, tested one by one. -/
theorem word_can_stand {word : List Char} (h : word.all (fun c => decide (c.toNat < 128 ∧ CanStand c)) = true) :
    ∀ c ∈ word, c.toNat < 128 ∧ CanStand c :=
  fun c hc => of_decide_eq_true (List.all_eq_true.mp h c hc)

/-- A word can be written out. -/
theorem encodes_word (word : List Char) (hword : ∀ c ∈ word, c.toNat < 128 ∧ CanStand c) :
    Encodes (word.map .char) (word.map fun c => UInt8.ofNat c.toNat) := by
  induction word with
  | nil => exact .nil
  | cons c word ih =>
    obtain ⟨hascii, hstand⟩ := hword c List.mem_cons_self
    have hspells := Spells.literal hstand
    rw [utf8_of_ascii hascii] at hspells
    exact .cons hspells (ih fun c hc => hword c (List.mem_cons_of_mem _ hc))

theorem hex_value_visible {d : UInt8} {v : ℕ} (h : hex_value d = some v) : 0x20 ≤ d := by
  unfold hex_value at h
  split_ifs at h with h₁ h₂ h₃
  · exact UInt8.le_trans (by decide) h₁.1
  · exact UInt8.le_trans (by decide) h₂.1
  · exact UInt8.le_trans (by decide) h₃.1

theorem UnicodeEscape.visible (h : UnicodeEscape unit bytes) : ∀ b ∈ bytes, 0x20 ≤ b := by
  cases h with
  | mk e₀ e₁ e₂ e₃ =>
    intro b hb
    simp only [List.mem_cons, List.not_mem_nil, or_false] at hb
    obtain rfl | rfl | rfl | rfl | rfl | rfl := hb
    · decide
    · decide
    · exact hex_value_visible e₀
    · exact hex_value_visible e₁
    · exact hex_value_visible e₂
    · exact hex_value_visible e₃

theorem Spells.visible (h : Spells p bytes) : ∀ b ∈ bytes, 0x20 ≤ b := by
  cases h with
  | @literal c hstand =>
    intro b hb
    by_cases hascii : c.toNat < 128
    · rw [utf8_of_ascii hascii, List.mem_singleton] at hb
      rw [hb, UInt8.le_iff_toNat_le, UInt8.toNat_ofNat_of_lt' (show c.toNat < 256 by omega)]
      exact hstand.1
    · exact UInt8.le_trans (by decide) (utf8_high (Nat.le_of_not_lt hascii) b hb)
  | unit _ hescape => exact hescape.visible
  | pair _ hhigh hlow =>
    intro b hb
    obtain hb | hb := List.mem_append.mp hb
    · exact hhigh.visible b hb
    · exact hlow.visible b hb
  | short e =>
    cases e <;> decide +kernel

/-- An encoded text has no control characters. -/
theorem Encodes.visible (h : Encodes text enc) : ∀ b ∈ enc, 0x20 ≤ b := by
  induction h with
  | nil => exact fun b hb => absurd hb List.not_mem_nil
  | cons hspells _ ih =>
    intro b hb
    obtain hb | hb := List.mem_append.mp hb
    · exact hspells.visible b hb
    · exact ih b hb

end json_text
