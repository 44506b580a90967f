import OsDev.Net.RequestBody

open os_dev.libc

namespace os_dev.net_stack

variable {c : UInt8} {src text : CStr} {dst_max : ℕ}

/-- What a text with backslash escapes consists of: characters, escapes, and a backslash at the end
    that escapes nothing. -/
inductive Token where
  | char (c : UInt8)
  | escape (e : UInt8)
  | cut
  deriving DecidableEq

def tokens : CStr → List Token
  | [] => []
  | [c] => if c = backslash then [.cut] else [.char c]
  | c :: e :: rest => if c = backslash then .escape e :: tokens rest else .char c :: tokens (e :: rest)

/-- The character that an escape stands for. -/
def unescape_char (e : UInt8) : UInt8 :=
  if e = letter_n then newline else if e = letter_r then carriage_return else if e = letter_t then tab else e

def Token.undo : Token → CStr
  | .char c => [c]
  | .escape e => [unescape_char e]
  | .cut => [backslash]

/-- Undo the escapes. -/
def unescape (text : CStr) : CStr := (tokens text).flatMap Token.undo

/-- The escapes that `json_escape` writes. -/
def json_escapes : List UInt8 := [quote, backslash, letter_n, letter_r, letter_t]

/-- A token that `json_escape` writes for the character `c`. -/
def Token.Escapes (c : UInt8) : Token → Prop
  | .char b => b = c ∧ b ≠ quote ∧ b ≠ backslash
  | .escape e => e ∈ json_escapes ∧ unescape_char e = c
  | .cut => False

theorem Token.Escapes.undo {t : Token} (h : t.Escapes c) : t.undo = [c] := by
  cases t with
  | char b => rw [Token.undo, h.1]
  | escape e => rw [Token.undo, h.2]
  | cut => exact h.elim

theorem Token.Escapes.plain {t : Token} (h : t.Escapes c) : t ≠ .char quote ∧ t ≠ .cut ∧ ∀ e, t = .escape e → e ∈ json_escapes := by
  cases t with
  | char b => exact ⟨fun heq => h.2.1 (Token.char.inj heq), nofun, nofun⟩
  | escape e => exact ⟨nofun, nofun, fun e' heq => Token.escape.inj heq ▸ h.1⟩
  | cut => exact h.elim

theorem tokens_escape (e : UInt8) (text : CStr) : tokens (backslash :: e :: text) = .escape e :: tokens text := by
  rw [tokens, if_pos rfl]

theorem tokens_char (hc : c ≠ backslash) (text : CStr) : tokens (c :: text) = .char c :: tokens text := by
  cases text with
  | nil => simp only [tokens, if_neg hc]
  | cons e text => rw [tokens, if_neg hc]

/-- What is written for one character reads as one token, whatever follows. -/
theorem tokens_escape_char (c : UInt8) : ∃ t : Token, t.Escapes c ∧ ∀ text, tokens (escape_char c ++ text) = t :: tokens text := by
  unfold escape_char
  split_ifs with h₁ h₂ h₃ h₄
  · refine ⟨.escape c, ?_, tokens_escape c⟩
    rcases h₁ with rfl | rfl
    · exact ⟨by decide, rfl⟩
    · exact ⟨by decide, rfl⟩
  · exact ⟨.escape letter_n, ⟨by decide, h₂.symm⟩, tokens_escape letter_n⟩
  · exact ⟨.escape letter_r, ⟨by decide, h₃.symm⟩, tokens_escape letter_r⟩
  · exact ⟨.escape letter_t, ⟨by decide, h₄.symm⟩, tokens_escape letter_t⟩
  · rw [not_or] at h₁
    exact ⟨.char c, ⟨rfl, h₁.1, h₁.2⟩, tokens_char h₁.2⟩

/-- An escaped text reads as one token for each of its characters. -/
theorem tokens_escaped (src : CStr) : List.Forall₂ Token.Escapes src (tokens (src.flatMap escape_char)) := by
  induction src with
  | nil => exact .nil
  | cons c src ih =>
    obtain ⟨t, ht, htokens⟩ := tokens_escape_char c
    rw [List.flatMap_cons, htokens]
    exact .cons ht ih

theorem undo_of_escapes {l : List Token} (h : List.Forall₂ Token.Escapes src l) : l.flatMap Token.undo = src := by
  induction h with
  | nil => rfl
  | cons ht _ ih => rw [List.flatMap_cons, ht.undo, ih, List.singleton_append]

theorem plain_of_escapes {l : List Token} (h : List.Forall₂ Token.Escapes src l) :
    .char quote ∉ l ∧ .cut ∉ l ∧ ∀ e, .escape e ∈ l → e ∈ json_escapes := by
  have hall : ∀ t ∈ l, ∃ c : UInt8, t.Escapes c := by
    induction h with
    | nil => exact fun t ht => absurd ht List.not_mem_nil
    | cons ht _ ih => exact List.forall_mem_cons.mpr ⟨⟨_, ht⟩, ih⟩
  refine ⟨fun hmem => ?_, fun hmem => ?_, fun e hmem => ?_⟩
  · obtain ⟨c, hc⟩ := hall _ hmem
    exact hc.plain.1 rfl
  · obtain ⟨c, hc⟩ := hall _ hmem
    exact hc.plain.2.1 rfl
  · obtain ⟨c, hc⟩ := hall _ hmem
    exact hc.plain.2.2 e rfl

theorem escape_char_pos (c : UInt8) : 0 < (escape_char c).length := by
  unfold escape_char
  split_ifs <;> simp

theorem json_escape_eq (src : CStr) (dst_max : ℕ) : json_escape src dst_max = (kept dst_max 0 src).flatMap escape_char := by
  rw [json_escape, json_escape_loop_eq, List.nil_append, List.length_nil]

/-- A text is kept as a whole if it fits when it is escaped. -/
theorem kept_of_fits {n : ℕ} (h : n + (src.flatMap escape_char).length ≤ dst_max - 2) : kept dst_max n src = src := by
  induction src generalizing n with
  | nil => rfl
  | cons c src ih =>
    rw [List.flatMap_cons, List.length_append] at h
    have hpos := escape_char_pos c
    rw [kept, if_pos (by omega), ih (by omega)]

/-- `json_escape` stays within its buffer, and its output can be decoded: to a prefix of the text, and to
    all of it if it fits. -/
theorem json_escape_decodes (src : CStr) (dst_max : ℕ) (hmax : 2 ≤ dst_max) :
    (json_escape src dst_max).length + 1 ≤ dst_max ∧
      (.char quote ∉ tokens (json_escape src dst_max) ∧ .cut ∉ tokens (json_escape src dst_max) ∧
        ∀ e, .escape e ∈ tokens (json_escape src dst_max) → e ∈ json_escapes) ∧
      unescape (json_escape src dst_max) <+: src ∧
      ((src.flatMap escape_char).length ≤ dst_max - 2 → unescape (json_escape src dst_max) = src) := by
  have htokens := tokens_escaped (kept dst_max 0 src)
  rw [← json_escape_eq] at htokens
  have hundo : unescape (json_escape src dst_max) = kept dst_max 0 src := undo_of_escapes htokens
  refine ⟨?_, plain_of_escapes htokens, ?_, fun hfits => ?_⟩
  · exact json_escape_loop_length hmax src [] (by simp only [List.length_nil]; omega)
  · rw [hundo]
    exact kept_prefix dst_max 0 src
  · rw [hundo, kept_of_fits (by omega)]

/-- A quote that does not fit any more. -/
theorem json_escape_decodes_cut :
    (json_escape [0x61, quote, 0x62] 5).length + 1 ≤ 5 ∧ unescape (json_escape [0x61, quote, 0x62] 5) <+: [0x61, quote, 0x62] := by
  obtain ⟨hlen, -, hprefix, -⟩ := json_escape_decodes [0x61, quote, 0x62] 5 (by decide)
  exact ⟨hlen, hprefix⟩

end os_dev.net_stack
