import OsDev.Lib.JsonText
import OsDev.Net.Conversation

open os_dev.libc char_array json_text

namespace os_dev.net_stack

variable {σ : Type} {lwip : Lwip} {shell : ShellExecute σ} {ps : Parser σ}
variable {p : Piece} {text pre post : List Piece} {bytes enc tail rest : CStr} {ch : Char}

/-- An opening tag in the text behind a bracket. -/
def Opens (text : List Piece) : Prop :=
  ∃ k rest, text = List.replicate k (.char ' ') ++ "EXEC_CMD:".toList.map .char ++ rest

/-- A character that the two spellings are not treated alike for: one beyond ASCII, or the
    bracket of an opening tag. -/
def Marks (p : Piece) (post : List Piece) : Prop :=
  ∃ c, p = .char c ∧ (128 ≤ c.toNat ∨ c = '<' ∧ Opens post)

/-- No such character in a piece of text in front of another. -/
def UnmarkedBefore (post : List Piece) : List Piece → Prop
  | [] => True
  | p :: pre => ¬ Marks p (pre ++ post) ∧ UnmarkedBefore post pre

/-- A text of ASCII characters without opening tags. -/
def Unmarked (text : List Piece) : Prop := UnmarkedBefore [] text

/-- What the screen shows of a piece. -/
def shown : Piece → CStr
  | .char c => [UInt8.ofNat c.toNat]
  | .short .quote => [quote]
  | .short .backslash => [backslash]
  | .short .newline => [newline]
  | .short .tab => [space]
  | .short e => [backslash, e.letter]

theorem open_tag_space (scan : CStr) : open_tag (space :: scan) = open_tag scan := by
  simp only [open_tag, List.dropWhile_cons_of_pos, decide_true]

theorem open_tag_isSome {b : UInt8} {scan resp : CStr} (hb : b ≠ space) (htag : open_tag (b :: scan) = some resp) :
    ∃ rest, b :: scan = ascii "EXEC_CMD:" ++ rest := by
  simp only [open_tag, List.dropWhile_cons_of_neg, hb, decide_false, Bool.false_eq_true, not_false_eq_true] at htag
  split at htag
  · rename_i hword
    obtain ⟨rest, hrest⟩ := List.isPrefixOf_iff_prefix.mp hword
    exact ⟨rest, hrest.symm⟩
  · cases htag

/-- A tag found in the encoded text is a tag of the text. -/
theorem opens_of_open_tag (h : Encodes text enc) {resp : CStr} (htag : open_tag (enc ++ quote :: tail) = some resp) :
    Opens text := by
  induction text generalizing enc with
  | nil =>
    obtain rfl := encodes_nil_iff.mp h
    obtain ⟨rest, hrest⟩ := open_tag_isSome (by decide) htag
    exact absurd (List.cons.inj hrest).1 (by decide)
  | cons p text ih =>
    obtain ⟨b, scan, hscan⟩ := List.exists_cons_of_ne_nil (show enc ++ quote :: tail ≠ [] by simp)
    rw [hscan] at htag
    by_cases hb : b = space
    · subst hb
      rw [open_tag_space] at htag
      obtain ⟨text', enc', heq, henc', hrest⟩ := h.head_char (c := ' ') (by decide) (by decide) hscan
      obtain ⟨rfl, rfl⟩ := List.cons.inj heq
      rw [hrest] at htag
      obtain ⟨k, rest, rfl⟩ := ih henc' htag
      exact ⟨k + 1, rest, rfl⟩
    · obtain ⟨rest, hrest⟩ := open_tag_isSome hb htag
      rw [hrest] at hscan
      obtain ⟨text', heq⟩ := h.head_word "EXEC_CMD:".toList (word_can_stand (by decide +kernel)) hscan
      exact ⟨0, text', heq⟩

theorem open_tag_eq_none (h : Encodes text enc) (hopens : ¬ Opens text) : open_tag (enc ++ quote :: tail) = none := by
  cases htag : open_tag (enc ++ quote :: tail) with
  | none => rfl
  | some resp => exact absurd (opens_of_open_tag h htag) hopens

theorem take_char_print (hps : ps.catching = false) (c : UInt8) : ps.take_char c = ps.print_string [c] := by
  simp only [Parser.take_char, hps, Bool.false_eq_true, if_false]

theorem print_string_append (s t : CStr) : (ps.print_string s).print_string t = ps.print_string (s ++ t) := by
  simp only [Parser.print_string, Net.print_string, List.append_assoc]

/-- A character that is written out, while nothing is being caught. -/
theorem literal_print {c : UInt8} (hps : ps.catching = false) (htag : c = less → open_tag rest = none) :
    ps.literal lwip shell c rest = (some rest, ps.print_string [c]) := by
  simp only [Parser.literal, hps, Bool.false_eq_true, not_false_eq_true, true_and, false_and, if_false, take_char_print hps]
  split
  · rw [htag ‹_›]
  · rfl

/-- A character that is escaped, while nothing is being caught. -/
theorem escaped_print {c : UInt8} (hps : ps.catching = false) (htag : c = less → open_tag rest = none) :
    ps.escaped shell c rest = (some rest, ps.print_string [c]) := by
  simp only [Parser.escaped, hps, Bool.false_eq_true, and_false, if_false, take_char_print hps]
  split
  · rw [htag ‹_›]
  · rfl

theorem hex_digit_of_value {d : UInt8} {v : ℕ} (h : hex_value d = some v) : hex_digit d = v ∧ v < 16 := by
  simp only [hex_value] at h
  simp only [hex_digit]
  split_ifs at h ⊢ with h₁ h₂ h₃
  · have := UInt8.le_iff_toNat_le.mp h₁.2
    have hnum : (0x39 : UInt8).toNat = 57 := rfl
    have hv := Option.some.inj h
    exact ⟨hv, by omega⟩
  · have := UInt8.le_iff_toNat_le.mp h₂.2
    have hnum : (0x66 : UInt8).toNat = 102 := rfl
    have hv := Option.some.inj h
    exact ⟨hv, by omega⟩
  · have := UInt8.le_iff_toNat_le.mp h₃.2
    have hnum : (0x46 : UInt8).toNat = 70 := rfl
    have hv := Option.some.inj h
    exact ⟨hv, by omega⟩

/-- A round at `\uXXXX`. -/
theorem round_escape {unit : ℕ} (h : UnicodeEscape unit bytes) :
    ∃ more, bytes = backslash :: more ∧
      ps.round lwip shell backslash (more ++ rest) = ps.escaped shell (UInt8.ofNat (unit % 0x80)) rest := by
  cases h with
  | @mk h₀ h₁ h₂ h₃ v₀ v₁ v₂ v₃ e₀ e₁ e₂ e₃ =>
    refine ⟨_, rfl, ?_⟩
    have hlen : 4 ≤ ([h₀, h₁, h₂, h₃] ++ rest).length := by simp
    simp only [Parser.round, if_true, List.cons_append, List.nil_append]
    rw [if_pos ⟨rfl, hlen⟩]
    simp only [decode_unicode_escape, (hex_digit_of_value e₀).1, (hex_digit_of_value e₁).1, (hex_digit_of_value e₂).1,
      (hex_digit_of_value e₃).1]

theorem not_marks_ascii (h : ¬ Marks (.char ch) post) : ch.toNat < 128 := by
  by_contra hhigh
  exact h ⟨ch, rfl, .inl (Nat.le_of_not_lt hhigh)⟩

/-- The byte of an ASCII character is a given one only if the character is. -/
theorem ofNat_ch_eq {d : Char} (hch : ch.toNat < 128) (hd : d.toNat < 128) (h : UInt8.ofNat ch.toNat = UInt8.ofNat d.toNat) :
    ch = d := by
  refine Char.toNat_inj.mp ?_
  rw [← UInt8.toNat_ofNat_of_lt' (show ch.toNat < 256 by omega), h, UInt8.toNat_ofNat_of_lt' (show d.toNat < 256 by omega)]

/-- No tag is found behind a bracket of the text that opens none. -/
theorem not_marks_tag (h : ¬ Marks (.char ch) post) (henc : Encodes post enc) (hless : UInt8.ofNat ch.toNat = less) :
    open_tag (enc ++ quote :: tail) = none := by
  refine open_tag_eq_none henc fun hopens => h ⟨ch, rfl, .inr ⟨?_, hopens⟩⟩
  exact ofNat_ch_eq (d := '<') (not_marks_ascii h) (by decide) hless

theorem parse_literal {c : UInt8} (hps : ps.catching = false) (hquote : c ≠ quote) (hback : c ≠ backslash)
    (htag : c = less → open_tag rest = none) :
    Parser.parse lwip shell (c :: rest) ps = Parser.parse lwip shell rest (ps.print_string [c]) := by
  rw [parse_cons hquote]
  simp only [Parser.round, if_neg hback, literal_print hps htag]

theorem parse_escape {unit : ℕ} (hps : ps.catching = false) (h : UnicodeEscape unit bytes)
    (htag : UInt8.ofNat (unit % 0x80) = less → open_tag rest = none) :
    Parser.parse lwip shell (bytes ++ rest) ps = Parser.parse lwip shell rest (ps.print_string [UInt8.ofNat (unit % 0x80)]) := by
  obtain ⟨more, rfl, hround⟩ := @round_escape σ lwip shell ps bytes rest unit h
  rw [List.cons_append, parse_cons (by decide), hround, escaped_print hps htag]

/-- A backslash that the parser knows no escape for is a character like others. -/
theorem parse_unknown {c : UInt8} (hps : ps.catching = false)
    (hunknown : c ∉ [letter_u, letter_n, letter_t, quote, backslash, less]) :
    Parser.parse lwip shell (backslash :: c :: rest) ps = Parser.parse lwip shell rest (ps.print_string [backslash, c]) := by
  simp only [List.mem_cons, List.not_mem_nil, or_false, not_or] at hunknown
  obtain ⟨hu, hn, ht, hquote, hback, hless⟩ := hunknown
  rw [parse_cons (by decide)]
  simp only [Parser.round, if_true, hu, false_and, if_neg hn, if_neg ht, if_neg hquote, if_neg hback, if_false]
  rw [literal_print hps (fun heq => absurd heq (by decide))]
  simp only
  rw [@parse_literal σ lwip shell (ps.print_string [backslash]) rest c hps hquote hback (fun heq => absurd heq hless), print_string_append]
  rfl

/-- A round at one of the short escapes that the parser knows. -/
theorem parse_known {c : UInt8} {s : CStr} (hround : ps.round lwip shell backslash (c :: rest) = (some rest, ps.print_string s)) :
    Parser.parse lwip shell (backslash :: c :: rest) ps = Parser.parse lwip shell rest (ps.print_string s) := by
  rw [parse_cons (by decide), hround]

theorem parse_short (hps : ps.catching = false) (e : Short) :
    Parser.parse lwip shell (backslash :: e.letter :: rest) ps = Parser.parse lwip shell rest (ps.print_string (shown (.short e))) := by
  cases e with
  | quote => exact parse_known (congrArg (Prod.mk (some rest)) (take_char_print hps quote))
  | backslash => exact parse_known (congrArg (Prod.mk (some rest)) (take_char_print hps backslash))
  | newline => exact parse_known (by simp only [Parser.round, hps]; rfl)
  | tab => exact parse_known (by simp only [Parser.round, hps]; rfl)
  | slash => exact parse_unknown hps (by decide)
  | backspace => exact parse_unknown hps (by decide)
  | form_feed => exact parse_unknown hps (by decide)
  | carriage_return => exact parse_unknown hps (by decide)

/-- What is not marked is shown, however it is spelled. -/
theorem parse_piece (hps : ps.catching = false) (hspells : Spells p bytes) (henc : Encodes post enc) (hmarks : ¬ Marks p post) :
    Parser.parse lwip shell (bytes ++ (enc ++ quote :: tail)) ps =
      Parser.parse lwip shell (enc ++ quote :: tail) (ps.print_string (shown p)) := by
  cases hspells with
  | @literal c hstand =>
    have hascii := not_marks_ascii hmarks
    rw [utf8_of_ascii hascii]
    refine parse_literal hps (fun heq => hstand.2.1 ?_) (fun heq => hstand.2.2 ?_) (not_marks_tag hmarks henc)
    · exact congrArg Char.toNat (ofNat_ch_eq (d := '"') hascii (by decide) heq)
    · exact congrArg Char.toNat (ofNat_ch_eq (d := '\\') hascii (by decide) heq)
  | @unit c bytes _ hescape =>
    have hascii := not_marks_ascii hmarks
    have hunit : UInt8.ofNat (c.toNat % 0x80) = UInt8.ofNat c.toNat := by rw [Nat.mod_eq_of_lt hascii]
    rw [parse_escape hps hescape (by rw [hunit]; exact not_marks_tag hmarks henc), hunit]
    rfl
  | @pair c _ _ hhigh _ _ =>
    have hascii := not_marks_ascii hmarks
    omega
  | short e => exact parse_short hps e

/-- The same for a text in front of another. -/
theorem parse_unmarked (hps : ps.catching = false) (hpre : Encodes pre bytes) (hpost : Encodes post enc)
    (hunmarked : UnmarkedBefore post pre) :
    Parser.parse lwip shell (bytes ++ (enc ++ quote :: tail)) ps =
      Parser.parse lwip shell (enc ++ quote :: tail) (ps.print_string (pre.flatMap shown)) := by
  induction hpre generalizing ps with
  | nil =>
    simp only [List.flatMap_nil, Parser.print_string, Net.print_string, List.append_nil, List.nil_append]
  | @cons p text bytes rest hspells hrest ih =>
    have hboth := hrest.append hpost
    have hstep : Parser.parse lwip shell (bytes ++ (rest ++ enc ++ quote :: tail)) ps =
        Parser.parse lwip shell (rest ++ enc ++ quote :: tail) (ps.print_string (shown p)) :=
      parse_piece hps hspells hboth hunmarked.1
    have hnext := @ih (ps.print_string (shown p)) hps hunmarked.2
    rw [List.append_assoc] at hstep
    rw [List.append_assoc, hstep, hnext, print_string_append, List.flatMap_cons]

/-- A text without marks is shown as it is. -/
theorem parse_text (hps : ps.catching = false) (henc : Encodes text enc) (hunmarked : Unmarked text) :
    Parser.parse lwip shell (enc ++ quote :: tail) ps = ps.print_string (text.flatMap shown) := by
  have hparse : Parser.parse lwip shell (enc ++ ([] ++ quote :: tail)) ps =
      Parser.parse lwip shell ([] ++ quote :: tail) (ps.print_string (text.flatMap shown)) :=
    parse_unmarked hps henc .nil hunmarked
  rwa [List.nil_append, parse_quote] at hparse

/-- All payloads whose response is an encoding of the text are handled in the same way. -/
def HandledAlike (text : List Piece) : Prop :=
  ∀ (payload₁ payload₂ enc₁ enc₂ tail₁ tail₂ : CStr), Encodes text enc₁ → Encodes text enc₂ →
    response_text (cstr payload₁) = some (enc₁ ++ quote :: tail₁) →
    response_text (cstr payload₂) = some (enc₂ ++ quote :: tail₂) →
    ∀ (σ : Type) (lwip : Lwip) (shell : ShellExecute σ) (os : σ) (net : Net),
      ollama_parse_json lwip shell os net payload₁ = ollama_parse_json lwip shell os net payload₂

theorem handled_alike_of_unmarked (hunmarked : Unmarked text) : HandledAlike text := by
  intro payload₁ payload₂ enc₁ enc₂ tail₁ tail₂ henc₁ henc₂ hresp₁ hresp₂ σ lwip shell os net
  have hparse : ∀ payload enc tail, Encodes text enc → response_text (cstr payload) = some (enc ++ quote :: tail) →
      ollama_parse lwip shell os net payload =
        Parser.print_string ⟨os, net.print_string (ascii "\nAI: "), false, .zeroed 256⟩ (text.flatMap shown) := by
    intro payload enc tail henc hresp
    simp only [ollama_parse, hresp]
    exact parse_text rfl henc hunmarked
  simp only [ollama_parse_json, hparse payload₁ enc₁ tail₁ henc₁ hresp₁, hparse payload₂ enc₂ tail₂ henc₂ hresp₂]

variable {qs : Parser Unit} {c : UInt8}

theorem take_char_grows (c : UInt8) : qs.net.screen <+: (qs.take_char c).net.screen := by
  unfold Parser.take_char
  split
  · split
    · exact List.prefix_refl _
    · exact List.prefix_refl _
  · exact List.prefix_append _ _

/-- The announcement of a command starts a line. -/
theorem run_command_grows (cmd : CStr) : qs.net.screen ++ [newline] <+: (qs.run_command idle_shell cmd).1.net.screen := by
  refine ⟨ascii "[JARVIS Agent >> " ++ cmd ++ ascii "]\n", ?_⟩
  simp only [Parser.run_command, idle_shell, Parser.print_string, Net.print_string, List.append_assoc]
  rfl

theorem feedback_request_grows (net : Net) (ip_str feedback : CStr) :
    net.screen <+: (ollama_feedback_request lwip net ip_str feedback).screen := by
  simp only [ollama_feedback_request]
  split
  · split
    · exact List.prefix_refl _
    · exact List.prefix_refl _
  · exact List.prefix_append _ _

theorem feedback_grows (cmd output : CStr) : qs.net.screen <+: (qs.feedback lwip cmd output).net.screen := by
  have hline := List.prefix_append qs.net.screen (ascii "\n[Network: Queuing Agent Feedback...]\n")
  refine hline.trans ?_
  exact feedback_request_grows
    (Net.print_string { qs.net with feedback_prompt := feedback_text qs.net.feedback_prompt cmd output } _) _ _

theorem close_escaped_grows : qs.net.screen ++ [newline] <+: (qs.close_escaped idle_shell).net.screen :=
  run_command_grows _

theorem close_literal_grows : qs.net.screen ++ [newline] <+: (qs.close_literal lwip idle_shell).net.screen := by
  simp only [Parser.close_literal]
  split
  · refine ⟨ascii "[JARVIS Agent Sequence Completed]\n", ?_⟩
    rw [List.append_assoc]
    rfl
  · exact (run_command_grows _).trans (feedback_grows _ _)

/-- What a round does to the screen: it starts a line, or it shows something without
    looking for the end of a command, and nothing while a command is being caught. -/
structure Shows (qs qs' : Parser Unit) : Prop where
  grows : qs.net.screen <+: qs'.net.screen
  caught : qs.catching = true → qs'.catching = true ∧ qs'.net.screen = qs.net.screen ∨ qs.net.screen ++ [newline] <+: qs'.net.screen

theorem Shows.line {qs' : Parser Unit} (h : qs.net.screen ++ [newline] <+: qs'.net.screen) : Shows qs qs' :=
  ⟨(List.prefix_append _ _).trans h, fun _ => .inr h⟩

theorem Shows.start : Shows qs qs.start := ⟨List.prefix_refl _, fun _ => .inl ⟨rfl, rfl⟩⟩

theorem Shows.take_char (c : UInt8) : Shows qs (qs.take_char c) := by
  refine ⟨take_char_grows c, fun hcatching => .inl ?_⟩
  simp only [Parser.take_char, hcatching, if_true]
  split
  · exact ⟨rfl, rfl⟩
  · exact ⟨hcatching, rfl⟩

theorem Shows.unless_catching (s : CStr) : Shows qs (if qs.catching then qs else qs.print_string s) := by
  split
  · rename_i hcatching
    exact ⟨List.prefix_refl _, fun _ => .inl ⟨hcatching, rfl⟩⟩
  · rename_i hcatching
    exact ⟨List.prefix_append _ _, fun h => absurd h hcatching⟩

theorem Shows.trans {qs' qs'' : Parser Unit} (h : Shows qs qs') (h' : Shows qs' qs'') : Shows qs qs'' := by
  refine ⟨h.grows.trans h'.grows, fun hcatching => ?_⟩
  obtain ⟨hstill, hsame⟩ | hline := h.caught hcatching
  · rw [← hsame]
    exact h'.caught hstill
  · exact .inr (hline.trans h'.grows)

theorem escaped_shows (d : UInt8) : Shows qs (qs.escaped idle_shell d rest).2 := by
  unfold Parser.escaped
  split
  · split
    · exact .start
    · exact .take_char d
  · split
    · exact .line close_escaped_grows
    · exact .take_char d

theorem literal_shows : Shows qs (qs.literal lwip idle_shell c rest).2 := by
  unfold Parser.literal
  split
  · split
    · exact .start
    · exact .take_char c
  · split
    · exact .line close_literal_grows
    · exact .take_char c

theorem round_shows : Shows qs (qs.round lwip idle_shell c rest).2 := by
  unfold Parser.round
  split
  · split
    · exact literal_shows
    · split
      · split
        · exact escaped_shows _
        · exact literal_shows
      · split
        · exact .unless_catching _
        · split
          · exact .unless_catching _
          · split
            · exact .take_char quote
            · split
              · exact .take_char backslash
              · exact literal_shows
  · exact literal_shows

theorem parse_shows (lwip : Lwip) (qs : Parser Unit) (resp : CStr) : Shows qs (Parser.parse lwip idle_shell resp qs) := by
  suffices hloop : ∀ fuel resp qs, Shows qs (Parser.loop lwip idle_shell fuel resp qs) from hloop _ _ _
  intro fuel
  induction fuel with
  | zero => exact fun _ qs => ⟨List.prefix_refl _, fun hcatching => .inl ⟨hcatching, rfl⟩⟩
  | succ fuel ih =>
    intro resp qs
    cases resp with
    | nil => exact ⟨List.prefix_refl _, fun hcatching => .inl ⟨hcatching, rfl⟩⟩
    | cons c rest =>
      simp only [Parser.loop]
      split
      · exact ⟨List.prefix_refl _, fun hcatching => .inl ⟨hcatching, rfl⟩⟩
      · have hround := @round_shows lwip rest qs c
        generalize qs.round lwip idle_shell c rest = next at hround
        obtain ⟨_ | resp, qs'⟩ := next
        · exact hround
        · exact hround.trans (ih resp qs')

/-- An opening tag that is written out is found. -/
theorem open_tag_of_opens (k : ℕ) (scan : CStr) :
    open_tag (List.replicate k space ++ ascii "EXEC_CMD:" ++ scan) = some (scan.dropWhile (· = space)) := by
  induction k with
  | zero => rfl
  | succ k ih => rw [List.replicate_succ, List.cons_append, List.cons_append, open_tag_space, ih]

theorem open_tag_backslash (scan : CStr) : open_tag (backslash :: scan) = none := by
  cases htag : open_tag (backslash :: scan) with
  | none => rfl
  | some resp =>
    obtain ⟨rest, hrest⟩ := open_tag_isSome (by decide) htag
    exact absurd (List.cons.inj hrest).1 (by decide)

/-- Every text can be encoded with a backslash in front of everything. -/
theorem exists_coded_text (text : List Piece) : ∃ enc, Encodes text enc ∧ ∀ tail, open_tag (enc ++ quote :: tail) = none := by
  induction text with
  | nil => exact ⟨[], .nil, fun tail => rfl⟩
  | cons p text ih =>
    obtain ⟨enc, henc, _⟩ := ih
    cases p with
    | short e => exact ⟨_, .cons (.short e) henc, fun tail => open_tag_backslash _⟩
    | char c =>
      obtain ⟨unit, bytes, more, hescape, hspells, _, _⟩ := exists_coded c
      obtain ⟨rest, rfl⟩ := hescape.head
      exact ⟨_, .cons hspells henc, fun tail => open_tag_backslash _⟩

/-- A text with a tag in front can be encoded so that it is found. -/
theorem exists_tag_text (h : Opens text) : ∃ enc, Encodes text enc ∧ ∀ tail, ∃ resp, open_tag (enc ++ quote :: tail) = some resp := by
  obtain ⟨k, rest, rfl⟩ := h
  obtain ⟨enc, henc, _⟩ := exists_coded_text rest
  have hspaces : Encodes (List.replicate k (.char ' ')) (List.replicate k space) := by
    have hword := encodes_word (List.replicate k ' ') fun c hc => by
      rw [List.eq_of_mem_replicate hc]
      decide
    rwa [List.map_replicate, List.map_replicate] at hword
  have hword : Encodes ("EXEC_CMD:".toList.map .char) (ascii "EXEC_CMD:") :=
    encodes_word _ (word_can_stand (by decide +kernel))
  refine ⟨_, (hspaces.append hword).append henc, fun tail => ⟨(enc ++ quote :: tail).dropWhile (· = space), ?_⟩⟩
  rw [List.append_assoc _ enc]
  exact open_tag_of_opens k _

/-- The first mark of a text. -/
theorem unmarked_or_first_mark (text : List Piece) :
    Unmarked text ∨ ∃ pre p post, text = pre ++ p :: post ∧ UnmarkedBefore (p :: post) pre ∧ Marks p post := by
  induction text with
  | nil => exact .inl trivial
  | cons p text ih =>
    by_cases hmarks : Marks p text
    · exact .inr ⟨[], p, text, rfl, trivial, hmarks⟩
    · obtain hunmarked | ⟨pre, p', post, rfl, hbefore, hmarks'⟩ := ih
      · refine .inl ⟨?_, hunmarked⟩
        rw [List.append_nil]
        exact hmarks
      · exact .inr ⟨p :: pre, p', post, rfl, ⟨hmarks, hbefore⟩, hmarks'⟩

theorem strstr_none {needle haystack : CStr} {b : UInt8} (hb : b ∉ haystack) : strstr (b :: needle) haystack = none := by
  induction haystack with
  | nil => rfl
  | cons c haystack ih =>
    have hne : b ≠ c := fun heq => hb (heq ▸ List.mem_cons_self)
    simp only [strstr, List.isPrefixOf_cons_cons, beq_eq_false_iff_ne.mpr hne, Bool.false_and, Bool.false_eq_true, if_false]
    exact ih fun hmem => hb (List.mem_cons_of_mem c hmem)

/-- A payload with nothing but the response. -/
def bare_payload (enc : CStr) : CStr := ascii "\"response\":\"" ++ (enc ++ [quote])

theorem bare_payload_text (h : Encodes text enc) : response_text (cstr (bare_payload enc)) = some (enc ++ [quote]) := by
  have hvisible : ∀ b ∈ bare_payload enc, 0x20 ≤ b := by
    intro b hb
    have hname : ∀ b ∈ ascii "\"response\":\"", 0x20 ≤ b := by decide +kernel
    obtain hb | hb := List.mem_append.mp hb
    · exact hname b hb
    · obtain hb | hb := List.mem_append.mp hb
      · exact h.visible b hb
      · rw [List.mem_singleton.mp hb]
        decide
  have hcstr : cstr (bare_payload enc) = bare_payload enc := by
    refine List.takeWhile_eq_self_iff.mpr fun b hb => ?_
    rw [decide_eq_true_iff]
    rintro rfl
    exact absurd (hvisible 0 hb) (by decide)
  have hheader : strstr [0x0D, 0x0A, 0x0D, 0x0A] (bare_payload enc) = none :=
    strstr_none fun hmem => absurd (hvisible _ hmem) (by decide)
  rw [hcstr]
  simp only [response_text, hheader]
  rfl

/-- The escape of a character shows its low seven bits. -/
theorem exists_coded_shows (lwip : Lwip) (hqs : qs.catching = false) (ch : Char) (post : List Piece) :
    ∃ enc d, Encodes (.char ch :: post) enc ∧ d < 0x80 ∧ (ch.toNat < 128 → d = UInt8.ofNat ch.toNat) ∧
      qs.net.screen ++ [d] <+: (Parser.parse lwip idle_shell (enc ++ [quote]) qs).net.screen := by
  obtain ⟨unit, bytes, more, hescape, hspells, hmore, hunit⟩ := exists_coded ch
  obtain ⟨enc, henc, htag⟩ := exists_coded_text post
  refine ⟨_, UInt8.ofNat (unit % 0x80), .cons hspells henc, ?_, fun hascii => ?_, ?_⟩
  · rw [UInt8.lt_iff_toNat_lt, UInt8.toNat_ofNat_of_lt' (show unit % 0x80 < 256 by omega)]
    exact Nat.mod_lt _ (by decide)
  · rw [hunit (by omega), Nat.mod_eq_of_lt hascii]
  · have hnone : open_tag (more ++ (enc ++ [quote])) = none := by
      obtain rfl | ⟨rest, rfl⟩ := hmore
      · exact htag []
      · exact open_tag_backslash _
    rw [List.append_assoc, List.append_assoc, parse_escape hqs hescape fun _ => hnone]
    exact (parse_shows lwip (qs.print_string _) _).grows

/-- A character beyond ASCII, written out, shows a byte with its high bit set. -/
theorem exists_high_shows (lwip : Lwip) (hqs : qs.catching = false) (hch : 128 ≤ ch.toNat) (post : List Piece) :
    ∃ enc b, Encodes (.char ch :: post) enc ∧ 0x80 ≤ b ∧
      qs.net.screen ++ [b] <+: (Parser.parse lwip idle_shell (enc ++ [quote]) qs).net.screen := by
  obtain ⟨enc, henc, _⟩ := exists_coded_text post
  obtain ⟨b, bytes, hb⟩ := List.exists_cons_of_ne_nil (utf8_ne_nil ch)
  have hstand : CanStand ch := ⟨by omega, by omega, by omega⟩
  have hhigh := utf8_high hch b (hb ▸ List.mem_cons_self)
  have hne : ∀ c : UInt8, c < 0x80 → b ≠ c := by
    rintro c hc rfl
    exact absurd hhigh (UInt8.not_le.mpr hc)
  refine ⟨_, b, .cons (.literal hstand) henc, hhigh, ?_⟩
  rw [hb, List.cons_append, List.cons_append,
    parse_literal hqs (hne quote (by decide)) (hne backslash (by decide)) fun heq => absurd heq (hne less (by decide))]
  exact (parse_shows lwip (qs.print_string [b]) _).grows

/-- A tag that is written out shows nothing before a new line. -/
theorem exists_tag_shows (lwip : Lwip) (hqs : qs.catching = false) (h : Opens post) :
    ∃ enc, Encodes (.char '<' :: post) enc ∧
      ((Parser.parse lwip idle_shell (enc ++ [quote]) qs).net.screen = qs.net.screen ∨
        qs.net.screen ++ [newline] <+: (Parser.parse lwip idle_shell (enc ++ [quote]) qs).net.screen) := by
  obtain ⟨enc, henc, htag⟩ := exists_tag_text h
  obtain ⟨resp, hresp⟩ := htag []
  refine ⟨_, .cons (.literal (c := '<') (by decide)) henc, ?_⟩
  have hround : qs.round lwip idle_shell less (enc ++ [quote]) = (some resp, qs.start) := by
    have hback : less ≠ backslash := by decide
    simp only [Parser.round, if_neg hback, Parser.literal, hqs, Bool.false_eq_true, not_false_eq_true, and_self, if_true, hresp]
  change (Parser.parse lwip idle_shell (less :: (enc ++ [quote])) qs).net.screen = qs.net.screen ∨
    qs.net.screen ++ [newline] <+: (Parser.parse lwip idle_shell (less :: (enc ++ [quote])) qs).net.screen
  rw [parse_cons (by decide), hround]
  obtain ⟨_, hsame⟩ | hline := (parse_shows lwip qs.start resp).caught rfl
  · exact .inl hsame
  · exact .inr hline

theorem last_eq {s t : CStr} {a b : UInt8} (ha : s ++ [a] <+: t) (hb : s ++ [b] <+: t) : a = b := by
  have hprefix := List.prefix_of_prefix_length_le ha hb (by simp)
  have heq := hprefix.eq_of_length (by simp)
  exact List.singleton_inj.mp (List.append_cancel_left heq)

/-- Two encodings of a marked text of which the screens differ. -/
theorem not_handled_alike {pre post : List Piece} (hbefore : UnmarkedBefore (p :: post) pre) (hmarks : Marks p post) :
    ¬ HandledAlike (pre ++ p :: post) := by
  intro halike
  obtain ⟨bytes, hpre, _⟩ := exists_coded_text pre
  let start : Parser Unit := ⟨(), boot.print_string (ascii "\nAI: "), false, .zeroed 256⟩
  let qs := start.print_string (pre.flatMap shown)
  have hqs : qs.catching = false := rfl
  -- the screens are those that the parser leaves from the mark on
  have hscreen : ∀ enc₁ enc₂, Encodes (p :: post) enc₁ → Encodes (p :: post) enc₂ →
      (Parser.parse good_lwip idle_shell (enc₁ ++ [quote]) qs).net.screen =
        (Parser.parse good_lwip idle_shell (enc₂ ++ [quote]) qs).net.screen := by
    intro enc₁ enc₂ henc₁ henc₂
    have hsame := halike _ _ _ _ [] [] (hpre.append henc₁) (hpre.append henc₂) (bare_payload_text (hpre.append henc₁))
      (bare_payload_text (hpre.append henc₂)) Unit good_lwip idle_shell () boot
    have hparse : ∀ enc, Encodes (p :: post) enc → (ollama_parse_json good_lwip idle_shell () boot (bare_payload (bytes ++ enc))).2 =
        (Parser.parse good_lwip idle_shell (enc ++ [quote]) qs).net := by
      intro enc henc
      have hunmarked : Parser.parse good_lwip idle_shell (bytes ++ (enc ++ [quote])) start =
          Parser.parse good_lwip idle_shell (enc ++ [quote]) qs := parse_unmarked rfl hpre henc hbefore
      rw [← hunmarked]
      simp only [ollama_parse_json, ollama_parse, bare_payload_text (hpre.append henc), List.append_assoc]
      rfl
    rw [← hparse enc₁ henc₁, ← hparse enc₂ henc₂, hsame]
  obtain ⟨ch, rfl, hhigh | ⟨rfl, hopens⟩⟩ := hmarks
  · obtain ⟨enc₁, d, henc₁, hd, _, hcoded⟩ := exists_coded_shows good_lwip hqs ch post
    obtain ⟨enc₂, b, henc₂, hb, hliteral⟩ := exists_high_shows good_lwip hqs hhigh post
    rw [hscreen enc₁ enc₂ henc₁ henc₂] at hcoded
    rw [last_eq hcoded hliteral] at hd
    exact absurd hb (UInt8.not_le.mpr hd)
  · obtain ⟨enc₁, d, henc₁, _, hd, hcoded⟩ := exists_coded_shows good_lwip hqs '<' post
    obtain ⟨enc₂, henc₂, htag⟩ := exists_tag_shows good_lwip hqs hopens
    rw [hscreen enc₁ enc₂ henc₁ henc₂] at hcoded
    obtain hnothing | hline := htag
    · have hlen := hcoded.length_le
      rw [hnothing, List.length_append, List.length_singleton] at hlen
      omega
    · have heq := last_eq hcoded hline
      rw [hd (by decide)] at heq
      exact absurd heq (by decide)

/-- A text is handled alike in all its spellings exactly if it is plain ASCII and holds no
    opening tag. -/
theorem handled_alike_iff (text : List Piece) : HandledAlike text ↔ Unmarked text := by
  constructor
  · intro halike
    obtain hunmarked | ⟨pre, p, post, rfl, hbefore, hmarks⟩ := unmarked_or_first_mark text
    · exact hunmarked
    · exact absurd halike (not_handled_alike hbefore hmarks)
  · exact handled_alike_of_unmarked

/-- The same tag with its brackets written out and escaped: the command is run either way,
    but only the first spelling reports its output to the server. -/
theorem escaped_tag_not_reported :
    let text := "<EXEC_CMD:ls>".toList.map Piece.char
    let written := ascii "<EXEC_CMD:ls>"
    let escaped := ascii "\\u003cEXEC_CMD:ls\\u003e"
    let net₁ := (ollama_parse_json good_lwip idle_shell () boot (bare_payload written)).2
    let net₂ := (ollama_parse_json good_lwip idle_shell () boot (bare_payload escaped)).2
    Encodes text written ∧ Encodes text escaped ∧
      response_text (cstr (bare_payload written)) = some (written ++ [quote]) ∧
      response_text (cstr (bare_payload escaped)) = some (escaped ++ [quote]) ∧
      net₁.executed = [ascii "ls"] ∧ net₂.executed = [ascii "ls"] ∧
      net₁.flight 0 = some [] ∧ net₂.flight 0 = none := by
  have hwritten : Encodes ("<EXEC_CMD:ls>".toList.map Piece.char) (ascii "<EXEC_CMD:ls>") :=
    encodes_word _ (word_can_stand (by decide +kernel))
  have hzero : hex_value 0x30 = some 0 := rfl
  have hthree : hex_value 0x33 = some 3 := rfl
  have hless : Spells (.char '<') (ascii "\\u003c") :=
    .unit (by decide) (.mk hzero hzero hthree (show hex_value 0x63 = some 12 from rfl))
  have hgreater : Spells (.char '>') (ascii "\\u003e") :=
    .unit (by decide) (.mk hzero hzero hthree (show hex_value 0x65 = some 14 from rfl))
  have hescaped : Encodes ("<EXEC_CMD:ls>".toList.map Piece.char) (ascii "\\u003cEXEC_CMD:ls\\u003e") :=
    .cons hless ((encodes_word "EXEC_CMD:ls".toList (word_can_stand (by decide +kernel))).append (.cons hgreater .nil))
  exact ⟨hwritten, hescaped, bare_payload_text hwritten, bare_payload_text hescaped, by decide +kernel, by decide +kernel,
    by decide +kernel, by decide +kernel⟩

end os_dev.net_stack
