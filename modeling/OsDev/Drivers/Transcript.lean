import OsDev.Drivers.Redraw
import OsDev.Lib.LineRing

open os_dev.libc canvas line_ring

namespace os_dev.screen

/-- All output since the last clear, as lines of characters with their colours, without a
    limit on the number of lines. -/
structure Transcript where
  cols : ℕ
  attr : UInt8
  lines : ℕ → ℕ → UInt8 × UInt8
  line : ℕ
  col : ℕ

namespace Transcript

def blank : UInt8 × UInt8 := (0x07, 0x20)

def empty (cols : ℕ) (attr : UInt8) : Transcript := ⟨cols, attr, fun _ _ => blank, 0, 0⟩

def put (t : Transcript) (col : ℕ) (c : UInt8) : Transcript :=
  { t with lines := Function.update t.lines t.line (Function.update (t.lines t.line) col (t.attr, c)) }

/-- A character at the position of the output: a backspace blanks the character before it,
    a line feed begins a line. -/
def place (t : Transcript) (c : UInt8) : Transcript :=
  if c = backspace_char then
    if t.col > 0 then { t.put (t.col - 1) 0x20 with col := t.col - 1 } else t
  else if c = newline_char then { t with line := t.line + 1, col := 0 }
  else { t.put t.col c with col := t.col + 1 }

/-- A character that finds the line full goes to the next one. -/
def print (t : Transcript) (c : UInt8) : Transcript :=
  if c ≠ backspace_char ∧ c ≠ newline_char ∧ ¬ t.col < t.cols then (t.place newline_char).place c else t.place c

def output (t : Transcript) : OutputOp → Transcript
  | .clear_screen => empty t.cols t.attr
  | .set_text_color attr => { t with attr }
  | .char c => t.print c
  | .string str => str.foldl print t
  | .scroll_up => t
  | .scroll_down => t

theorem line_le_place (t : Transcript) (c : UInt8) : t.line ≤ (t.place c).line := by
  unfold place
  split
  · split
    · exact Nat.le_refl _
    · exact Nat.le_refl _
  · split
    · exact Nat.le_succ _
    · exact Nat.le_refl _

theorem line_le_print (t : Transcript) (c : UInt8) : t.line ≤ (t.print c).line := by
  unfold print
  split
  · exact (t.line_le_place _).trans (line_le_place _ _)
  · exact t.line_le_place c

theorem line_le_string (t : Transcript) (str : CStr) : t.line ≤ (str.foldl print t).line := by
  induction str generalizing t with
  | nil => exact Nat.le_refl _
  | cons c str ih => exact (t.line_le_print c).trans (ih _)

end Transcript

variable {s : Screen} {t : Transcript}

/-- A row of the history holds a line of the transcript. -/
def SameLine (cols : ℕ) (row : ℕ → UInt16) (line : ℕ → UInt8 × UInt8) : Prop :=
  ∀ c < cols, row c = char_cell (line c).1 (line c).2

/-- The history holds the last lines of the transcript, and the screen is not scrolled to
    lines that it does not hold. -/
structure Records (s : Screen) (t : Transcript) : Prop where
  cols : t.cols = s.SCREEN_COLS - 1
  attr : t.attr = s.current_attr
  line : s.total_lines_stored = t.line
  slot : s.current_line_idx = t.line % MAX_HISTORY
  col : s.current_col = t.col
  col_le : t.col ≤ t.cols
  holds : Holds MAX_HISTORY (SameLine s.SCREEN_COLS) s.history_buffer t.lines t.line
  fresh : ∀ L, t.line < L → t.lines L = fun _ => Transcript.blank
  scrolled : s.scroll_offset ≤ MAX_HISTORY - s.VISIBLE_ROWS

theorem clear_history_line_eq (s : Screen) (idx : ℕ) : clear_history_line s idx =
    { s with history_buffer := Function.update s.history_buffer idx fun col =>
        if col < s.SCREEN_COLS then blank_cell else s.history_buffer idx col } := by
  have hsame : (fun line col => if line = idx ∧ col < s.SCREEN_COLS then blank_cell else s.history_buffer line col) =
      Function.update s.history_buffer idx fun col =>
        if col < s.SCREEN_COLS then blank_cell else s.history_buffer idx col := by
    funext line col
    by_cases hline : line = idx
    · subst hline
      simp only [Function.update_self, true_and]
    · rw [Function.update_of_ne hline, if_neg fun h => hline h.1]
  rw [clear_history_line, hsame]

/-- Clearing lines of the history blanks them and changes nothing else. -/
theorem clear_lines_eq (s : Screen) (lines : List ℕ) : ∃ history_buffer,
    lines.foldl clear_history_line s = { s with history_buffer } ∧
      (∀ line ∈ lines, ∀ c < s.SCREEN_COLS, history_buffer line c = blank_cell) ∧
      ∀ line c, s.history_buffer line c = blank_cell → history_buffer line c = blank_cell := by
  induction lines generalizing s with
  | nil => exact ⟨s.history_buffer, rfl, fun line hline => absurd hline (by simp), fun _ _ h => h⟩
  | cons idx lines ih =>
    obtain ⟨history, heq, hblank, hkeep⟩ := ih (clear_history_line s idx)
    refine ⟨history, heq, fun line hline c hc => ?_, fun line c h => hkeep line c ?_⟩
    · rcases List.mem_cons.mp hline with rfl | hline
      · exact hkeep line c (if_pos ⟨rfl, hc⟩)
      · exact hblank line hline c hc
    · change (if _ then blank_cell else _) = blank_cell
      split
      · rfl
      · exact h

theorem Records.refresh (h : Records s t) : Records (refresh_screen s) t := by
  obtain ⟨pixels, last, force, vga, heq⟩ := refresh_screen_eq s
  rw [heq]
  exact ⟨h.cols, h.attr, h.line, h.slot, h.col, h.col_le, h.holds, h.fresh, h.scrolled⟩

theorem Records.cursor (h : Records s t) : Records (update_cursor s) t := by
  obtain ⟨cursor, heq⟩ := update_cursor_eq s
  rw [heq]
  exact ⟨h.cols, h.attr, h.line, h.slot, h.col, h.col_le, h.holds, h.fresh, h.scrolled⟩

theorem Records.scroll (h : Records s t) {offset : ℕ} (hle : offset ≤ MAX_HISTORY - s.VISIBLE_ROWS) :
    Records { s with scroll_offset := offset } t :=
  ⟨h.cols, h.attr, h.line, h.slot, h.col, h.col_le, h.holds, h.fresh, hle⟩

theorem Records.defer (h : Records s t) (n : ℕ) : Records { s with defer_refresh := n } t :=
  ⟨h.cols, h.attr, h.line, h.slot, h.col, h.col_le, h.holds, h.fresh, h.scrolled⟩

theorem Records.follow (h : Records s t) : Records (follow s) t := by
  unfold os_dev.screen.follow
  split
  · exact (h.scroll (Nat.zero_le _)).refresh.cursor
  · exact h

theorem Records.record (h : Records s t) (c : UInt8) : Records (record s c) t := by
  unfold os_dev.screen.record
  split
  · exact ⟨h.cols, h.attr, h.line, h.slot, h.col, h.col_le, h.holds, h.fresh, h.scrolled⟩
  · exact h

theorem SameLine.update {cols col : ℕ} {row : ℕ → UInt16} {line : ℕ → UInt8 × UInt8} (h : SameLine cols row line)
    (attr c : UInt8) : SameLine cols (Function.update row col (char_cell attr c)) (Function.update line col (attr, c)) := by
  intro k hk
  by_cases hcol : k = col
  · subst hcol
    simp only [Function.update_self]
  · rw [Function.update_of_ne hcol, Function.update_of_ne hcol]
    exact h k hk

/-- A character goes into the line that the transcript puts it in. -/
theorem Records.put (h : Records s t) (col : ℕ) (c : UInt8) :
    Records (set_cell s col (char_cell s.current_attr c)) (t.put col c) := by
  have hpos : 0 < MAX_HISTORY := by decide
  have hline : SameLine s.SCREEN_COLS (s.history_buffer (t.line % MAX_HISTORY)) (t.lines t.line) :=
    h.holds t.line (Nat.le_refl _) (by omega)
  refine ⟨h.cols, h.attr, h.line, h.slot, h.col, h.col_le, ?_, fun L hL => ?_, h.scrolled⟩
  · change Holds MAX_HISTORY (SameLine s.SCREEN_COLS)
      (Function.update s.history_buffer s.current_line_idx
        (Function.update (s.history_buffer s.current_line_idx) col (char_cell s.current_attr c)))
      (Function.update t.lines t.line (Function.update (t.lines t.line) col (t.attr, c))) t.line
    rw [h.slot, h.attr]
    exact h.holds.rewrite (hline.update _ _)
  · exact (Function.update_of_ne (Nat.ne_of_gt hL) _ _).trans (h.fresh L hL)

theorem Records.move (h : Records s t) {col : ℕ} (hle : col ≤ t.cols) :
    Records { s with current_col := col } { t with col := col } :=
  ⟨h.cols, h.attr, h.line, h.slot, rfl, hle, h.holds, h.fresh, h.scrolled⟩

theorem blank_line {cols : ℕ} {row : ℕ → UInt16} (h : ∀ c < cols, row c = blank_cell) :
    SameLine cols row fun _ => Transcript.blank := by
  have hblank : char_cell Transcript.blank.1 Transcript.blank.2 = blank_cell := by decide
  intro c hc
  rw [h c hc, hblank]

theorem Records.newline (h : Records s t) : Records (place_char s newline_char) (t.place newline_char) := by
  have hslot : s.total_lines_stored + 1 = t.line + 1 := congrArg (· + 1) h.line
  rw [place_char, if_neg (by decide), if_pos rfl, Transcript.place, if_neg (by decide), if_pos rfl]
  simp only [clear_history_line_eq, hslot]
  refine ⟨h.cols, h.attr, rfl, rfl, rfl, Nat.zero_le _, h.holds.push ?_, fun L hL => ?_, h.scrolled⟩
  · rw [h.fresh (t.line + 1) (Nat.lt_succ_self _)]
    exact blank_line fun c hc => if_pos hc
  · exact h.fresh L (Nat.lt_of_succ_lt hL)

theorem Records.place (h : Records s t) {c : UInt8} (hwraps : ¬ wraps s c) : Records (place_char s c) (t.place c) := by
  by_cases hback : c = backspace_char
  · rw [place_char, if_pos hback, Transcript.place, if_pos hback, ← h.col]
    have hle := h.col_le
    rw [← h.col] at hle
    split
    · exact (h.put (s.current_col - 1) 0x20).move (by change s.current_col - 1 ≤ t.cols; omega)
    · exact h
  · by_cases hline : c = newline_char
    · rw [hline]
      exact h.newline
    · have hfits : s.current_col < s.SCREEN_COLS - 1 := Decidable.not_not.mp fun hfull => hwraps ⟨hback, hline, hfull⟩
      rw [place_char, if_neg hback, if_neg hline, Transcript.place, if_neg hback, if_neg hline, ← h.col]
      rw [← h.cols] at hfits
      exact (h.put s.current_col c).move hfits

theorem Records.placed (h : Records s t) {c : UInt8} (hwraps : ¬ wraps s c) : Records (print_placed s c) (t.place c) :=
  ((h.record c).place fun hrecord => hwraps ((wraps_record s c c).mp hrecord)).follow

theorem Records.wraps_iff (h : Records s t) (c : UInt8) :
    wraps s c ↔ c ≠ backspace_char ∧ c ≠ newline_char ∧ ¬ t.col < t.cols := by
  rw [wraps, h.col, h.cols]

/-- Behind a line feed there is room for a character. -/
theorem Records.newline_room (h : Records s t) (c : UInt8) : ¬ wraps (print_placed s newline_char) c := by
  have hnewline : ¬ wraps s newline_char := fun hwraps => hwraps.2.1 rfl
  have hcols := s.cols_pos
  intro hwraps
  refine (((h.placed hnewline).wraps_iff c).mp hwraps).2.2 ?_
  change 0 < t.cols
  rw [h.cols]
  omega

theorem Records.print_char (h : Records s t) (c : UInt8) : Records (print_char s c) (t.print c) := by
  unfold os_dev.screen.print_char Transcript.print
  by_cases hwraps : wraps s c
  · rw [if_pos hwraps, if_pos ((h.wraps_iff c).mp hwraps)]
    have hnewline : ¬ wraps (os_dev.screen.record s c) newline_char := fun hwraps => hwraps.2.1 rfl
    exact ((h.record c).placed hnewline).placed ((h.record c).newline_room c)
  · rw [if_neg hwraps, if_neg fun hfull => hwraps ((h.wraps_iff c).mpr hfull)]
    exact h.placed hwraps

theorem Records.print_chars (h : Records s t) (str : CStr) :
    Records (str.foldl os_dev.screen.print_char s) (str.foldl Transcript.print t) := by
  induction str generalizing s t with
  | nil => exact h
  | cons c str ih => exact ih (h.print_char c)

theorem records_cleared (s : Screen) : Records (cleared s) (Transcript.empty (s.SCREEN_COLS - 1) s.current_attr) := by
  obtain ⟨history, heq, hblank, _⟩ := clear_lines_eq s (List.range MAX_HISTORY)
  have hfirst : SameLine s.SCREEN_COLS (history 0) fun _ => Transcript.blank :=
    blank_line (hblank 0 (List.mem_range.mpr (by decide)))
  unfold cleared
  rw [heq]
  exact ⟨rfl, rfl, rfl, rfl, rfl, Nat.zero_le _, holds_zero hfirst, fun _ _ => rfl, Nat.zero_le _⟩

theorem records_clear_screen (s : Screen) :
    Records (clear_screen s) (Transcript.empty (s.SCREEN_COLS - 1) s.current_attr) := by
  rw [clear_screen_eq]
  exact (records_cleared s).refresh.cursor

/-- The history follows the transcript through every call. -/
theorem Records.output (h : Records s t) (op : OutputOp) : Records (output_op s op) (t.output op) := by
  cases op with
  | clear_screen =>
    have hclear := records_clear_screen s
    rw [← h.cols, ← h.attr] at hclear
    exact hclear
  | set_text_color attr => exact ⟨h.cols, rfl, h.line, h.slot, h.col, h.col_le, h.holds, h.fresh, h.scrolled⟩
  | char c => exact h.print_char c
  | string str => exact ((h.defer _).print_chars str |>.defer _).follow
  | scroll_up =>
    change Records (os_dev.screen.scroll_up s) t
    unfold os_dev.screen.scroll_up
    split
    case isTrue hmore => exact (h.scroll hmore.2).refresh.cursor
    case isFalse => exact h
  | scroll_down =>
    change Records (os_dev.screen.scroll_down s) t
    have hle := h.scrolled
    unfold os_dev.screen.scroll_down
    split
    case isTrue => exact (h.scroll (by omega)).refresh.cursor
    case isFalse => exact h

theorem Records.run (h : Records s t) (ops : List OutputOp) :
    Records (ops.foldl output_op s) (ops.foldl Transcript.output t) := by
  induction ops generalizing s t with
  | nil => exact h
  | cons op ops ih => exact ih (h.output op)

end os_dev.screen
