import OsDev.Drivers.Transcript

open os_dev.libc canvas line_ring

namespace os_dev.screen

/-- What a call uses an `int` for: an index of one of the arrays, a divisor, or the value
    of an expression. -/
inductive Access
  | history_buffer (line col : ℕ)
  | fb_last_screen (row col : ℕ)
  | divisor (d : ℕ)
  | value (n : ℕ)

def Access.Sound : Access → Prop
  | .history_buffer line col => line < MAX_HISTORY ∧ col < MAX_COLS
  | .fb_last_screen row col => row < MAX_ROWS ∧ col < MAX_COLS
  | .divisor d => d ≠ 0
  | .value n => n < 2 ^ 31

def clear_history_line_accesses (s : Screen) (idx : ℕ) : List Access :=
  (List.range s.SCREEN_COLS).map (.history_buffer idx ·)

/-- The accesses for one visible row. -/
def row_accesses (s : Screen) (r : ℕ) : List Access :=
  let history_total_idx := start_history_total s + r
  .value history_total_idx ::
    if history_total_idx ≤ s.total_lines_stored then
      (List.range (s.SCREEN_COLS - 1)).map (.history_buffer (history_total_idx % MAX_HISTORY) ·)
    else []

def handle_accesses (s : Screen) : List Access :=
  if 0 < max_scroll s then [.value (s.scroll_offset * (s.VISIBLE_ROWS - 1)), .divisor (max_scroll s)] else []

def refresh_screen_accesses (s : Screen) : List Access :=
  (List.range s.VISIBLE_ROWS).flatMap (row_accesses s) ++
    (if s.fb_ptr ≠ 0 then (refresh_cells s).map fun cell => .fb_last_screen cell.r cell.c else []) ++
    (List.range s.VISIBLE_ROWS).flatMap fun _ => handle_accesses s

def place_char_accesses (s : Screen) (c : UInt8) : List Access :=
  if c = backspace_char then
    if s.current_col > 0 then [.history_buffer s.current_line_idx (s.current_col - 1)] else []
  else if c = newline_char then
    .value (s.total_lines_stored + 1) :: clear_history_line_accesses s ((s.total_lines_stored + 1) % MAX_HISTORY)
  else [.history_buffer s.current_line_idx s.current_col]

def follow_accesses (s : Screen) : List Access :=
  if s.defer_refresh = 0 then refresh_screen_accesses { s with scroll_offset := 0 } else []

def print_placed_accesses (s : Screen) (c : UInt8) : List Access :=
  place_char_accesses (record s c) c ++ follow_accesses (place_char (record s c) c)

def print_char_accesses (s : Screen) (c : UInt8) : List Access :=
  if wraps s c then
    print_placed_accesses (record s c) newline_char ++ print_placed_accesses (print_placed (record s c) newline_char) c
  else print_placed_accesses s c

/-- The accesses of the loop of `print_string` and of what follows it. -/
def print_string_accesses (s : Screen) : CStr → List Access
  | [] => follow_accesses { s with defer_refresh := s.defer_refresh - 1 }
  | c :: str => print_char_accesses s c ++ print_string_accesses (print_char s c) str

def output_accesses (s : Screen) : OutputOp → List Access
  | .clear_screen => (List.range MAX_HISTORY).flatMap (clear_history_line_accesses s) ++ refresh_screen_accesses (cleared s)
  | .set_text_color _ => []
  | .char c => print_char_accesses s c
  | .string str => print_string_accesses { s with defer_refresh := s.defer_refresh + 1 } str
  | .scroll_up =>
    if s.scroll_offset < max_scroll s ∧ s.scroll_offset < MAX_HISTORY - s.VISIBLE_ROWS then
      refresh_screen_accesses { s with scroll_offset := s.scroll_offset + 1 }
    else []
  | .scroll_down => if s.scroll_offset > 0 then refresh_screen_accesses { s with scroll_offset := s.scroll_offset - 1 } else []

variable {s : Screen} {t : Transcript} {a : Access}

theorem Screen.cols_le (s : Screen) : s.SCREEN_COLS ≤ MAX_COLS := s.grid.cols_max
theorem Screen.rows_le (s : Screen) : s.SCREEN_ROWS ≤ MAX_ROWS := s.grid.rows_max

theorem clear_history_line_sound {idx : ℕ} (hidx : idx < MAX_HISTORY) (ha : a ∈ clear_history_line_accesses s idx) :
    a.Sound := by
  obtain ⟨col, hcol, rfl⟩ := List.mem_map.mp ha
  exact ⟨hidx, Nat.lt_of_lt_of_le (List.mem_range.mp hcol) s.cols_le⟩

/-- The lines that a redraw shows are the last ones written, at the end of the range those
    that the history holds at all. -/
theorem Records.shown_lines (h : Records s t) {r : ℕ} (hr : r < s.VISIBLE_ROWS) :
    t.line < start_history_total s + r + MAX_HISTORY ∧ start_history_total s + r ≤ max t.line MAX_ROWS := by
  have hrows := s.visible_le
  have hmax : s.SCREEN_ROWS ≤ MAX_ROWS := s.rows_le
  have hscrolled := h.scrolled
  have hline := h.line
  unfold start_history_total
  unfold MAX_HISTORY at hscrolled ⊢
  unfold MAX_ROWS at hmax ⊢
  omega

theorem Records.row_sound (h : Records s t) (hlines : t.line < 2 ^ 31) {r : ℕ} (hr : r < s.VISIBLE_ROWS)
    (ha : a ∈ row_accesses s r) : a.Sound := by
  have hcols := s.cols_le
  obtain ⟨_, hmax⟩ := h.shown_lines hr
  simp only [row_accesses] at ha
  rcases List.mem_cons.mp ha with rfl | ha
  · change start_history_total s + r < 2 ^ 31
    unfold MAX_ROWS at hmax
    omega
  · split at ha
    case isTrue =>
      obtain ⟨col, hcol, rfl⟩ := List.mem_map.mp ha
      have hlt := List.mem_range.mp hcol
      exact ⟨Nat.mod_lt _ (by decide), by omega⟩
    case isFalse => cases ha

theorem Records.handle_sound (h : Records s t) (ha : a ∈ handle_accesses s) : a.Sound := by
  have hrows := s.visible_le
  have hmax : s.SCREEN_ROWS ≤ MAX_ROWS := s.rows_le
  have hscrolled := h.scrolled
  unfold handle_accesses at ha
  split at ha
  case isTrue hpos =>
    simp only [List.mem_cons, List.not_mem_nil, or_false] at ha
    rcases ha with rfl | rfl
    · have hmul : s.scroll_offset * (s.VISIBLE_ROWS - 1) ≤ MAX_HISTORY * MAX_ROWS :=
        Nat.mul_le_mul (by omega) (by omega)
      exact Nat.lt_of_le_of_lt hmul (by decide)
    · exact Nat.ne_of_gt hpos
  case isFalse => cases ha

theorem Records.refresh_sound (h : Records s t) (hlines : t.line < 2 ^ 31) (ha : a ∈ refresh_screen_accesses s) :
    a.Sound := by
  rcases List.mem_append.mp ha with ha | ha
  · rcases List.mem_append.mp ha with ha | ha
    · obtain ⟨r, hr, ha⟩ := List.mem_flatMap.mp ha
      exact h.row_sound hlines (List.mem_range.mp hr) ha
    · split at ha
      case isTrue =>
        obtain ⟨cell, hcell, rfl⟩ := List.mem_map.mp ha
        obtain ⟨hr, hc, _⟩ := refresh_cell_spec hcell
        exact ⟨Nat.lt_of_lt_of_le hr s.rows_le, Nat.lt_of_lt_of_le hc s.cols_le⟩
      case isFalse => cases ha
  · obtain ⟨_, _, ha⟩ := List.mem_flatMap.mp ha
    exact h.handle_sound ha

theorem Records.slot_lt (h : Records s t) : s.current_line_idx < MAX_HISTORY := by
  rw [h.slot]
  exact Nat.mod_lt _ (by decide)

theorem Records.place_sound (h : Records s t) {c : UInt8} (hwraps : ¬ wraps s c) (hlines : (t.place c).line < 2 ^ 31)
    (ha : a ∈ place_char_accesses s c) : a.Sound := by
  have hcols := s.cols_le
  have hpos := s.cols_pos
  have hcol := h.col_le
  rw [h.cols, ← h.col] at hcol
  unfold place_char_accesses at ha
  by_cases hback : c = backspace_char
  · rw [if_pos hback] at ha
    split at ha
    case isTrue =>
      obtain rfl := List.mem_singleton.mp ha
      exact ⟨h.slot_lt, by omega⟩
    case isFalse => cases ha
  · rw [if_neg hback] at ha
    by_cases hline : c = newline_char
    · rw [if_pos hline] at ha
      rw [Transcript.place, if_neg hback, if_pos hline] at hlines
      rcases List.mem_cons.mp ha with rfl | ha
      · change s.total_lines_stored + 1 < 2 ^ 31
        rw [h.line]
        exact hlines
      · exact clear_history_line_sound (Nat.mod_lt _ (by decide)) ha
    · rw [if_neg hline] at ha
      obtain rfl := List.mem_singleton.mp ha
      have hfits : s.current_col < s.SCREEN_COLS - 1 := Decidable.not_not.mp fun hfull => hwraps ⟨hback, hline, hfull⟩
      exact ⟨h.slot_lt, by omega⟩

theorem Records.follow_sound (h : Records s t) (hlines : t.line < 2 ^ 31) (ha : a ∈ follow_accesses s) : a.Sound := by
  unfold follow_accesses at ha
  split at ha
  case isTrue => exact (h.scroll (Nat.zero_le _)).refresh_sound hlines ha
  case isFalse => cases ha

theorem Records.placed_sound (h : Records s t) {c : UInt8} (hwraps : ¬ wraps s c) (hlines : (t.place c).line < 2 ^ 31)
    (ha : a ∈ print_placed_accesses s c) : a.Sound := by
  have hrecord : ¬ wraps (os_dev.screen.record s c) c := fun hrecord => hwraps ((wraps_record s c c).mp hrecord)
  rcases List.mem_append.mp ha with ha | ha
  · exact (h.record c).place_sound hrecord hlines ha
  · exact ((h.record c).place hrecord).follow_sound hlines ha

theorem Records.print_char_sound (h : Records s t) {c : UInt8} (hlines : (t.print c).line < 2 ^ 31)
    (ha : a ∈ print_char_accesses s c) : a.Sound := by
  unfold print_char_accesses at ha
  unfold Transcript.print at hlines
  by_cases hwraps : wraps s c
  · rw [if_pos hwraps] at ha
    rw [if_pos ((h.wraps_iff c).mp hwraps)] at hlines
    have hnewline : ¬ wraps (os_dev.screen.record s c) newline_char := fun hwraps => hwraps.2.1 rfl
    rcases List.mem_append.mp ha with ha | ha
    · refine (h.record c).placed_sound hnewline ?_ ha
      exact Nat.lt_of_le_of_lt (Transcript.line_le_place _ c) hlines
    · exact ((h.record c).placed hnewline).placed_sound ((h.record c).newline_room c) hlines ha
  · rw [if_neg hwraps] at ha
    rw [if_neg fun hfull => hwraps ((h.wraps_iff c).mpr hfull)] at hlines
    exact h.placed_sound hwraps hlines ha

theorem Records.print_string_sound (h : Records s t) {str : CStr} (hlines : (str.foldl Transcript.print t).line < 2 ^ 31)
    (ha : a ∈ print_string_accesses s str) : a.Sound := by
  induction str generalizing s t with
  | nil => exact (h.defer _).follow_sound hlines ha
  | cons c str ih =>
    rcases List.mem_append.mp ha with ha | ha
    · exact h.print_char_sound (Nat.lt_of_le_of_lt (Transcript.line_le_string _ str) hlines) ha
    · exact ih (h.print_char c) hlines ha

theorem clear_screen_sound (ha : a ∈ output_accesses s .clear_screen) : a.Sound := by
  rcases List.mem_append.mp ha with ha | ha
  · obtain ⟨idx, hidx, ha⟩ := List.mem_flatMap.mp ha
    exact clear_history_line_sound (List.mem_range.mp hidx) ha
  · refine (records_cleared s).refresh_sound ?_ ha
    change 0 < 2 ^ 31
    decide

/-- No call leaves an array, divides by zero or counts too far. -/
theorem Records.output_sound (h : Records s t) {op : OutputOp} (hlines : (t.output op).line < 2 ^ 31)
    (ha : a ∈ output_accesses s op) : a.Sound := by
  cases op with
  | clear_screen => exact clear_screen_sound ha
  | set_text_color attr => cases ha
  | char c => exact h.print_char_sound hlines ha
  | string str => exact (h.defer _).print_string_sound hlines ha
  | scroll_up =>
    simp only [output_accesses] at ha
    split at ha
    case isTrue hmore => exact (h.scroll hmore.2).refresh_sound hlines ha
    case isFalse => cases ha
  | scroll_down =>
    have hle := h.scrolled
    simp only [output_accesses] at ha
    split at ha
    case isTrue => exact (h.scroll (by omega)).refresh_sound hlines ha
    case isFalse => cases ha

/-- The word that a redraw of the text screen stores for a cell. -/
def vga_target (s : Screen) (r c : ℕ) : UInt16 :=
  if r < s.VISIBLE_ROWS ∧ c = s.SCREEN_COLS - 1 then if on_handle s r then 0x0FDB else 0x08B3 else target s (r, c)

theorem mem_vga_stores {st : ℕ × UInt16} (h : st ∈ vga_stores s) :
    ∃ r, ∃ c < s.SCREEN_COLS, st = (r * s.SCREEN_COLS + c, vga_target s r c) := by
  have hcols := s.cols_pos
  have hrows := s.visible_le
  rcases List.mem_append.mp h with h | h
  · rcases List.mem_append.mp h with h | h
    · obtain ⟨r, hr, h⟩ := List.mem_flatMap.mp h
      obtain ⟨cell, hcell, rfl⟩ := List.mem_map.mp h
      have hvisible := List.mem_range.mp hr
      have hmem : cell ∈ refresh_cells s :=
        List.mem_append_left _ (List.mem_append_left _ (List.mem_flatMap.mpr ⟨r, hr, hcell⟩))
      obtain ⟨hrow, hc, _⟩ := mem_row_cells hcell hvisible
      obtain ⟨_, hlt, hval, _⟩ := refresh_cell_spec hmem
      refine ⟨r, cell.c, hlt, ?_⟩
      rw [vga_target, if_neg (by omega), ← hrow, hval]
    · obtain ⟨cell, hcell, rfl⟩ := List.mem_map.mp h
      obtain ⟨hlow, _, hc, heq, hblank⟩ := mem_margin_cells hcell
      refine ⟨cell.r, cell.c, hc, ?_⟩
      rw [vga_target, if_neg (by omega), hblank, heq]
      rfl
  · obtain ⟨r, hr, rfl⟩ := List.mem_map.mp h
    refine ⟨r, s.SCREEN_COLS - 1, by omega, ?_⟩
    have hbar : r < s.VISIBLE_ROWS ∧ s.SCREEN_COLS - 1 = s.SCREEN_COLS - 1 := ⟨List.mem_range.mp hr, rfl⟩
    rw [vga_target, if_pos hbar]

/-- The text columns of the text screen show their targets after a redraw. -/
theorem refresh_vga (hptr : s.fb_ptr = 0) {r c : ℕ} (hr : r < s.VISIBLE_ROWS) (hc : c < s.SCREEN_COLS - 1) :
    (refresh_screen s).vga (r * s.SCREEN_COLS + c) = target s (r, c) := by
  have hplace : ∀ r, ∀ c < s.SCREEN_COLS, (r * s.SCREEN_COLS + c) / s.SCREEN_COLS = r ∧
      (r * s.SCREEN_COLS + c) % s.SCREEN_COLS = c := by
    intro r c hc
    have hpos : 0 < s.SCREEN_COLS := Nat.lt_of_le_of_lt (Nat.zero_le c) hc
    rw [Nat.mul_comm, Nat.mul_add_div hpos, Nat.div_eq_of_lt hc, Nat.mul_add_mod, Nat.mod_eq_of_lt hc]
    exact ⟨rfl, rfl⟩
  let word (a : ℕ) : UInt16 := vga_target s (a / s.SCREEN_COLS) (a % s.SCREEN_COLS)
  have hword : ∀ r, ∀ c < s.SCREEN_COLS, word (r * s.SCREEN_COLS + c) = vga_target s r c := by
    intro r c hc
    obtain ⟨hdiv, hmod⟩ := hplace r c hc
    simp only [word, hdiv, hmod]
  have hstores : ∀ st ∈ vga_stores s, st.2 = word st.1 := by
    intro st hst
    obtain ⟨r, c, hc, rfl⟩ := mem_vga_stores hst
    exact (hword r c hc).symm
  have htouches : Touches (vga_stores s) (r * s.SCREEN_COLS + c) := by
    obtain ⟨cell, hcell, _, rfl⟩ := row_cells_covers hc
    refine ⟨cell.val, List.mem_append_left _ (List.mem_append_left _ ?_)⟩
    exact List.mem_flatMap.mpr ⟨r, List.mem_range.mpr hr, List.mem_map.mpr ⟨cell, hcell, rfl⟩⟩
  rw [refresh_screen, if_neg (not_not.mpr hptr)]
  refine (store_all_of_fun hstores htouches).trans ?_
  rw [hword r c (by omega), vga_target, if_neg (by omega)]

/-- A redraw leaves a value in a text cell of the text memory, or on a framebuffer as the
    value the cell was last drawn with. -/
structure Rendered (s : Screen) (r c : ℕ) (val : UInt16) : Prop where
  vga : s.fb_ptr = 0 → (refresh_screen s).vga (r * s.SCREEN_COLS + c) = val
  last : s.fb_ptr ≠ 0 → (refresh_screen s).fb_last_screen (r, c) = val

/-- The pixels of a text cell are those of the value after a redraw. -/
def PixelsRendered (s : Screen) (r c : ℕ) (val : UInt16) : Prop :=
  s.fb_ptr ≠ 0 →
    Stored (refresh_screen s).pixels (draw_fb_char s r c val (attr_fg (val >>> 8).toUInt8) (attr_bg (val >>> 8).toUInt8))

theorem rendered_target {r c : ℕ} (hr : r < s.VISIBLE_ROWS) (hc : c < s.SCREEN_COLS - 1) : Rendered s r c (target s (r, c)) := by
  have hrows := s.visible_le
  refine ⟨fun hptr => refresh_vga hptr hr hc, fun hptr => ?_⟩
  rw [refresh_screen, if_pos hptr]
  exact refresh_fb_last s (by omega) (by omega)

theorem Showing.rendered {n : ℕ} (h : Showing s n) {r c : ℕ} (hr : r < s.VISIBLE_ROWS) (hc : c < s.SCREEN_COLS - 1) :
    PixelsRendered s r c (target s (r, c)) := by
  have hrows := s.visible_le
  intro hptr
  have hlast := (rendered_target hr hc).last hptr
  have htext : ¬ (r < s.VISIBLE_ROWS ∧ c = s.SCREEN_COLS - 1) := by omega
  have hforce : (refresh_screen s).fb_force_redraw = false := by
    rw [refresh_screen, if_pos hptr]
    rfl
  obtain ⟨pixels, last, force, vga, heq⟩ := refresh_screen_eq s
  have hgrid : InGrid (refresh_screen s) (r, c) := by
    rw [heq]
    exact ⟨show r < s.SCREEN_ROWS by omega, show c < s.SCREEN_COLS by omega⟩
  have hshown := (h.refresh.shows hforce).2 (r, c) hgrid
  have hstores : cell_stores (refresh_screen s) (r, c) (target s (r, c)) =
      draw_fb_char s r c (target s (r, c)) (attr_fg (target s (r, c) >>> 8).toUInt8) (attr_bg (target s (r, c) >>> 8).toUInt8) := by
    rw [heq]
    exact if_neg htext
  simp only [Canvas.Shows, hlast, hstores] at hshown
  exact hshown

theorem shifted_toNat (attr : UInt8) : (attr.toUInt16 <<< 8).toNat = attr.toNat * 256 := by
  have hlt := attr.toNat_lt
  rw [UInt16.toNat_shiftLeft, UInt8.toNat_toUInt16, Nat.shiftLeft_eq]
  exact Nat.mod_eq_of_lt (by change attr.toNat * 256 < 2 ^ 16; omega)

/-- The byte of a character is kept as it is. -/
theorem char_cell_byte (attr c : UInt8) : (char_cell attr c).toUInt8 = c := by
  have hzero : (attr.toUInt16 <<< 8).toUInt8 = 0 := by
    apply UInt8.toNat.inj
    rw [UInt16.toNat_toUInt8, shifted_toNat]
    exact Nat.mul_mod_left _ _
  unfold char_cell
  split
  · rw [UInt16.toUInt8_or, hzero, UInt8.zero_or, UInt8.toUInt8_toUInt16]
  · rw [UInt16.toUInt8_or, UInt8.toUInt8_toUInt16]
    exact UInt8.zero_or

/-- The colour of a character is kept unless its byte is negative as a `char`. -/
theorem char_cell_attr (attr : UInt8) {c : UInt8} (hc : c < 0x80) : (char_cell attr c >>> 8).toUInt8 = attr := by
  have hlt := attr.toNat_lt
  have hclt := c.toNat_lt
  apply UInt8.toNat.inj
  rw [char_cell, if_pos hc, UInt16.shiftRight_or, UInt16.toUInt8_or, UInt8.toNat_or, UInt16.toNat_toUInt8, UInt16.toNat_toUInt8,
    UInt16.toNat_shiftRight, UInt16.toNat_shiftRight, shifted_toNat, UInt8.toNat_toUInt16, Nat.shiftRight_eq_div_pow, Nat.shiftRight_eq_div_pow]
  have h8 : (8 : UInt16).toNat % 16 = 8 := rfl
  rw [h8, Nat.div_eq_of_lt (show c.toNat < 2 ^ 8 from hclt), Nat.mul_div_cancel _ (by decide), Nat.mod_eq_of_lt hlt]
  exact Nat.or_zero _
/-- A value of the screen is a character of the transcript: it has its byte, and its colour
    if the byte is not negative as a `char`. -/
structure Carries (val : UInt16) (written : UInt8 × UInt8) : Prop where
  byte : val.toUInt8 = written.2
  attr : written.2 < 0x80 → (val >>> 8).toUInt8 = written.1

theorem Records.target_eq (h : Records s t) {r c : ℕ} (hr : r < s.VISIBLE_ROWS) (hc : c < s.SCREEN_COLS - 1) :
    if start_history_total s + r ≤ t.line then Carries (target s (r, c)) (t.lines (start_history_total s + r) c)
    else target s (r, c) = blank_cell := by
  obtain ⟨hin, _⟩ := h.shown_lines hr
  simp only [target, if_pos hr, if_neg (show ¬ c = s.SCREEN_COLS - 1 by omega), h.line]
  split
  case isTrue hle =>
    rw [h.holds _ hle hin c (by omega)]
    exact ⟨char_cell_byte _ _, char_cell_attr _⟩
  case isFalse => rfl

/-- Whatever is printed, scrolled and cleared after a screen has been set up and cleared, each
    visible row shows its line of the output or is blank when that line does not exist yet,
    all lines shown are still in the history, and no call leaves an array or divides by zero. -/
theorem scrollback_shows_history (s : Screen) (addr : ℕ) (width height pitch : UInt32) (bpp : UInt8) (ops : List OutputOp) :
    let start := screen_init_fb s addr width height pitch bpp
    let s' := ops.foldl output_op (clear_screen start)
    let t := ops.foldl Transcript.output (Transcript.empty (start.SCREEN_COLS - 1) start.current_attr)
    (∀ r < s'.VISIBLE_ROWS, t.line < start_history_total s' + r + MAX_HISTORY ∧
      ∀ c < s'.SCREEN_COLS - 1, ∃ val, Rendered s' r c val ∧ (PixelsApart start → PixelsRendered s' r c val) ∧
        if start_history_total s' + r ≤ t.line then Carries val (t.lines (start_history_total s' + r) c)
        else val = blank_cell) ∧
    (∀ a ∈ output_accesses start .clear_screen, a.Sound) ∧
    ∀ op, (t.output op).line < 2 ^ 31 → ∀ a ∈ output_accesses s' op, a.Sound := by
  intro start s' t
  have hrun : Records s' t := (records_clear_screen start).run ops
  have hshowing : PixelsApart start → Showing s' s.defer_refresh := by
    intro hapart
    have hstart : Showing start s.defer_refresh := ⟨rfl, hapart, fun hforce => by cases hforce⟩
    exact (hstart.output .clear_screen).run ops
  refine ⟨fun r hr => ⟨(hrun.shown_lines hr).1, fun c hc => ?_⟩, fun a ha => clear_screen_sound ha,
    fun op hlines a ha => hrun.output_sound hlines ha⟩
  exact ⟨target s' (r, c), rendered_target hr hc, fun hapart => (hshowing hapart).rendered hr hc, hrun.target_eq hr hc⟩

end os_dev.screen
