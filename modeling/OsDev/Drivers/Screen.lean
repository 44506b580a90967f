import OsDev.Drivers.Font
import OsDev.Lib.Canvas
import OsDev.Libc.Str
import Mathlib.Data.Int.Notation
import Mathlib.Tactic.Ring

open os_dev.libc canvas

namespace os_dev.screen

def vga_palette : List UInt32 := [
  0x000000, 0x0000AA, 0x00AA00, 0x00AAAA, 0xAA0000, 0xAA00AA, 0xAA5500, 0xAAAAAA,
  0x555555, 0x5555FF, 0x55FF55, 0x55FFFF, 0xFF5555, 0xFF55FF, 0xFFFF55, 0xFFFFFF]

def attr_fg (attr : UInt8) : UInt32 := vga_palette.getD (attr &&& 0x0F).toNat 0
def attr_bg (attr : UInt8) : UInt32 := vga_palette.getD ((attr >>> 4) &&& 0x0F).toNat 0

def MAX_HISTORY : ℕ := 1000
def MAX_ROWS : ℕ := 200
def MAX_COLS : ℕ := 320
def MARGIN_ROWS : ℕ := 2

/-- The grid dimensions `SCREEN_ROWS` and `SCREEN_COLS`, which only `screen_init_fb` sets. -/
structure Grid where
  rows : ℕ
  cols : ℕ
  rows_min : 10 ≤ rows
  rows_max : rows ≤ MAX_ROWS
  cols_min : 40 ≤ cols
  cols_max : cols ≤ MAX_COLS

/-- The variables of the driver, the framebuffer memory (bytes behind `fb_ptr`) and the
    text memory at 0xB8000. -/
structure Screen where
  fb_ptr : ℕ
  fb_width : UInt32
  fb_height : UInt32
  fb_pitch : UInt32
  fb_bpp : UInt8
  current_attr : UInt8
  grid : Grid
  defer_refresh : ℕ
  history_buffer : ℕ → ℕ → UInt16
  total_lines_stored : ℕ
  current_line_idx : ℕ
  current_col : ℕ
  scroll_offset : ℕ
  cursor : ℕ
  fb_last_screen : ℕ × ℕ → UInt16
  fb_force_redraw : Bool
  pixels : ℕ → UInt8
  vga : ℕ → UInt16
  agent_capture_buf : ℕ → UInt8
  agent_capture_idx : ℕ
  agent_capture_active : Bool

def Screen.SCREEN_ROWS (s : Screen) : ℕ := s.grid.rows
def Screen.SCREEN_COLS (s : Screen) : ℕ := s.grid.cols
def Screen.VISIBLE_ROWS (s : Screen) : ℕ := s.grid.rows - MARGIN_ROWS

/-- The variables of the driver at boot. -/
def boot : Screen where
  fb_ptr := 0
  fb_width := 0
  fb_height := 0
  fb_pitch := 0
  fb_bpp := 0
  current_attr := 0x07
  grid := ⟨25, 80, by decide, by decide, by decide, by decide⟩
  defer_refresh := 0
  history_buffer := fun _ _ => 0
  total_lines_stored := 0
  current_line_idx := 0
  current_col := 0
  scroll_offset := 0
  cursor := 0
  fb_last_screen := fun _ => 0
  fb_force_redraw := true
  pixels := fun _ => 0
  vga := fun _ => 0
  agent_capture_buf := fun _ => 0
  agent_capture_idx := 0
  agent_capture_active := false

/-- `(attr << 8) | c` in 16 bits; `char` is signed, so a byte from 0x80 on sets all of
    the upper bits. -/
def char_cell (attr c : UInt8) : UInt16 :=
  if c < 0x80 then attr.toUInt16 <<< 8 ||| c.toUInt16 else 0xFF00 ||| c.toUInt16

def blank_cell : UInt16 := 0x0720

def clear_history_line (s : Screen) (idx : ℕ) : Screen :=
  { s with history_buffer := fun line col =>
      if line = idx ∧ col < s.SCREEN_COLS then blank_cell else s.history_buffer line col }

def screen_init_fb (s : Screen) (addr : ℕ) (width height pitch : UInt32) (bpp : UInt8) : Screen :=
  { s with
    fb_ptr := addr
    fb_width := width
    fb_height := height
    fb_pitch := pitch
    fb_bpp := bpp
    grid := {
      rows := min (max (height.toNat / 8) 10) MAX_ROWS
      cols := min (max (width.toNat / 8) 40) MAX_COLS
      rows_min := by unfold MAX_ROWS; omega
      rows_max := Nat.min_le_right _ _
      cols_min := by unfold MAX_COLS; omega
      cols_max := Nat.min_le_right _ _ }
    fb_force_redraw := true }

/-- The glyph that is drawn for a character. -/
def glyph_index (vga_char : UInt16) : ℕ :=
  let ch := vga_char.toNat % 256
  if ch = 219 then 0x23 else if ch = 179 then 0x7C else if ch > 127 then 0x3F else ch

/-- The bytes that one pixel stores, from address `pixel` on. -/
def pixel_stores (bytes_per_pixel pixel : ℕ) (color : UInt32) : List (ℕ × UInt8) :=
  let byte (k : ℕ) := (pixel + k, UInt8.ofNat (color.toNat / 2 ^ (8 * k)))
  if bytes_per_pixel = 4 then [byte 0, byte 1, byte 2, byte 3]
  else if bytes_per_pixel = 3 then [byte 0, byte 1, byte 2]
  else []

/-- The stores into the framebuffer that `draw_fb_char` makes, in their order. -/
def draw_fb_char (s : Screen) (r c : ℕ) (vga_char : UInt16) (fg_color bg_color : UInt32) : List (ℕ × UInt8) :=
  if s.fb_ptr = 0 then []
  else
    let glyph := font8x8_basic.getD (glyph_index vga_char) []
    let bytes_per_pixel := s.fb_bpp.toNat / 8
    let start_x := c * 8
    let start_y := r * 8
    -- the dimensions are compared as signed numbers
    if s.fb_width.toInt32.toInt < (start_x + 8 : ℕ) ∨ s.fb_height.toInt32.toInt < (start_y + 8 : ℕ) then []
    else
      (List.range 8).flatMap fun y =>
        -- the product with the unsigned pitch is taken in 32 bits
        let row_ptr := (UInt32.ofNat (start_y + y) * s.fb_pitch).toNat
        (List.range 8).flatMap fun x =>
          let set := (glyph.getD y 0).toNat.testBit x
          pixel_stores bytes_per_pixel (row_ptr + (start_x + x) * bytes_per_pixel) (if set then fg_color else bg_color)

/-- One cell of a redraw: the value compared with `fb_last_screen`, and what is drawn. -/
structure Cell where
  r : ℕ
  c : ℕ
  val : UInt16
  vga_char : UInt16
  fg : UInt32
  bg : UInt32

def start_history_total (s : Screen) : ℕ := s.total_lines_stored - s.scroll_offset - (s.VISIBLE_ROWS - 1)

def max_scroll (s : Screen) : ℕ := s.total_lines_stored - (s.VISIBLE_ROWS - 1)

def text_cell (r c : ℕ) (val : UInt16) : Cell :=
  let a := (val >>> 8).toUInt8
  ⟨r, c, val, val, attr_fg a, attr_bg a⟩

def empty_cell (r c : ℕ) : Cell := ⟨r, c, blank_cell, 0x20, attr_fg 0x07, attr_bg 0x07⟩

/-- The cells of one visible row, without the scrollbar column. -/
def row_cells (s : Screen) (r : ℕ) : List Cell :=
  let history_total_idx := start_history_total s + r
  if history_total_idx ≤ s.total_lines_stored then
    let circular_idx := history_total_idx % MAX_HISTORY
    (List.range s.SCREEN_COLS).filterMap fun c =>
      if c = s.SCREEN_COLS - 1 then none else some (text_cell r c (s.history_buffer circular_idx c))
  else (List.range (s.SCREEN_COLS - 1)).map (empty_cell r)

def margin_cells (s : Screen) : List Cell :=
  (List.range' s.VISIBLE_ROWS (s.SCREEN_ROWS - s.VISIBLE_ROWS)).flatMap fun r =>
    (List.range s.SCREEN_COLS).map (empty_cell r)

/-- The handle of the scrollbar stands in row `r`. -/
def on_handle (s : Screen) (r : ℕ) : Prop :=
  0 < max_scroll s ∧
    (r : ℤ) = (s.VISIBLE_ROWS - 1 : ℕ) - (s.scroll_offset * (s.VISIBLE_ROWS - 1) / max_scroll s : ℕ)

instance (s : Screen) (r : ℕ) : Decidable (on_handle s r) := inferInstanceAs (Decidable (_ ∧ _))

def scrollbar_cell (s : Screen) (r : ℕ) : Cell :=
  if on_handle s r then ⟨r, s.SCREEN_COLS - 1, 0x0F23, 0x23, 0xFFFFFF, 0x111111⟩
  else ⟨r, s.SCREEN_COLS - 1, 0x087C, 0x7C, 0x444444, 0x111111⟩

/-- All cells of a redraw, in its order. -/
def refresh_cells (s : Screen) : List Cell :=
  (List.range s.VISIBLE_ROWS).flatMap (row_cells s) ++ margin_cells s ++
    (List.range s.VISIBLE_ROWS).map (scrollbar_cell s)

/-- `if (fb_force_redraw || fb_last_screen[r][c] != val)`: draw the cell and remember its value. -/
def redraw_cell (s : Screen) (cv : Canvas ℕ UInt8 (ℕ × ℕ) UInt16) (cell : Cell) : Canvas ℕ UInt8 (ℕ × ℕ) UInt16 :=
  if s.fb_force_redraw = true ∨ cv.last (cell.r, cell.c) ≠ cell.val then
    ⟨store_all cv.mem (draw_fb_char s cell.r cell.c cell.vga_char cell.fg cell.bg),
      Function.update cv.last (cell.r, cell.c) cell.val⟩
  else cv

def refresh_fb_screen (s : Screen) : Screen :=
  let cv := (refresh_cells s).foldl (redraw_cell s) ⟨s.pixels, s.fb_last_screen⟩
  { s with
    pixels := cv.mem
    fb_last_screen := cv.last
    fb_force_redraw := false }

/-- The words that the redraw of the text screen stores, in its order. -/
def vga_stores (s : Screen) : List (ℕ × UInt16) :=
  let vga_idx (r c : ℕ) := r * s.SCREEN_COLS + c
  ((List.range s.VISIBLE_ROWS).flatMap fun r => (row_cells s r).map fun cell => (vga_idx r cell.c, cell.val)) ++
    (margin_cells s).map (fun cell => (vga_idx cell.r cell.c, cell.val)) ++
    (List.range s.VISIBLE_ROWS).map fun r =>
      (vga_idx r (s.SCREEN_COLS - 1), if on_handle s r then 0x0FDB else 0x08B3)

def refresh_screen (s : Screen) : Screen :=
  if s.fb_ptr ≠ 0 then refresh_fb_screen s
  else { s with vga := store_all s.vga (vga_stores s) }

/-- The position that the hardware cursor of the text screen is set to. -/
def update_cursor (s : Screen) : Screen :=
  if s.fb_ptr ≠ 0 then s
  else if s.scroll_offset > 0 then s
  else
    let start_history_total := s.total_lines_stored - (s.VISIBLE_ROWS - 1)
    let cursor_row := s.total_lines_stored - start_history_total
    { s with cursor := cursor_row * s.SCREEN_COLS + s.current_col }

def clear_screen (s : Screen) : Screen :=
  let s := (List.range MAX_HISTORY).foldl clear_history_line s
  update_cursor (refresh_screen
    { s with
      total_lines_stored := 0
      current_line_idx := 0
      current_col := 0
      scroll_offset := 0
      fb_force_redraw := true })

def scroll_up (s : Screen) : Screen :=
  if s.scroll_offset < max_scroll s ∧ s.scroll_offset < MAX_HISTORY - s.VISIBLE_ROWS then
    update_cursor (refresh_screen { s with scroll_offset := s.scroll_offset + 1 })
  else s

def scroll_down (s : Screen) : Screen :=
  if s.scroll_offset > 0 then
    update_cursor (refresh_screen { s with scroll_offset := s.scroll_offset - 1 })
  else s

def screen_start_capture (s : Screen) : Screen :=
  { s with
    agent_capture_idx := 0
    agent_capture_active := true
    agent_capture_buf := Function.update s.agent_capture_buf 0 0 }

def screen_stop_capture (s : Screen) : Screen := { s with agent_capture_active := false }

def screen_get_capture (s : Screen) : ℕ → UInt8 := s.agent_capture_buf

def set_text_color (s : Screen) (attr : UInt8) : Screen := { s with current_attr := attr }

def backspace_char : UInt8 := 0x08
def newline_char : UInt8 := 0x0A

/-- What `print_char` records on its entry. -/
def record (s : Screen) (c : UInt8) : Screen :=
  if s.agent_capture_active = true ∧ s.agent_capture_idx < 2047 then
    { s with
      agent_capture_buf := Function.update (Function.update s.agent_capture_buf s.agent_capture_idx c)
        (s.agent_capture_idx + 1) 0
      agent_capture_idx := s.agent_capture_idx + 1 }
  else s

def set_cell (s : Screen) (col : ℕ) (val : UInt16) : Screen :=
  { s with history_buffer :=
      Function.update s.history_buffer s.current_line_idx (Function.update (s.history_buffer s.current_line_idx) col val) }

/-- The branches of `print_char` that place a character without wrapping the line. -/
def place_char (s : Screen) (c : UInt8) : Screen :=
  if c = backspace_char then
    if s.current_col > 0 then
      { set_cell s (s.current_col - 1) (char_cell s.current_attr 0x20) with current_col := s.current_col - 1 }
    else s
  else if c = newline_char then
    let total_lines_stored := s.total_lines_stored + 1
    clear_history_line
      { s with
        current_col := 0
        total_lines_stored
        current_line_idx := total_lines_stored % MAX_HISTORY } (total_lines_stored % MAX_HISTORY)
  else { set_cell s s.current_col (char_cell s.current_attr c) with current_col := s.current_col + 1 }

/-- The end of `print_char` and `print_string`: follow the output unless that is deferred. -/
def follow (s : Screen) : Screen :=
  if s.defer_refresh = 0 then update_cursor (refresh_screen { s with scroll_offset := 0 }) else s

/-- `print_char` for a character that does not wrap the line. -/
def print_placed (s : Screen) (c : UInt8) : Screen := follow (place_char (record s c) c)

/-- The character stands at the last column, which it may not take. -/
def wraps (s : Screen) (c : UInt8) : Prop :=
  c ≠ backspace_char ∧ c ≠ newline_char ∧ ¬ s.current_col < s.SCREEN_COLS - 1

instance (s : Screen) (c : UInt8) : Decidable (wraps s c) := inferInstanceAs (Decidable (_ ∧ _))

/-- `print_char`. At the end of a line it calls itself for the line feed and then again
    for the character, neither of which wraps (`print_char_wrap`). -/
def print_char (s : Screen) (c : UInt8) : Screen :=
  if wraps s c then print_placed (print_placed (record s c) newline_char) c else print_placed s c

def print_string (s : Screen) (str : CStr) : Screen :=
  let s := str.foldl print_char { s with defer_refresh := s.defer_refresh + 1 }
  follow { s with defer_refresh := s.defer_refresh - 1 }

/-- What a redraw changes. -/
theorem refresh_screen_eq (s : Screen) : ∃ pixels fb_last_screen fb_force_redraw vga,
    refresh_screen s = { s with pixels, fb_last_screen, fb_force_redraw, vga } := by
  unfold refresh_screen
  split
  · exact ⟨_, _, _, s.vga, rfl⟩
  · exact ⟨s.pixels, s.fb_last_screen, s.fb_force_redraw, _, rfl⟩

theorem update_cursor_eq (s : Screen) : ∃ cursor, update_cursor s = { s with cursor } := by
  unfold update_cursor
  split
  · exact ⟨s.cursor, rfl⟩
  · split
    · exact ⟨s.cursor, rfl⟩
    · exact ⟨_, rfl⟩

/-- The variables as a clear sets them, before it redraws the screen. -/
def cleared (s : Screen) : Screen :=
  { (List.range MAX_HISTORY).foldl clear_history_line s with
    total_lines_stored := 0
    current_line_idx := 0
    current_col := 0
    scroll_offset := 0
    fb_force_redraw := true }

theorem clear_screen_eq (s : Screen) : clear_screen s = update_cursor (refresh_screen (cleared s)) := rfl

theorem follow_eq (s : Screen) : ∃ scroll_offset cursor pixels fb_last_screen fb_force_redraw vga,
    follow s = { s with scroll_offset, cursor, pixels, fb_last_screen, fb_force_redraw, vga } := by
  unfold follow
  split
  · obtain ⟨pixels, last, force, vga, hrefresh⟩ := refresh_screen_eq { s with scroll_offset := 0 }
    obtain ⟨cursor, hcursor⟩ := update_cursor_eq (refresh_screen { s with scroll_offset := 0 })
    rw [hcursor, hrefresh]
    exact ⟨0, cursor, pixels, last, force, vga, rfl⟩
  · exact ⟨_, _, _, _, _, _, rfl⟩

theorem record_eq (s : Screen) (c : UInt8) : ∃ agent_capture_buf agent_capture_idx,
    record s c = { s with agent_capture_buf, agent_capture_idx } := by
  unfold record
  split
  · exact ⟨_, _, rfl⟩
  · exact ⟨_, _, rfl⟩

theorem wraps_record (s : Screen) (c c' : UInt8) : wraps (record s c) c' ↔ wraps s c' := by
  obtain ⟨buf, idx, heq⟩ := record_eq s c
  rw [heq]
  rfl

theorem place_char_eq (s : Screen) (c : UInt8) : ∃ history_buffer total_lines_stored current_line_idx current_col,
    place_char s c = { s with history_buffer, total_lines_stored, current_line_idx, current_col } := by
  unfold place_char
  split
  · split
    · exact ⟨_, _, _, _, rfl⟩
    · exact ⟨_, _, _, _, rfl⟩
  · split
    · exact ⟨_, _, _, _, rfl⟩
    · exact ⟨_, _, _, _, rfl⟩

end os_dev.screen
