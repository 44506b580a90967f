import OsDev.Drivers.Screen
import Mathlib.Data.List.Induction

open os_dev.libc canvas

namespace os_dev.screen

variable {s : Screen} {r c : ℕ}

theorem Screen.visible_le (s : Screen) : s.VISIBLE_ROWS + 2 = s.SCREEN_ROWS := by
  have hrows := s.grid.rows_min
  unfold Screen.VISIBLE_ROWS Screen.SCREEN_ROWS MARGIN_ROWS
  omega

theorem Screen.cols_pos (s : Screen) : 40 ≤ s.SCREEN_COLS := s.grid.cols_min

/-- The value that a redraw shows in a cell. -/
def target (s : Screen) (rc : ℕ × ℕ) : UInt16 :=
  if rc.1 < s.VISIBLE_ROWS then
    if rc.2 = s.SCREEN_COLS - 1 then if on_handle s rc.1 then 0x0F23 else 0x087C
    else if start_history_total s + rc.1 ≤ s.total_lines_stored then
      s.history_buffer ((start_history_total s + rc.1) % MAX_HISTORY) rc.2
    else blank_cell
  else blank_cell

/-- The cells of a visible row lie in its text columns and show the line's text or blanks. -/
theorem mem_row_cells {cell : Cell} (h : cell ∈ row_cells s r) (hr : r < s.VISIBLE_ROWS) :
    cell.r = r ∧ cell.c < s.SCREEN_COLS - 1 ∧
      (cell = text_cell r cell.c (target s (r, cell.c)) ∨
        cell = empty_cell r cell.c ∧ target s (r, cell.c) = blank_cell) := by
  simp only [row_cells] at h
  split at h
  case isTrue hstored =>
    obtain ⟨c, hc, hcell⟩ := List.mem_filterMap.mp h
    split at hcell
    case isTrue => cases hcell
    case isFalse hne =>
      obtain rfl := Option.some.inj hcell
      have hlt := List.mem_range.mp hc
      refine ⟨rfl, (by change c < _; omega), .inl ?_⟩
      have hval : target s (r, c) = s.history_buffer ((start_history_total s + r) % MAX_HISTORY) c := by
        simp only [target, if_pos hr, if_neg hne, if_pos hstored]
      change _ = text_cell r c (target s (r, c))
      rw [hval]
  case isFalse hstored =>
    obtain ⟨c, hc, rfl⟩ := List.mem_map.mp h
    have hlt := List.mem_range.mp hc
    refine ⟨rfl, hlt, .inr ⟨rfl, ?_⟩⟩
    change target s (r, c) = _
    simp only [target, if_pos hr, if_neg (show ¬ c = s.SCREEN_COLS - 1 by omega), if_neg hstored]

theorem mem_margin_cells {cell : Cell} (h : cell ∈ margin_cells s) :
    s.VISIBLE_ROWS ≤ cell.r ∧ cell.r < s.SCREEN_ROWS ∧ cell.c < s.SCREEN_COLS ∧ cell = empty_cell cell.r cell.c ∧
      target s (cell.r, cell.c) = blank_cell := by
  obtain ⟨r, hr, hcell⟩ := List.mem_flatMap.mp h
  obtain ⟨c, hc, rfl⟩ := List.mem_map.mp hcell
  obtain ⟨hlow, hhigh⟩ := List.mem_range'_1.mp hr
  have hrows := s.visible_le
  refine ⟨hlow, (by change r < _; omega), List.mem_range.mp hc, rfl, ?_⟩
  change target s (r, c) = _
  simp only [target, if_neg (show ¬ r < s.VISIBLE_ROWS by omega)]

theorem scrollbar_cell_target (hr : r < s.VISIBLE_ROWS) :
    scrollbar_cell s r = ⟨r, s.SCREEN_COLS - 1, target s (r, s.SCREEN_COLS - 1),
      target s (r, s.SCREEN_COLS - 1) &&& 0xFF,
      if target s (r, s.SCREEN_COLS - 1) = 0x0F23 then 0xFFFFFF else 0x444444, 0x111111⟩ := by
  unfold scrollbar_cell target
  simp only [if_pos hr, if_true]
  split <;> simp <;> decide

theorem mem_refresh_cells {cell : Cell} (h : cell ∈ refresh_cells s) :
    (∃ r < s.VISIBLE_ROWS, cell ∈ row_cells s r) ∨ cell ∈ margin_cells s ∨
      ∃ r < s.VISIBLE_ROWS, cell = scrollbar_cell s r := by
  unfold refresh_cells at h
  rcases List.mem_append.mp h with h | h
  · rcases List.mem_append.mp h with h | h
    · obtain ⟨r, hr, hcell⟩ := List.mem_flatMap.mp h
      exact .inl ⟨r, List.mem_range.mp hr, hcell⟩
    · exact .inr (.inl h)
  · obtain ⟨r, hr, rfl⟩ := List.mem_map.mp h
    exact .inr (.inr ⟨r, List.mem_range.mp hr, rfl⟩)

/-- The stores that draw a cell with a value; they depend on whether it is a cell of the
    scrollbar. -/
def cell_stores (s : Screen) (rc : ℕ × ℕ) (val : UInt16) : List (ℕ × UInt8) :=
  if rc.1 < s.VISIBLE_ROWS ∧ rc.2 = s.SCREEN_COLS - 1 then
    draw_fb_char s rc.1 rc.2 (val &&& 0xFF) (if val = 0x0F23 then 0xFFFFFF else 0x444444) 0x111111
  else draw_fb_char s rc.1 rc.2 val (attr_fg (val >>> 8).toUInt8) (attr_bg (val >>> 8).toUInt8)

/-- A blank is drawn like the blank cell of a line of text. -/
theorem draw_blank (s : Screen) (r c : ℕ) (fg bg : UInt32) :
    draw_fb_char s r c 0x20 fg bg = draw_fb_char s r c blank_cell fg bg := by
  have hglyph : glyph_index 0x20 = glyph_index blank_cell := by decide
  unfold draw_fb_char
  rw [hglyph]

/-- Every cell of a redraw shows its target, and is drawn as that value is drawn there. -/
theorem refresh_cell_spec {cell : Cell} (h : cell ∈ refresh_cells s) :
    cell.r < s.SCREEN_ROWS ∧ cell.c < s.SCREEN_COLS ∧ cell.val = target s (cell.r, cell.c) ∧
      draw_fb_char s cell.r cell.c cell.vga_char cell.fg cell.bg = cell_stores s (cell.r, cell.c) cell.val := by
  have hrows := s.visible_le
  have hcols := s.cols_pos
  have hempty : ∀ r c, ¬ (r < s.VISIBLE_ROWS ∧ c = s.SCREEN_COLS - 1) →
      draw_fb_char s r c 0x20 (attr_fg 0x07) (attr_bg 0x07) = cell_stores s (r, c) blank_cell := by
    intro r c htext
    rw [cell_stores, if_neg htext, draw_blank]
    rfl
  rcases mem_refresh_cells h with ⟨r, hr, hcell⟩ | hcell | ⟨r, hr, rfl⟩
  · obtain ⟨hr', hc, hcase⟩ := mem_row_cells hcell hr
    have htext : ¬ (r < s.VISIBLE_ROWS ∧ cell.c = s.SCREEN_COLS - 1) := by omega
    rw [hr']
    refine ⟨by omega, by omega, ?_⟩
    rcases hcase with heq | ⟨heq, hblank⟩
    · generalize target s (r, cell.c) = val at heq
      rw [heq]
      exact ⟨rfl, (if_neg htext).symm⟩
    · rw [hblank, heq]
      exact ⟨rfl, hempty r cell.c htext⟩
  · obtain ⟨hlow, hhigh, hc, heq, hblank⟩ := mem_margin_cells hcell
    have htext : ¬ (cell.r < s.VISIBLE_ROWS ∧ cell.c = s.SCREEN_COLS - 1) := by omega
    refine ⟨hhigh, hc, ?_⟩
    rw [hblank, heq]
    exact ⟨rfl, hempty cell.r cell.c htext⟩
  · rw [scrollbar_cell_target hr]
    have hbar : r < s.VISIBLE_ROWS ∧ s.SCREEN_COLS - 1 = s.SCREEN_COLS - 1 := ⟨hr, rfl⟩
    exact ⟨(by change r < _; omega), (by change _ - 1 < _; omega), rfl, (if_pos hbar).symm⟩

/-- A visible row draws all of its text columns. -/
theorem row_cells_covers (hc : c < s.SCREEN_COLS - 1) : ∃ cell ∈ row_cells s r, cell.r = r ∧ cell.c = c := by
  by_cases hstored : start_history_total s + r ≤ s.total_lines_stored
  · refine ⟨text_cell r c (s.history_buffer ((start_history_total s + r) % MAX_HISTORY) c), ?_, rfl, rfl⟩
    simp only [row_cells, if_pos hstored]
    exact List.mem_filterMap.mpr ⟨c, List.mem_range.mpr (by omega), if_neg (by omega)⟩
  · refine ⟨empty_cell r c, ?_, rfl, rfl⟩
    simp only [row_cells, if_neg hstored]
    exact List.mem_map.mpr ⟨c, List.mem_range.mpr hc, rfl⟩

/-- A redraw visits every cell of the grid. -/
theorem refresh_covers (hr : r < s.SCREEN_ROWS) (hc : c < s.SCREEN_COLS) :
    ∃ cell ∈ refresh_cells s, cell.r = r ∧ cell.c = c := by
  have hrows := s.visible_le
  simp only [refresh_cells, List.append_assoc, List.mem_append]
  by_cases hvisible : r < s.VISIBLE_ROWS
  · by_cases hlast : c = s.SCREEN_COLS - 1
    · refine ⟨scrollbar_cell s r, .inr (.inr (List.mem_map.mpr ⟨r, List.mem_range.mpr hvisible, rfl⟩)), ?_⟩
      rw [scrollbar_cell_target hvisible]
      exact ⟨rfl, hlast.symm⟩
    · obtain ⟨cell, hcell, hplace⟩ := @row_cells_covers s r c (by omega)
      exact ⟨cell, .inl (List.mem_flatMap.mpr ⟨r, List.mem_range.mpr hvisible, hcell⟩), hplace⟩
  · refine ⟨empty_cell r c, .inr (.inl (List.mem_flatMap.mpr ⟨r, ?_, ?_⟩)), rfl, rfl⟩
    · exact List.mem_range'_1.mpr (by omega)
    · exact List.mem_map.mpr ⟨c, List.mem_range.mpr hc, rfl⟩

/-- The cells of a redraw with the values they show. -/
def refresh_targets (s : Screen) : List ((ℕ × ℕ) × UInt16) :=
  (refresh_cells s).map fun cell => ((cell.r, cell.c), cell.val)

theorem refresh_canvas (s : Screen) (cv : Canvas ℕ UInt8 (ℕ × ℕ) UInt16) :
    (refresh_cells s).foldl (redraw_cell s) cv =
      redraw_all (cell_stores s) s.fb_force_redraw cv (refresh_targets s) := by
  unfold redraw_all refresh_targets
  rw [List.foldl_map]
  refine List.foldl_ext _ _ _ fun cv cell hcell => ?_
  rw [redraw_cell, redraw, (refresh_cell_spec hcell).2.2.2]

theorem target_of_mem {st : (ℕ × ℕ) × UInt16} (h : st ∈ refresh_targets s) :
    st.1.1 < s.SCREEN_ROWS ∧ st.1.2 < s.SCREEN_COLS ∧ st.2 = target s st.1 := by
  obtain ⟨cell, hcell, rfl⟩ := List.mem_map.mp h
  obtain ⟨hr, hc, hval, _⟩ := refresh_cell_spec hcell
  exact ⟨hr, hc, hval⟩

/-- After a redraw every cell of the grid has been drawn with its target last. -/
theorem refresh_fb_last (s : Screen) {r c : ℕ} (hr : r < s.SCREEN_ROWS) (hc : c < s.SCREEN_COLS) :
    (refresh_fb_screen s).fb_last_screen (r, c) = target s (r, c) := by
  obtain ⟨cell, hcell, rfl, rfl⟩ := refresh_covers hr hc
  have hlast : (refresh_fb_screen s).fb_last_screen = store_all s.fb_last_screen (refresh_targets s) := by
    unfold refresh_fb_screen
    simp only [refresh_canvas, redraw_all_last]
  rw [hlast]
  exact store_all_of_fun (fun st hst => (target_of_mem hst).2.2) ⟨cell.val, List.mem_map.mpr ⟨cell, hcell, rfl⟩⟩

/-- The cells of the grid. -/
def InGrid (s : Screen) (rc : ℕ × ℕ) : Prop := rc.1 < s.SCREEN_ROWS ∧ rc.2 < s.SCREEN_COLS

/-- The guard of `draw_fb_char` lets the cell pass. -/
def Drawn (s : Screen) (r c : ℕ) : Prop :=
  (c * 8 + 8 : ℕ) ≤ s.fb_width.toInt32.toInt ∧ (r * 8 + 8 : ℕ) ≤ s.fb_height.toInt32.toInt

/-- Address of the first byte of pixel `x` of pixel row `y`. -/
def pixel_address (s : Screen) (y x : ℕ) : ℕ := (UInt32.ofNat y * s.fb_pitch).toNat + x * (s.fb_bpp.toNat / 8)

/-- No two pixels of different rows that are drawn share memory. -/
def PixelsApart (s : Screen) : Prop :=
  ∀ r c r' c' y x y' x', InGrid s (r, c) → InGrid s (r', c') → Drawn s r c → Drawn s r' c' →
    y < 8 → x < 8 → y' < 8 → x' < 8 → r * 8 + y ≠ r' * 8 + y' →
    pixel_address s (r * 8 + y) (c * 8 + x) + s.fb_bpp.toNat / 8 ≤ pixel_address s (r' * 8 + y') (c' * 8 + x') ∨
      pixel_address s (r' * 8 + y') (c' * 8 + x') + s.fb_bpp.toNat / 8 ≤ pixel_address s (r * 8 + y) (c * 8 + x)

theorem le_toNat_of_le_toInt {n : ℕ} {w : UInt32} (h : (n : ℤ) ≤ w.toInt32.toInt) : n ≤ w.toNat := by
  have hbits : w.toInt32.toInt = w.toBitVec.toInt := rfl
  have hnat : w.toBitVec.toNat = w.toNat := rfl
  rw [hbits, BitVec.toInt_eq_toNat_cond, hnat] at h
  split at h <;> omega

/-- Where no product of a row with the pitch is cut to 32 bits and a row of pixels fits
    into the pitch, the pixels are apart. -/
theorem pixelsApart_of_no_wrap (hpitch : s.fb_width.toNat * (s.fb_bpp.toNat / 8) ≤ s.fb_pitch.toNat)
    (hfits : 8 * s.SCREEN_ROWS * s.fb_pitch.toNat ≤ 2 ^ 32) : PixelsApart s := by
  have hmax : s.SCREEN_ROWS ≤ 200 := s.grid.rows_max
  have hrow : ∀ r y, r < s.SCREEN_ROWS → y < 8 →
      (UInt32.ofNat (r * 8 + y) * s.fb_pitch).toNat = (r * 8 + y) * s.fb_pitch.toNat := by
    intro r y hr hy
    have hle : r * 8 + y + 1 ≤ 8 * s.SCREEN_ROWS := by omega
    have hmul := Nat.mul_le_mul_right s.fb_pitch.toNat hle
    rw [Nat.succ_mul] at hmul
    have hlt : (r * 8 + y) * s.fb_pitch.toNat < 2 ^ 32 := by
      rcases Nat.eq_zero_or_pos s.fb_pitch.toNat with hzero | hpos
      · rw [hzero, Nat.mul_zero]
        decide
      · omega
    rw [UInt32.toNat_mul, UInt32.toNat_ofNat_of_lt' (by change _ < 2 ^ 32; omega), Nat.mod_eq_of_lt hlt]
  have hcol : ∀ r c x, Drawn s r c → x < 8 →
      (c * 8 + x) * (s.fb_bpp.toNat / 8) + s.fb_bpp.toNat / 8 ≤ s.fb_pitch.toNat := by
    intro r c x hdrawn hx
    have hwidth := le_toNat_of_le_toInt hdrawn.1
    rw [← Nat.succ_mul]
    exact Nat.le_trans (Nat.mul_le_mul_right _ (by omega)) hpitch
  intro r c r' c' y x y' x' hin hin' hdrawn hdrawn' hy hx hy' hx' hne
  have hin8 := hcol r c x hdrawn hx
  have hin8' := hcol r' c' x' hdrawn' hx'
  simp only [pixel_address]
  rw [hrow r y hin.1 hy, hrow r' y' hin'.1 hy']
  rcases Nat.lt_or_gt_of_ne hne with hlt | hlt
  · have hmul := Nat.mul_le_mul_right s.fb_pitch.toNat hlt
    rw [Nat.succ_mul] at hmul
    left
    omega
  · have hmul := Nat.mul_le_mul_right s.fb_pitch.toNat hlt
    rw [Nat.succ_mul] at hmul
    right
    omega

theorem touches_pixel {bytes_per_pixel pixel a : ℕ} {color : UInt32}
    (h : Touches (pixel_stores bytes_per_pixel pixel color) a) : pixel ≤ a ∧ a < pixel + bytes_per_pixel := by
  obtain ⟨b, hb⟩ := h
  simp only [pixel_stores] at hb
  split at hb
  case isTrue hfour =>
    simp only [List.mem_cons, Prod.mk.injEq, List.not_mem_nil, or_false] at hb
    omega
  case isFalse =>
    split at hb
    case isTrue hthree =>
      simp only [List.mem_cons, Prod.mk.injEq, List.not_mem_nil, or_false] at hb
      omega
    case isFalse => cases hb

/-- What is drawn in a cell lies in the pixels of the cell. -/
theorem touches_draw {r c a : ℕ} {vga_char : UInt16} {fg bg : UInt32} (h : Touches (draw_fb_char s r c vga_char fg bg) a) :
    Drawn s r c ∧ ∃ y < 8, ∃ x < 8, pixel_address s (r * 8 + y) (c * 8 + x) ≤ a ∧
      a < pixel_address s (r * 8 + y) (c * 8 + x) + s.fb_bpp.toNat / 8 := by
  obtain ⟨b, hb⟩ := h
  simp only [draw_fb_char] at hb
  split at hb
  case isTrue => cases hb
  case isFalse =>
    split at hb
    case isTrue => cases hb
    case isFalse hguard =>
      obtain ⟨hx, hy⟩ := not_or.mp hguard
      obtain ⟨y, hy8, hb⟩ := List.mem_flatMap.mp hb
      obtain ⟨x, hx8, hb⟩ := List.mem_flatMap.mp hb
      exact ⟨⟨Int.not_lt.mp hx, Int.not_lt.mp hy⟩, y, List.mem_range.mp hy8, x, List.mem_range.mp hx8, touches_pixel ⟨b, hb⟩⟩

theorem touches_cell {rc : ℕ × ℕ} {val : UInt16} {a : ℕ} (h : Touches (cell_stores s rc val) a) :
    Drawn s rc.1 rc.2 ∧ ∃ y < 8, ∃ x < 8, pixel_address s (rc.1 * 8 + y) (rc.2 * 8 + x) ≤ a ∧
      a < pixel_address s (rc.1 * 8 + y) (rc.2 * 8 + x) + s.fb_bpp.toNat / 8 := by
  unfold cell_stores at h
  split at h
  · exact touches_draw h
  · exact touches_draw h

theorem PixelsApart.cells (h : PixelsApart s) : Apart (cell_stores s) (InGrid s) := by
  intro ⟨r, c⟩ ⟨r', c'⟩ hin hin' hne w w' a ha ha'
  obtain ⟨hdrawn, y, hy, x, hx, hlow, hhigh⟩ := touches_cell ha
  obtain ⟨hdrawn', y', hy', x', hx', hlow', hhigh'⟩ := touches_cell ha'
  by_cases hrow : r * 8 + y = r' * 8 + y'
  · -- two pixels of one row
    have hcol : c * 8 + x ≠ c' * 8 + x' := by
      intro hcol
      exact hne (Prod.ext (by simp only; omega) (by simp only; omega))
    simp only [pixel_address, ← hrow] at hlow hhigh hlow' hhigh'
    rcases Nat.lt_or_gt_of_ne hcol with hlt | hlt
    · have hmul := Nat.mul_le_mul_right (s.fb_bpp.toNat / 8) hlt
      rw [Nat.succ_mul] at hmul
      omega
    · have hmul := Nat.mul_le_mul_right (s.fb_bpp.toNat / 8) hlt
      rw [Nat.succ_mul] at hmul
      omega
  · rcases h r c r' c' y x y' x' hin hin' hdrawn hdrawn' hy hx hy' hx' hrow with hle | hle
    · simp only at hlow hhigh hlow' hhigh'
      omega
    · simp only at hlow hhigh hlow' hhigh'
      omega

/-- The framebuffer shows what the driver believes it shows. -/
structure Showing (s : Screen) (n : ℕ) : Prop where
  defer : s.defer_refresh = n
  apart : PixelsApart s
  shows : s.fb_force_redraw = false → s.fb_ptr ≠ 0 ∧
    ∀ rc, InGrid s rc → Canvas.Shows (cell_stores s) ⟨s.pixels, s.fb_last_screen⟩ rc

/-- The framebuffer shows the history and the scroll state as they are. -/
structure Synced (s : Screen) : Prop where
  showing : Showing s 0
  current : s.fb_force_redraw = false → ∀ rc, InGrid s rc → s.fb_last_screen rc = target s rc

theorem refresh_fb_mem (s : Screen) : (refresh_fb_screen s).pixels =
    (redraw_all (cell_stores s) s.fb_force_redraw ⟨s.pixels, s.fb_last_screen⟩ (refresh_targets s)).mem := by
  unfold refresh_fb_screen
  simp only [refresh_canvas]

theorem Showing.refresh {n : ℕ} (h : Showing s n) : Showing (refresh_screen s) n := by
  unfold refresh_screen
  split
  case isFalse => exact ⟨h.defer, h.apart, h.shows⟩
  case isTrue hptr =>
    refine ⟨h.defer, h.apart, fun _ => ⟨hptr, fun rc hrc => ?_⟩⟩
    have hcells : ∀ st ∈ refresh_targets s, InGrid s st.1 := fun st hst =>
      ⟨(target_of_mem hst).1, (target_of_mem hst).2.1⟩
    obtain ⟨cell, hcell, hr, hc⟩ := refresh_covers hrc.1 hrc.2
    have hdrawn : ∃ w, (rc, w) ∈ refresh_targets s :=
      ⟨cell.val, List.mem_map.mpr ⟨cell, hcell, by rw [hr, hc]⟩⟩
    change Canvas.Shows (cell_stores s) ((refresh_cells s).foldl (redraw_cell s) ⟨s.pixels, s.fb_last_screen⟩) rc
    rw [refresh_canvas]
    refine redraw_all_shows h.apart.cells hcells hrc ?_
    cases hforce : s.fb_force_redraw with
    | true => exact .inr ⟨rfl, hdrawn⟩
    | false => exact .inl ((h.shows hforce).2 rc hrc)

theorem Showing.synced (h : Showing s 0) : Synced (refresh_screen s) := by
  refine ⟨h.refresh, fun hforce rc hrc => ?_⟩
  unfold refresh_screen at hforce hrc ⊢
  split at hforce
  case isFalse hptr => exact absurd (h.shows hforce).1 hptr
  case isTrue hptr =>
    rw [if_pos hptr] at hrc ⊢
    exact refresh_fb_last s hrc.1 hrc.2

/-- A redraw changes nothing, whether it is forced or not. -/
theorem Synced.kept (h : Synced s) (hforce : s.fb_force_redraw = false) (force : Bool) :
    (refresh_screen { s with fb_force_redraw := force }).pixels = s.pixels := by
  obtain ⟨hptr, hshows⟩ := h.showing.shows hforce
  have hcells : ∀ st ∈ refresh_targets s, InGrid s st.1 := fun st hst =>
    ⟨(target_of_mem hst).1, (target_of_mem hst).2.1⟩
  have hskip : redraw_all (cell_stores s) false ⟨s.pixels, s.fb_last_screen⟩ (refresh_targets s) =
      ⟨s.pixels, s.fb_last_screen⟩ := by
    refine redraw_all_same fun st hst => ?_
    rw [(target_of_mem hst).2.2]
    exact h.current hforce st.1 (hcells st hst)
  have hsame : redraw_all (cell_stores s) force ⟨s.pixels, s.fb_last_screen⟩ (refresh_targets s) =
      ⟨s.pixels, s.fb_last_screen⟩ := by
    cases force with
    | false => exact hskip
    | true => exact (redraw_all_force h.showing.apart.cells hcells hshows).trans hskip
  unfold refresh_screen
  rw [if_pos hptr, refresh_fb_mem]
  exact congrArg Canvas.mem hsame

/-- Before anything has been drawn the next redraw is a forced one, afterwards a forced
    redraw changes nothing. -/
theorem Synced.incremental (h : Synced s) :
    (refresh_screen s).pixels = (refresh_screen { s with fb_force_redraw := true }).pixels ∧
      (s.fb_force_redraw = false → s.pixels = (refresh_screen { s with fb_force_redraw := true }).pixels) := by
  refine ⟨?_, fun hforce => (h.kept hforce true).symm⟩
  cases hforce : s.fb_force_redraw with
  | true => rw [← hforce]
  | false =>
    have hcached : refresh_screen s = refresh_screen { s with fb_force_redraw := false } := by rw [← hforce]
    rw [hcached, h.kept hforce, h.kept hforce]

theorem Showing.cursor {n : ℕ} (h : Showing s n) : Showing (update_cursor s) n := by
  obtain ⟨cursor, heq⟩ := update_cursor_eq s
  rw [heq]
  exact ⟨h.defer, h.apart, h.shows⟩

theorem Synced.cursor (h : Synced s) : Synced (update_cursor s) := by
  obtain ⟨cursor, heq⟩ := update_cursor_eq s
  rw [heq]
  exact ⟨⟨h.showing.defer, h.showing.apart, h.showing.shows⟩, h.current⟩

theorem Showing.follow {n : ℕ} (h : Showing s n) : Showing (follow s) n := by
  unfold os_dev.screen.follow
  split
  case isTrue hzero =>
    have hmoved : Showing { s with scroll_offset := 0 } 0 := ⟨hzero, h.apart, h.shows⟩
    have hn : n = 0 := h.defer.symm.trans hzero
    rw [hn]
    exact hmoved.synced.cursor.showing
  case isFalse => exact h

theorem Showing.follow_synced (h : Showing s 0) : Synced (os_dev.screen.follow s) := by
  unfold os_dev.screen.follow
  rw [if_pos h.defer]
  have hmoved : Showing { s with scroll_offset := 0 } 0 := ⟨h.defer, h.apart, h.shows⟩
  exact hmoved.synced.cursor

theorem Showing.record {n : ℕ} (h : Showing s n) (c : UInt8) : Showing (record s c) n := by
  unfold os_dev.screen.record
  split
  · exact ⟨h.defer, h.apart, h.shows⟩
  · exact h

theorem Showing.place {n : ℕ} (h : Showing s n) (c : UInt8) : Showing (place_char s c) n := by
  unfold place_char
  split
  · split
    · exact ⟨h.defer, h.apart, h.shows⟩
    · exact h
  · split
    · exact ⟨h.defer, h.apart, h.shows⟩
    · exact ⟨h.defer, h.apart, h.shows⟩

theorem Showing.placed {n : ℕ} (h : Showing s n) (c : UInt8) : Showing (print_placed s c) n :=
  ((h.record c).place c).follow

theorem Showing.print_char {n : ℕ} (h : Showing s n) (c : UInt8) : Showing (print_char s c) n := by
  unfold os_dev.screen.print_char
  split
  · exact ((h.record c).placed newline_char).placed c
  · exact h.placed c

theorem Showing.print_char_synced (h : Showing s 0) (c : UInt8) : Synced (os_dev.screen.print_char s c) := by
  unfold os_dev.screen.print_char
  split
  · exact ((((h.record c).placed newline_char).record c).place c).follow_synced
  · exact ((h.record c).place c).follow_synced

theorem Showing.print_chars {n : ℕ} (h : Showing s n) (str : CStr) :
    Showing (str.foldl os_dev.screen.print_char s) n := by
  induction str generalizing s with
  | nil => exact h
  | cons c str ih => exact ih (h.print_char c)

theorem Showing.defer_print_chars {n : ℕ} (h : Showing s n) (str : CStr) :
    Showing
      { str.foldl os_dev.screen.print_char { s with defer_refresh := s.defer_refresh + 1 } with
        defer_refresh := (str.foldl os_dev.screen.print_char { s with defer_refresh := s.defer_refresh + 1 }).defer_refresh - 1 }
      n := by
  have hdeferred : Showing { s with defer_refresh := s.defer_refresh + 1 } (n + 1) :=
    ⟨congrArg (· + 1) h.defer, h.apart, h.shows⟩
  have hdone := hdeferred.print_chars str
  exact ⟨congrArg (· - 1) hdone.defer, hdone.apart, hdone.shows⟩

theorem Showing.clear_lines {n : ℕ} (h : Showing s n) (lines : List ℕ) : Showing (lines.foldl clear_history_line s) n := by
  induction lines generalizing s with
  | nil => exact h
  | cons line lines ih => exact ih ⟨h.defer, h.apart, h.shows⟩

theorem Showing.reset {n : ℕ} (h : Showing s n) :
    Showing
      { s with
        total_lines_stored := 0
        current_line_idx := 0
        current_col := 0
        scroll_offset := 0
        fb_force_redraw := true } n := by
  refine ⟨h.defer, h.apart, fun hforce => ?_⟩
  cases hforce

theorem Showing.cleared {n : ℕ} (h : Showing s n) : Showing (cleared s) n := (h.clear_lines _).reset

/-- The calls that print, scroll or clear. -/
inductive OutputOp
  | clear_screen
  | set_text_color (attr : UInt8)
  | char (c : UInt8)
  | string (str : CStr)
  | scroll_up
  | scroll_down

def output_op (s : Screen) : OutputOp → Screen
  | .clear_screen => clear_screen s
  | .set_text_color attr => set_text_color s attr
  | .char c => print_char s c
  | .string str => print_string s str
  | .scroll_up => scroll_up s
  | .scroll_down => scroll_down s

/-- The calls of the driver. -/
inductive ScreenOp
  | init_fb (addr : ℕ) (width height pitch : UInt32) (bpp : UInt8)
  | output (op : OutputOp)

def screen_op (s : Screen) : ScreenOp → Screen
  | .init_fb addr width height pitch bpp => screen_init_fb s addr width height pitch bpp
  | .output op => output_op s op

/-- A framebuffer is set up with a geometry in which the pixels do not share memory. -/
def ScreenOp.Sound : ScreenOp → Prop
  | .init_fb addr width height pitch bpp => PixelsApart (screen_init_fb boot addr width height pitch bpp)
  | .output _ => True

theorem Showing.output {n : ℕ} (h : Showing s n) (op : OutputOp) : Showing (output_op s op) n := by
  have hscroll : ∀ offset, Showing (update_cursor (refresh_screen { s with scroll_offset := offset })) n := fun _ =>
    Showing.cursor (Showing.refresh ⟨h.defer, h.apart, h.shows⟩)
  cases op with
  | clear_screen =>
    rw [output_op, clear_screen_eq]
    exact h.cleared.refresh.cursor
  | set_text_color attr => exact ⟨h.defer, h.apart, h.shows⟩
  | char c => exact h.print_char c
  | string str => exact (h.defer_print_chars str).follow
  | scroll_up =>
    change Showing (os_dev.screen.scroll_up s) n
    unfold os_dev.screen.scroll_up
    split
    · exact hscroll _
    · exact h
  | scroll_down =>
    change Showing (os_dev.screen.scroll_down s) n
    unfold os_dev.screen.scroll_down
    split
    · exact hscroll _
    · exact h

theorem Showing.run {n : ℕ} (h : Showing s n) (ops : List OutputOp) : Showing (ops.foldl output_op s) n := by
  induction ops generalizing s with
  | nil => exact h
  | cons op ops ih => exact ih (h.output op)

theorem Synced.output (h : Synced s) (op : OutputOp) : Synced (output_op s op) := by
  cases op with
  | clear_screen =>
    have hcleared := h.showing.cleared
    rw [output_op, clear_screen_eq]
    exact Synced.cursor (Showing.synced hcleared)
  | set_text_color attr => exact ⟨⟨h.showing.defer, h.showing.apart, h.showing.shows⟩, h.current⟩
  | char c => exact h.showing.print_char_synced c
  | string str => exact (h.showing.defer_print_chars str).follow_synced
  | scroll_up =>
    change Synced (os_dev.screen.scroll_up s)
    unfold os_dev.screen.scroll_up
    split
    · exact Synced.cursor (Showing.synced ⟨h.showing.defer, h.showing.apart, h.showing.shows⟩)
    · exact h
  | scroll_down =>
    change Synced (os_dev.screen.scroll_down s)
    unfold os_dev.screen.scroll_down
    split
    · exact Synced.cursor (Showing.synced ⟨h.showing.defer, h.showing.apart, h.showing.shows⟩)
    · exact h

theorem Synced.op (h : Synced s) {op : ScreenOp} (hop : op.Sound) : Synced (screen_op s op) := by
  cases op with
  | init_fb addr width height pitch bpp =>
    have hforced : (screen_op s (.init_fb addr width height pitch bpp)).fb_force_redraw = true := rfl
    exact ⟨⟨h.showing.defer, hop, fun hforce => absurd hforce (by rw [hforced]; decide)⟩,
      fun hforce => absurd hforce (by rw [hforced]; decide)⟩
  | output op => exact h.output op

theorem boot_synced : Synced boot := by
  refine ⟨⟨rfl, ?_, fun hforce => ?_⟩, fun hforce => ?_⟩
  · intro r c r' c' y x y' x' _ _ hdrawn
    have hwidth : ((c * 8 + 8 : ℕ) : ℤ) ≤ 0 := hdrawn.1
    omega
  · cases hforce
  · cases hforce

/-- In every run from boot whose framebuffer geometries keep the pixels apart, a redraw that
    skips the unchanged cells leaves the pixels that a forced redraw of the same history
    and scroll state leaves, and once something has been drawn these are in the framebuffer. -/
theorem incremental_redraw (ops : List ScreenOp) (hops : ∀ op ∈ ops, op.Sound) :
    let s := ops.foldl screen_op boot
    (refresh_screen s).pixels = (refresh_screen { s with fb_force_redraw := true }).pixels ∧
      (s.fb_force_redraw = false → s.pixels = (refresh_screen { s with fb_force_redraw := true }).pixels) := by
  have hrun : Synced (ops.foldl screen_op boot) := by
    induction ops using List.reverseRecOn with
    | nil => exact boot_synced
    | append_singleton ops op ih =>
      rw [List.foldl_append]
      exact (ih fun op' hop' => hops op' (List.mem_append_left _ hop')).op (hops op (by simp))
  exact hrun.incremental

/-- A screen of 640 by 480 pixels that prints, scrolls and is cleared. -/
theorem incremental_redraw_text :
    let s := [ScreenOp.init_fb 0xFD000000 640 480 2560 32, .output .clear_screen, .output (.string [0x41, 0x0A]),
      .output .scroll_up].foldl screen_op boot
    (refresh_screen s).pixels = (refresh_screen { s with fb_force_redraw := true }).pixels ∧
      (s.fb_force_redraw = false → s.pixels = (refresh_screen { s with fb_force_redraw := true }).pixels) := by
  refine incremental_redraw _ fun op hop => ?_
  simp only [List.mem_cons, List.not_mem_nil, or_false] at hop
  rcases hop with rfl | rfl | rfl | rfl
  · exact pixelsApart_of_no_wrap (by decide) (by decide)
  · trivial
  · trivial
  · trivial

theorem follow_unscrolled (hdefer : s.defer_refresh = 0) (hptr : s.fb_ptr ≠ 0) (hscroll : s.scroll_offset = 0) :
    follow s = refresh_screen s := by
  have hsame : { s with scroll_offset := 0 } = s := by rw [← hscroll]
  obtain ⟨pixels, last, force, vga, heq⟩ := refresh_screen_eq s
  have hcursor : update_cursor (refresh_screen s) = refresh_screen s := by
    unfold update_cursor
    rw [heq]
    exact if_pos hptr
  rw [follow, if_pos hdefer, hsame, hcursor]

/-- The stores of a forced redraw. -/
def forced_stores (s : Screen) : List (ℕ × UInt8) :=
  (refresh_targets s).flatMap fun st => cell_stores s st.1 st.2

theorem refresh_again_forced (s : Screen) (hptr : s.fb_ptr ≠ 0) : ∃ pixels,
    (refresh_screen { refresh_screen s with fb_force_redraw := true }).pixels = store_all pixels (forced_stores s) := by
  obtain ⟨pixels, last, force, vga, heq⟩ := refresh_screen_eq s
  refine ⟨pixels, ?_⟩
  rw [heq, refresh_screen, if_pos hptr, refresh_fb_mem]
  exact redraw_all_forced_mem _ _

/-- A character that goes to the framebuffer and nowhere else. -/
theorem print_char_unscrolled {c : UInt8} (hwraps : ¬ wraps s c) (hactive : s.agent_capture_active = false)
    (hdefer : s.defer_refresh = 0) (hptr : s.fb_ptr ≠ 0) (hscroll : s.scroll_offset = 0) :
    print_char s c = refresh_screen (place_char s c) := by
  have hrecord : record s c = s := by
    unfold record
    rw [hactive]
    exact if_neg fun h => absurd h.1 (by decide)
  obtain ⟨history, total, line, col, heq⟩ := place_char_eq s c
  rw [print_char, if_neg hwraps, print_placed, hrecord]
  rw [heq]
  exact follow_unscrolled hdefer hptr hscroll

/-- A framebuffer whose even pixel rows all begin at its start. -/
def overlapping_start : Screen := screen_init_fb boot 0xE0000000 8 16 0x80000000 32

def overlapping_run : List ScreenOp :=
  [.init_fb 0xE0000000 8 16 0x80000000 32, .output (.char backspace_char), .output (.char 0x41)]

/-- The letter in the history, the framebuffer as the first redraw left it. -/
def overlapping_text : Screen := place_char (refresh_screen overlapping_start) 0x41

theorem overlapping_run_eq : overlapping_run.foldl screen_op boot = refresh_screen overlapping_text := by
  have hblank : print_char overlapping_start backspace_char = refresh_screen overlapping_start :=
    print_char_unscrolled (by decide) rfl rfl (by decide) rfl
  obtain ⟨pixels, last, force, vga, heq⟩ := refresh_screen_eq overlapping_start
  have htext : print_char (refresh_screen overlapping_start) 0x41 = refresh_screen overlapping_text := by
    rw [overlapping_text, heq]
    exact print_char_unscrolled (fun h => h.2.2 (show 0 < 39 by decide)) rfl rfl (show 0xE0000000 ≠ 0 by decide) rfl
  change print_char (print_char overlapping_start backspace_char) 0x41 = _
  rw [hblank, htext]

/-- The letter is the only change of the second redraw, and the first cell of a forced one. -/
theorem overlapping_targets : ∃ cells, refresh_targets overlapping_text = ((0, 0), 0x0741) :: cells ∧
    ∀ cell ∈ cells, cell.1 ≠ (0, 0) ∧ target overlapping_start cell.1 = cell.2 ∧ cell.1.1 < 10 ∧ cell.1.2 < 40 := by
  refine ⟨(refresh_targets overlapping_text).tail, ?_, ?_⟩
  · decide +kernel
  · decide +kernel

theorem overlapping_last {r c : ℕ} (hr : r < 10) (hc : c < 40) :
    overlapping_text.fb_last_screen (r, c) = target overlapping_start (r, c) := refresh_fb_last overlapping_start hr hc

theorem overlapping_incremental : (refresh_screen overlapping_text).pixels 0 = 0xAA := by
  obtain ⟨cells, heq, hcells⟩ := overlapping_targets
  have htouches : Touches (cell_stores overlapping_text (0, 0) 0x0741) 0 := ⟨0xAA, by decide +kernel⟩
  have hzero : store_all (fun _ => 0) (cell_stores overlapping_text (0, 0) 0x0741) 0 = 0xAA := by decide +kernel
  have hblank : target overlapping_start (0, 0) ≠ 0x0741 := by decide +kernel
  have hforce : overlapping_text.fb_force_redraw = false := rfl
  have hmem : (refresh_screen overlapping_text).pixels = _ := refresh_fb_mem overlapping_text
  have hlast := @overlapping_last
  rw [hmem, heq, hforce]
  generalize overlapping_text.fb_last_screen = last at hlast ⊢
  rw [redraw_all_first fun cell hcell => ?_, redraw_mem_of_ne ?_, ← hzero]
  · exact store_all_of_touches htouches
  · rw [← hlast (by decide) (by decide)] at hblank
    exact hblank
  · obtain ⟨hne, htarget, hr, hc⟩ := hcells cell hcell
    exact ⟨hne, (hlast hr hc).trans htarget⟩

theorem overlapping_forced :
    (refresh_screen { refresh_screen overlapping_text with fb_force_redraw := true }).pixels 0 = 0 := by
  have hzero : store_all (fun _ => 0) (forced_stores overlapping_text) 0 = 0 := by decide +kernel
  have htouches : Touches (forced_stores overlapping_text) 0 := ⟨0, by decide +kernel⟩
  obtain ⟨pixels, hpixels⟩ := refresh_again_forced overlapping_text (show 0xE0000000 ≠ 0 by decide)
  rw [hpixels, ← hzero]
  exact store_all_of_touches htouches

/-- With overlapping pixel rows the skipped cells are missing from the memory that they
    share with a cell drawn later. -/
theorem redraw_overlapping :
    let s := overlapping_run.foldl screen_op boot
    s.fb_width.toNat * (s.fb_bpp.toNat / 8) ≤ s.fb_pitch.toNat ∧ s.fb_force_redraw = false ∧
      s.pixels 0 = 0xAA ∧ (refresh_screen { s with fb_force_redraw := true }).pixels 0 = 0 := by
  intro s
  have hrun : s = refresh_screen overlapping_text := overlapping_run_eq
  rw [hrun]
  exact ⟨by decide, rfl, overlapping_incremental, overlapping_forced⟩

end os_dev.screen
