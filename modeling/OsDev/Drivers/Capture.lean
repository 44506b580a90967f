import OsDev.Drivers.Screen

open os_dev.libc canvas

namespace os_dev.screen

variable {s : Screen} {c : UInt8} {cols col : ℕ}

@[simp] theorem record_grid (s : Screen) (c : UInt8) : (record s c).grid = s.grid := by
  unfold record
  split <;> rfl

@[simp] theorem record_col (s : Screen) (c : UInt8) : (record s c).current_col = s.current_col := by
  unfold record
  split <;> rfl

/-- The character has to wrap at column `col`. -/
def Breaks (cols col : ℕ) (c : UInt8) : Prop := c ≠ backspace_char ∧ c ≠ newline_char ∧ ¬ col < cols - 1

instance (cols col : ℕ) (c : UInt8) : Decidable (Breaks cols col c) := inferInstanceAs (Decidable (_ ∧ _))

/-- The column behind a character. -/
def next_col (cols col : ℕ) (c : UInt8) : ℕ :=
  if c = backspace_char then col - 1
  else if c = newline_char then 0
  else if col < cols - 1 then col + 1
  else 1

@[simp] theorem next_col_newline (cols col : ℕ) : next_col cols col newline_char = 0 := by
  simp [next_col, newline_char, backspace_char]

theorem next_col_zero (hcols : 40 ≤ cols) (hback : c ≠ backspace_char) (hnewline : c ≠ newline_char) :
    next_col cols 0 c = 1 := by
  simp [next_col, hback, hnewline, show 0 < cols - 1 by omega]

/-- What is recorded for a text that starts at column `col`. -/
def recorded (cols : ℕ) : ℕ → List UInt8 → List UInt8
  | _, [] => []
  | col, c :: cs =>
    (if Breaks cols col c then [c, newline_char, c] else [c]) ++ recorded cols (next_col cols col c) cs

/-- The capture buffer holds exactly these bytes, and the terminator behind them. -/
structure Captured (s : Screen) (text : List UInt8) : Prop where
  length : s.agent_capture_idx = text.length
  bytes : ∀ i b, text[i]? = some b → screen_get_capture s i = b
  terminator : screen_get_capture s text.length = 0

/-- The driver stands at column `col` and has recorded the first 2047 bytes of `text`. -/
structure Capturing (s : Screen) (cols col : ℕ) (text : List UInt8) : Prop where
  active : s.agent_capture_active = true
  cols_eq : s.SCREEN_COLS = cols
  col_eq : s.current_col = col
  captured : Captured s (text.take 2047)

theorem Captured.record (hactive : s.agent_capture_active = true) {text : List UInt8}
    (h : Captured s (text.take 2047)) (c : UInt8) : Captured (record s c) ((text ++ [c]).take 2047) := by
  have hlength := h.length
  rw [List.length_take] at hlength
  unfold os_dev.screen.record
  by_cases hroom : s.agent_capture_idx < 2047
  · -- there is room for one more byte
    have hshort : text.length < 2047 := by omega
    rw [List.take_of_length_le (by omega)] at h
    rw [if_pos ⟨hactive, hroom⟩, List.take_of_length_le (by rw [List.length_append, List.length_singleton]; omega)]
    have hidx := h.length
    refine ⟨by simp [hidx], fun i b hb => ?_, ?_⟩
    · simp only [screen_get_capture]
      rcases Nat.lt_trichotomy i text.length with hlt | heq | hgt
      · rw [List.getElem?_append_left hlt] at hb
        rw [Function.update_of_ne (by omega), Function.update_of_ne (by omega)]
        exact h.bytes i b hb
      · rw [heq, List.getElem?_concat_length] at hb
        rw [Function.update_of_ne (by omega), show i = s.agent_capture_idx by omega, Function.update_self]
        exact Option.some.inj hb
      · rw [List.getElem?_eq_none (by rw [List.length_append, List.length_singleton]; omega)] at hb
        cases hb
    · simp [screen_get_capture, hidx]
  · rw [if_neg fun hcond => hroom hcond.2]
    have hfull : 2047 ≤ text.length := by omega
    rwa [List.take_append_of_le_length hfull]

/-- Only the bytes recorded, the grid and the column matter for what is captured next. -/
theorem Capturing.of_eq {s' : Screen} {text : List UInt8} (h : Capturing s cols col text)
    (hbuf : s'.agent_capture_buf = s.agent_capture_buf) (hidx : s'.agent_capture_idx = s.agent_capture_idx)
    (hactive : s'.agent_capture_active = s.agent_capture_active) (hgrid : s'.grid = s.grid) {col' : ℕ}
    (hcol : s'.current_col = col') : Capturing s' cols col' text := by
  obtain ⟨h1, h2, -, h4, h5, h6⟩ := h
  refine ⟨hactive.trans h1, ?_, hcol, hidx.trans h4, fun i b hb => ?_, ?_⟩
  · unfold Screen.SCREEN_COLS at h2 ⊢
    rw [hgrid, h2]
  · unfold screen_get_capture at h5 ⊢
    rw [hbuf]
    exact h5 i b hb
  · unfold screen_get_capture at h6 ⊢
    rw [hbuf]
    exact h6

theorem Capturing.record {text : List UInt8} (h : Capturing s cols col text) (c : UInt8) :
    Capturing (record s c) cols col (text ++ [c]) := by
  have hactive : (os_dev.screen.record s c).agent_capture_active = s.agent_capture_active := by
    unfold os_dev.screen.record
    split <;> rfl
  exact ⟨hactive.trans h.active, (congrArg Grid.cols (record_grid s c)).trans h.cols_eq,
    (record_col s c).trans h.col_eq, h.captured.record h.active c⟩

theorem Capturing.place {text : List UInt8} (h : Capturing s cols col text) (hfits : ¬ Breaks cols col c) :
    Capturing (place_char s c) cols (next_col cols col c) text := by
  obtain rfl := h.col_eq
  unfold place_char next_col
  split
  case isTrue =>
    split
    case isTrue => refine h.of_eq ?_ ?_ ?_ ?_ ?_ <;> rfl
    case isFalse hzero => exact h.of_eq rfl rfl rfl rfl (by omega)
  case isFalse hback =>
    split
    case isTrue => refine h.of_eq ?_ ?_ ?_ ?_ ?_ <;> rfl
    case isFalse hnewline =>
      have hroom : s.current_col < cols - 1 := by
        by_contra hfull
        exact hfits ⟨hback, hnewline, hfull⟩
      rw [if_pos hroom]
      refine h.of_eq ?_ ?_ ?_ ?_ ?_ <;> rfl

theorem Capturing.follow {text : List UInt8} (h : Capturing s cols col text) : Capturing (follow s) cols col text := by
  obtain ⟨_, _, _, _, _, _, heq⟩ := follow_eq s
  rw [heq]
  refine h.of_eq ?_ ?_ ?_ ?_ h.col_eq <;> rfl

theorem Capturing.placed {text : List UInt8} (h : Capturing s cols col text) (hfits : ¬ Breaks cols col c) :
    Capturing (print_placed s c) cols (next_col cols col c) (text ++ [c]) :=
  ((h.record c).place hfits).follow

theorem Capturing.wraps_iff {text : List UInt8} (h : Capturing s cols col text) : wraps s c ↔ Breaks cols col c := by
  unfold wraps Breaks
  rw [h.cols_eq, h.col_eq]

/-- One character, with what its wrapping adds. -/
theorem Capturing.print_char {text : List UInt8} (h : Capturing s cols col text) (c : UInt8) :
    Capturing (print_char s c) cols (next_col cols col c)
      (text ++ if Breaks cols col c then [c, newline_char, c] else [c]) := by
  have hcols : 40 ≤ cols := h.cols_eq ▸ s.grid.cols_min
  unfold os_dev.screen.print_char
  by_cases hbreaks : Breaks cols col c
  · have hnewline : ¬ Breaks cols col newline_char := fun hb => hb.2.1 rfl
    have hstart : ¬ Breaks cols 0 c := fun hb => hb.2.2 (by omega)
    have hthree := ((h.record c).placed hnewline).placed (next_col_newline cols col ▸ hstart)
    rw [if_pos (h.wraps_iff.mpr hbreaks), if_pos hbreaks]
    obtain ⟨hback, hnl, hfull⟩ := hbreaks
    have hone : next_col cols col c = 1 := by simp [next_col, hback, hnl, hfull]
    rw [next_col_newline, next_col_zero hcols hback hnl, ← hone] at hthree
    simpa using hthree
  · rw [if_neg (mt h.wraps_iff.mp hbreaks), if_neg hbreaks]
    exact h.placed hbreaks

/-- The recursion of `print_char`. -/
theorem print_char_wrap (h : wraps s c) : print_char s c = print_char (print_char (record s c) newline_char) c := by
  have hgrid : (print_placed (record s c) newline_char).current_col = 0 ∧
      (print_placed (record s c) newline_char).SCREEN_COLS = s.SCREEN_COLS := by
    obtain ⟨_, _, _, _, _, _, heq⟩ := follow_eq (place_char (record (record s c) newline_char) newline_char)
    unfold print_placed
    rw [heq]
    exact ⟨rfl, congrArg Grid.cols ((record_grid _ _).trans (record_grid _ _))⟩
  have hnewline : print_char (record s c) newline_char = print_placed (record s c) newline_char :=
    if_neg fun hwraps => hwraps.2.1 rfl
  have hcols : 40 ≤ s.SCREEN_COLS := s.grid.cols_min
  have hfits : ¬ wraps (print_placed (record s c) newline_char) c := fun hwraps => hwraps.2.2 (by
    rw [hgrid.1, hgrid.2]
    omega)
  rw [hnewline, print_char, if_pos h, print_char, if_neg hfits]

/-- What the code between the start and the end of a capture calls. -/
inductive PrintOp
  | char (c : UInt8)
  | string (str : CStr)

def PrintOp.text : PrintOp → List UInt8
  | .char c => [c]
  | .string str => str

def print_op (s : Screen) : PrintOp → Screen
  | .char c => print_char s c
  | .string str => print_string s str

/-- The column behind a text. -/
def end_col (cols col : ℕ) (text : List UInt8) : ℕ := text.foldl (next_col cols) col

theorem recorded_append (cols col : ℕ) (text rest : List UInt8) :
    recorded cols col (text ++ rest) = recorded cols col text ++ recorded cols (end_col cols col text) rest := by
  induction text generalizing col with
  | nil => rfl
  | cons c cs ih =>
    simp only [List.cons_append, recorded, ih, List.append_assoc]
    rfl

theorem Capturing.chars {text : List UInt8} (h : Capturing s cols col text) (cs : List UInt8) :
    Capturing (cs.foldl os_dev.screen.print_char s) cols (end_col cols col cs) (text ++ recorded cols col cs) := by
  induction cs generalizing s col text with
  | nil => simpa [recorded, end_col] using h
  | cons c cs ih =>
    have hrest := ih (h.print_char c)
    rw [List.append_assoc] at hrest
    exact hrest

theorem Capturing.op {text : List UInt8} (h : Capturing s cols col text) (op : PrintOp) :
    Capturing (print_op s op) cols (end_col cols col op.text) (text ++ recorded cols col op.text) := by
  cases op with
  | char c => exact h.chars [c]
  | string str =>
    have hdefer : Capturing { s with defer_refresh := s.defer_refresh + 1 } cols col text := by
      refine h.of_eq ?_ ?_ ?_ ?_ h.col_eq <;> rfl
    refine Capturing.follow ?_
    refine (hdefer.chars str).of_eq ?_ ?_ ?_ ?_ (hdefer.chars str).col_eq <;> rfl

theorem Capturing.ops {text : List UInt8} (h : Capturing s cols col text) (ops : List PrintOp) :
    Capturing (ops.foldl print_op s) cols (end_col cols col (ops.flatMap PrintOp.text))
      (text ++ recorded cols col (ops.flatMap PrintOp.text)) := by
  induction ops generalizing s col text with
  | nil => simpa [recorded, end_col] using h
  | cons op ops ih =>
    have hrest := ih (h.op op)
    simp only [List.flatMap_cons, recorded_append, ← List.append_assoc]
    simpa [end_col] using hrest

/-- The character at position `p` of the text has to wrap. -/
def BreaksAt (cols col : ℕ) (text : List UInt8) (p : ℕ) : Prop :=
  ∃ c, text[p]? = some c ∧ Breaks cols (end_col cols col (text.take p)) c

/-- Behind position `p`, as far as position `n`, the text alternates between a line feed
    and the character at `p`. -/
def RepeatsAfter (text : List UInt8) (p n : ℕ) : Prop :=
  ∀ q, p < q → q < n → text[q]? = if (q - p) % 2 = 1 then some newline_char else text[p]?

/-- No character in front of the last of the first `n` positions has to wrap, or the
    text behind the first one that has to happens to be what the wrapping records. -/
def PassesUnchanged (cols col : ℕ) (text : List UInt8) (n : ℕ) : Prop :=
  ∀ p, p + 1 < n → BreaksAt cols col text p → (∀ p' < p, ¬ BreaksAt cols col text p') → RepeatsAfter text p n

theorem recorded_alternating (hcols : 40 ≤ cols) (hc : c ≠ backspace_char ∧ c ≠ newline_char) (n : ℕ)
    (rest : List UInt8) : (newline_char :: c :: recorded cols 1 rest).take n = rest.take n ↔
      ∀ q < n, rest[q]? = if q % 2 = 0 then some newline_char else some c := by
  induction n using Nat.strongRecOn generalizing rest with
  | _ n ih =>
    match n, rest with
    | 0, rest => simp
    | 1, [] => simp
    | 1, a :: rest => simp [eq_comm]
    | n + 2, [] =>
      refine ⟨fun h => ?_, fun h => ?_⟩
      · simp at h
      · have hfirst := h 0 (by omega)
        simp at hfirst
    | n + 2, [a] =>
      refine ⟨fun h => ?_, fun h => ?_⟩
      · simp at h
      · have hsecond := h 1 (by omega)
        simp at hsecond
    | n + 2, a :: b :: rest =>
      by_cases hab : a = newline_char ∧ b = c
      · obtain ⟨rfl, rfl⟩ := hab
        -- two more characters of the text, neither of which wraps
        have hone : recorded cols 1 (newline_char :: b :: rest) = newline_char :: b :: recorded cols 1 rest := by
          rw [recorded, if_neg fun hb => hb.2.1 rfl, next_col_newline, recorded, if_neg fun hb => hb.2.2 (by omega),
            next_col_zero hcols hc.1 hc.2]
          rfl
        rw [hone]
        simp only [List.take_succ_cons, List.cons.injEq, true_and]
        rw [ih n (by omega) rest]
        constructor
        · intro h q hq
          match q with
          | 0 => simp
          | 1 => simp
          | q + 2 => simpa using h q (by omega)
        · intro h q hq
          simpa using h (q + 2) (by omega)
      · refine ⟨fun h => ?_, fun h => ?_⟩
        · simp only [List.take_succ_cons, List.cons.injEq] at h
          exact absurd ⟨h.1.symm, h.2.1.symm⟩ hab
        · have hfirst := h 0 (by omega)
          have hsecond := h 1 (by omega)
          simp only [List.getElem?_cons_zero, List.getElem?_cons_succ, Nat.zero_mod, if_true, Option.some.injEq,
            Nat.one_mod, Nat.one_ne_zero, if_false] at hfirst hsecond
          exact absurd ⟨hfirst, hsecond⟩ hab

theorem breaksAt_zero {text : List UInt8} : BreaksAt cols col (c :: text) 0 ↔ Breaks cols col c := by
  simp [BreaksAt, end_col]

theorem breaksAt_succ {text : List UInt8} {p : ℕ} :
    BreaksAt cols col (c :: text) (p + 1) ↔ BreaksAt cols (next_col cols col c) text p := by
  simp [BreaksAt, end_col]

theorem repeatsAfter_succ {text : List UInt8} {p n : ℕ} : RepeatsAfter (c :: text) (p + 1) (n + 1) ↔ RepeatsAfter text p n := by
  constructor
  · intro h q hpq hq
    have hrest := h (q + 1) (by omega) (by omega)
    simpa using hrest
  · intro h q hpq hq
    obtain ⟨q, rfl⟩ := Nat.exists_eq_add_of_le' (show 1 ≤ q by omega)
    simpa using h q (by omega) (by omega)

/-- The first `n` recorded bytes are the first `n` bytes of the text if and only if the
    text passes unchanged. -/
theorem recorded_take_iff (hcols : 40 ≤ cols) (n : ℕ) (text : List UInt8) :
    (recorded cols col text).take n = text.take n ↔ PassesUnchanged cols col text n := by
  induction text generalizing col n with
  | nil => simp [recorded, PassesUnchanged, BreaksAt]
  | cons c cs ih =>
    cases n with
    | zero => simp [PassesUnchanged]
    | succ n =>
      by_cases hbreaks : Breaks cols col c
      · -- the first character wraps: what follows has to be the line feed and the character again
        have hone : next_col cols col c = 1 := by
          obtain ⟨hback, hnewline, hfull⟩ := hbreaks
          simp [next_col, hback, hnewline, hfull]
        rw [recorded, if_pos hbreaks, hone]
        simp only [List.cons_append, List.nil_append, List.take_succ_cons, List.cons.injEq, true_and]
        rw [recorded_alternating hcols ⟨hbreaks.1, hbreaks.2.1⟩]
        constructor
        · intro h p hp hat hfirst
          cases p with
          | zero =>
            intro q hq hqn
            obtain ⟨q, rfl⟩ := Nat.exists_eq_add_of_le' (show 1 ≤ q by omega)
            have hbyte := h q (by omega)
            rcases Nat.mod_two_eq_zero_or_one q with heven | hodd
            · simpa [heven, Nat.add_mod] using hbyte
            · simpa [hodd, Nat.add_mod] using hbyte
          | succ p => exact absurd (breaksAt_zero.mpr hbreaks) (hfirst 0 (by omega))
        · intro h q hq
          have hbyte := h 0 (by omega) (breaksAt_zero.mpr hbreaks) (by omega) (q + 1) (by omega) (by omega)
          rcases Nat.mod_two_eq_zero_or_one q with heven | hodd
          · simpa [heven, Nat.add_mod] using hbyte
          · simpa [hodd, Nat.add_mod] using hbyte
      · rw [recorded, if_neg hbreaks]
        simp only [List.singleton_append, List.take_succ_cons, List.cons.injEq, true_and]
        rw [ih n]
        constructor
        · intro h p hp hat hfirst
          cases p with
          | zero => exact absurd (breaksAt_zero.mp hat) hbreaks
          | succ p =>
            refine repeatsAfter_succ.mpr (h p (by omega) (breaksAt_succ.mp hat) fun p' hp' hat' => ?_)
            exact hfirst (p' + 1) (by omega) (breaksAt_succ.mpr hat')
        · intro h p hp hat hfirst
          refine repeatsAfter_succ.mp (h (p + 1) (by omega) (breaksAt_succ.mpr hat) fun p' hp' hat' => ?_)
          cases p' with
          | zero => exact hbreaks (breaksAt_zero.mp hat')
          | succ p' => exact hfirst p' (by omega) (breaksAt_succ.mp hat')

theorem Captured.unique {text text' : List UInt8} (h : Captured s text) (h' : Captured s text') : text = text' := by
  have hlength : text.length = text'.length := h.length.symm.trans h'.length
  refine List.ext_getElem hlength fun i hi hi' => ?_
  have hbyte := h.bytes i _ (List.getElem?_eq_getElem hi)
  exact hbyte.symm.trans (h'.bytes i _ (List.getElem?_eq_getElem hi'))

/-- What a capture holds in the end. -/
theorem capture_recorded (s : Screen) (ops : List PrintOp) :
    Captured (screen_stop_capture (ops.foldl print_op (screen_start_capture s)))
      ((recorded s.SCREEN_COLS s.current_col (ops.flatMap PrintOp.text)).take 2047) := by
  have hstart : Capturing (screen_start_capture s) s.SCREEN_COLS s.current_col [] :=
    ⟨rfl, rfl, rfl, rfl, by simp, by simp [screen_get_capture, screen_start_capture]⟩
  have hops := (hstart.ops ops).captured
  rw [List.nil_append] at hops
  exact ⟨hops.length, hops.bytes, hops.terminator⟩

/-- A capture returns exactly the first 2047 bytes that were printed if and only if
    none of them but the last stands where the line has to wrap, or the rest happens to
    read like the wrapping. -/
theorem capture_exact_iff (s : Screen) (ops : List PrintOp) :
    Captured (screen_stop_capture (ops.foldl print_op (screen_start_capture s)))
        ((ops.flatMap PrintOp.text).take 2047) ↔
      PassesUnchanged s.SCREEN_COLS s.current_col (ops.flatMap PrintOp.text) 2047 := by
  have hcols : 40 ≤ s.SCREEN_COLS := s.grid.cols_min
  rw [← recorded_take_iff hcols]
  exact ⟨fun h => (capture_recorded s ops).unique h, fun h => h ▸ capture_recorded s ops⟩

/-- A line of 80 characters on a screen of 80 columns is captured as 82 bytes. -/
theorem capture_inserts_wrapping :
    ¬ Captured (screen_stop_capture ([.string (List.replicate 80 0x41)].foldl print_op (screen_start_capture boot)))
      (([PrintOp.string (List.replicate 80 0x41)].flatMap PrintOp.text).take 2047) := by
  intro h
  have heq := (capture_recorded boot [.string (List.replicate 80 0x41)]).unique h
  exact absurd (congrArg List.length heq) (by decide +kernel)

end os_dev.screen
