import OsDev.Drivers.Keyboard
import OsDev.Drivers.Screen
import Mathlib.Data.List.GetD

open os_dev.libc

namespace os_dev.keyboard

/-- The first entries of the tables. The others, up to 128, are 0. -/
def kbd_us : List UInt8 :=
  [0, 27] ++ ascii "1234567890-=" ++ [8, 9] ++ ascii "qwertyuiop[]" ++ [10, 0] ++ ascii "asdfghjkl;'`" ++ [0] ++
    ascii "\\zxcvbnm,./" ++ [0, 42, 0, 32]

def kbd_us_shift : List UInt8 :=
  [0, 27] ++ ascii "!@#$%^&*()_+" ++ [8, 9] ++ ascii "QWERTYUIOP\x7b\x7d" ++ [10, 0] ++ ascii "ASDFGHJKL:\"~" ++ [0] ++
    ascii "|ZXCVBNM<>?" ++ [0, 42, 0, 32]

/-- What the interrupt works on: the modifier keys, the ring and the screen. -/
structure Driver where
  shift_pressed : Bool
  ctrl_pressed : Bool
  caps_lock : Bool
  kbd : Keyboard
  screen : screen.Screen

/-- The character of a key that is pressed. -/
def key_char (shift_pressed caps_lock : Bool) (scancode : UInt8) : UInt8 :=
  let c := (if shift_pressed then kbd_us_shift else kbd_us).getD scancode.toNat 0
  if caps_lock ∧ 97 ≤ c ∧ c ≤ 122 then c - 32 else c

def Driver.keyboard_handler (st : Driver) (scancode : UInt8) : Driver :=
  if scancode &&& 0x80 ≠ 0 then
    let released := scancode &&& 0x7F
    let st := if released = 0x2A ∨ released = 0x36 then { st with shift_pressed := false } else st
    if released = 0x1D then { st with ctrl_pressed := false } else st
  else if scancode = 0x2A ∨ scancode = 0x36 then { st with shift_pressed := true }
  else if scancode = 0x1D then { st with ctrl_pressed := true }
  else if scancode = 0x3A then { st with caps_lock := !st.caps_lock }
  else if scancode = 0x49 then { st with screen := screen.scroll_up st.screen }
  else if scancode = 0x51 then { st with screen := screen.scroll_down st.screen }
  else if st.ctrl_pressed ∧ scancode = 0x2E then { st with kbd := st.kbd.kbd_put 0x03 }
  else
    let c := key_char st.shift_pressed st.caps_lock scancode
    -- `char` is signed
    if 0 < c ∧ c < 0x80 then { st with kbd := st.kbd.kbd_put c } else st

def Driver.boot : Driver where
  shift_pressed := false
  ctrl_pressed := false
  caps_lock := false
  kbd := keyboard.boot
  screen := screen.boot

/-- An interrupt with a byte of the keyboard, a statement of `kbd_get`, or whatever else is done to the screen. -/
inductive Action
  | interrupt (scancode : UInt8)
  | shell
  | draw (f : screen.Screen → screen.Screen)

def Driver.step (st : Driver) : Action → Driver
  | .interrupt scancode => st.keyboard_handler scancode
  | .shell => { st with kbd := st.kbd.kbd_get }
  | .draw f => { st with screen := f st.screen }

def drive (as : List Action) : Driver := as.foldl Driver.step Driver.boot

/-- The bytes that have come from the keyboard. -/
def codes (as : List Action) : List UInt8 := as.filterMap fun a => match a with
  | .interrupt scancode => some scancode
  | _ => none

/-- The last of the codes of some keys is that of a key going down. -/
def held (down up codes : List UInt8) : Bool :=
  match codes.reverse.find? fun c => down.contains c || up.contains c with
  | some c => down.contains c
  | none => false

def shift_held (codes : List UInt8) : Bool := held [0x2A, 0x36] [0xAA, 0xB6] codes

def ctrl_held (codes : List UInt8) : Bool := held [0x1D] [0x9D] codes

def caps_on (codes : List UInt8) : Bool := codes.count 0x3A % 2 = 1

/-- The keys that never type anything: the modifiers and those that scroll. -/
def quiet_keys : List UInt8 := [0x2A, 0x36, 0x1D, 0x3A, 0x49, 0x51]

/-- What a key types. -/
def key_types (shift ctrl caps : Bool) (scancode : UInt8) : Option UInt8 :=
  if 0x80 ≤ scancode ∨ quiet_keys.contains scancode then none
  else if ctrl ∧ scancode = 0x2E then some 0x03
  else if key_char shift caps scancode = 0 then none else some (key_char shift caps scancode)

/-- What a code types after others. -/
def types (codes : List UInt8) (scancode : UInt8) : Option UInt8 :=
  key_types (shift_held codes) (ctrl_held codes) (caps_on codes) scancode

/-- The text that is typed by codes one after the other. -/
def typed (codes : List UInt8) : List UInt8 :=
  (List.range codes.length).flatMap fun i => (types (codes.take i) (codes.getD i 0)).toList

def Action.text (codes : List UInt8) : Action → List UInt8
  | .interrupt scancode => (types codes scancode).toList
  | .shell => []
  | .draw _ => []

/-- What happens to the screen. -/
def Action.drawn (s : screen.Screen) : Action → screen.Screen
  | .interrupt scancode =>
    if scancode = 0x49 then screen.scroll_up s else if scancode = 0x51 then screen.scroll_down s else s
  | .shell => s
  | .draw f => f s

variable {st : Driver} {as : List Action} {down up : List UInt8} {scancode : UInt8}

theorem held_concat (down up codes : List UInt8) (scancode : UInt8) : held down up (codes ++ [scancode]) =
    if down.contains scancode || up.contains scancode then down.contains scancode else held down up codes := by
  rw [held, List.reverse_concat, List.find?_cons]
  cases h : down.contains scancode || up.contains scancode
  · rfl
  · rfl

theorem caps_on_concat (codes : List UInt8) (scancode : UInt8) :
    caps_on (codes ++ [scancode]) = if scancode = 0x3A then !caps_on codes else caps_on codes := by
  rw [caps_on, caps_on, List.count_append, List.count_singleton]
  by_cases h : scancode = 0x3A
  · have hparity : (codes.count 0x3A + 1) % 2 = 1 ↔ ¬ codes.count 0x3A % 2 = 1 := by omega
    rw [if_pos h, h, if_pos (beq_self_eq_true _), decide_eq_decide.mpr hparity, decide_not]
  · simp [h]

theorem typed_concat (codes : List UInt8) (scancode : UInt8) :
    typed (codes ++ [scancode]) = typed codes ++ (types codes scancode).toList := by
  rw [typed, List.length_append, List.length_singleton, List.range_succ, List.flatMap_append]
  congr 1
  · refine List.flatMap_congr fun i hi => ?_
    have hi := List.mem_range.mp hi
    rw [List.take_append_of_le_length hi.le, List.getD_append _ _ _ _ hi]
  · simp

/-- The codes of keys that are released. -/
theorem released_eq (code : Fin 256) (hup : UInt8.ofNat code &&& 0x80 ≠ 0) : 0x80 ≤ UInt8.ofNat code ∧
    (UInt8.ofNat code &&& 0x7F = 0x2A ↔ UInt8.ofNat code = 0xAA) ∧
    (UInt8.ofNat code &&& 0x7F = 0x36 ↔ UInt8.ofNat code = 0xB6) ∧
    (UInt8.ofNat code &&& 0x7F = 0x1D ↔ UInt8.ofNat code = 0x9D) := by
  revert code
  decide +kernel

theorem pressed_lt (code : Fin 256) (hdown : UInt8.ofNat code &&& 0x80 = 0) : UInt8.ofNat code < 0x80 := by
  revert code
  decide +kernel

/-- Every character of the keys is in the lower half. -/
theorem key_char_lt (code : Fin 256) (shift caps : Bool) : key_char shift caps (UInt8.ofNat code) < 0x80 := by
  revert code shift caps
  decide +kernel

/-- What an interrupt does. -/
theorem keyboard_handler_eq (st : Driver) (scancode : UInt8) : st.keyboard_handler scancode =
    { shift_pressed := if scancode = 0x2A ∨ scancode = 0x36 then true else
        if scancode = 0xAA ∨ scancode = 0xB6 then false else st.shift_pressed
      ctrl_pressed := if scancode = 0x1D then true else if scancode = 0x9D then false else st.ctrl_pressed
      caps_lock := if scancode = 0x3A then !st.caps_lock else st.caps_lock
      kbd := match key_types st.shift_pressed st.ctrl_pressed st.caps_lock scancode with
        | some c => st.kbd.kbd_put c
        | none => st.kbd
      screen := (Action.interrupt scancode).drawn st.screen } := by
  obtain ⟨code, rfl⟩ : ∃ code : Fin 256, scancode = UInt8.ofNat code :=
    ⟨⟨scancode.toNat, scancode.toNat_lt⟩, UInt8.ofNat_toNat.symm⟩
  by_cases hup : UInt8.ofNat code &&& 0x80 ≠ 0
  · obtain ⟨hhigh, hleft, hright, hctrl⟩ := released_eq code hup
    have hne : ∀ k : UInt8, k < 0x80 → UInt8.ofNat code ≠ k := fun k hk heq => by
      rw [heq] at hhigh
      exact absurd hk (UInt8.not_lt.mpr hhigh)
    rw [Driver.keyboard_handler, if_pos hup]
    simp only [hleft, hright, hctrl, key_types, hhigh, true_or, if_true, Action.drawn, hne 0x2A (by decide),
      hne 0x36 (by decide), hne 0x1D (by decide), hne 0x3A (by decide), hne 0x49 (by decide), hne 0x51 (by decide),
      or_self, if_false]
    split_ifs <;> rfl
  · have hlow := pressed_lt code (not_not.mp hup)
    have hlt := key_char_lt code st.shift_pressed st.caps_lock
    have hne : ∀ k : UInt8, 0x80 ≤ k → UInt8.ofNat code ≠ k := fun k hk heq => by
      rw [heq] at hlow
      exact absurd hlow (UInt8.not_lt.mpr hk)
    rw [Driver.keyboard_handler, if_neg hup]
    simp only [hne 0xAA (by decide), hne 0xB6 (by decide), hne 0x9D (by decide), or_self, if_false, key_types,
      UInt8.not_le.mpr hlow, false_or, Action.drawn, hlt, and_true]
    generalize UInt8.ofNat code = scancode
    by_cases hquiet : quiet_keys.contains scancode
    · simp only [hquiet, if_true]
      simp only [quiet_keys, List.contains_iff_mem, List.mem_cons, List.not_mem_nil, or_false] at hquiet
      obtain rfl | rfl | rfl | rfl | rfl | rfl := hquiet <;> rfl
    · have hother : ∀ k ∈ quiet_keys, scancode ≠ k := fun k hk heq => hquiet (List.contains_iff_mem.mpr (heq ▸ hk))
      simp only [hquiet, hother 0x2A (by decide), hother 0x36 (by decide), hother 0x1D (by decide),
        hother 0x3A (by decide), hother 0x49 (by decide), hother 0x51 (by decide), or_self, if_false,
        Bool.false_eq_true, UInt8.pos_iff_ne_zero, ne_eq, ite_not]
      split_ifs <;> rfl

/-- What the keyboard's ring sees of a run. -/
def ring_event (codes : List UInt8) : Action → List Event
  | .interrupt scancode => (types codes scancode).toList.map .irq
  | .shell => [.shell]
  | .draw _ => []

def ring_events (as : List Action) : List Event :=
  (List.range as.length).flatMap fun i => ring_event (codes (as.take i)) (as.getD i .shell)

theorem ring_events_concat (as : List Action) (a : Action) :
    ring_events (as ++ [a]) = ring_events as ++ ring_event (codes as) a := by
  rw [ring_events, List.length_append, List.length_singleton, List.range_succ, List.flatMap_append]
  congr 1
  · refine List.flatMap_congr fun i hi => ?_
    have hi := List.mem_range.mp hi
    rw [List.take_append_of_le_length hi.le, List.getD_append _ _ _ _ hi]
  · simp

theorem codes_concat (as : List Action) (a : Action) : codes (as ++ [a]) = codes as ++ codes [a] := List.filterMap_append

/-- The driver after a run: the modifiers follow the codes, and the ring and the screen what has been done to them. -/
structure Driver.Follows (as : List Action) (st : Driver) : Prop where
  shift : st.shift_pressed = shift_held (codes as)
  ctrl : st.ctrl_pressed = ctrl_held (codes as)
  caps : st.caps_lock = caps_on (codes as)
  kbd : st.kbd = run (ring_events as)
  screen : st.screen = as.foldl (fun s a => a.drawn s) screen.boot

theorem Driver.Follows.interrupt (h : st.Follows as) (scancode : UInt8) :
    (st.keyboard_handler scancode).Follows (as ++ [.interrupt scancode]) := by
  rw [keyboard_handler_eq]
  refine ⟨?_, ?_, ?_, ?_, ?_⟩
  · rw [codes_concat, h.shift]
    simp only [codes, List.filterMap_cons, List.filterMap_nil, shift_held, held_concat]
    split_ifs <;> simp_all
  · rw [codes_concat, h.ctrl]
    simp only [codes, List.filterMap_cons, List.filterMap_nil, ctrl_held, held_concat]
    split_ifs <;> simp_all
  · rw [codes_concat, h.caps]
    exact (caps_on_concat (codes as) scancode).symm
  · rw [ring_events_concat, ring_event, types, h.shift, h.ctrl, h.caps, h.kbd]
    cases key_types (shift_held (codes as)) (ctrl_held (codes as)) (caps_on (codes as)) scancode with
    | none => rw [Option.toList_none, List.map_nil, List.append_nil]
    | some c => rw [Option.toList_some, List.map_singleton, run_concat, Keyboard.step]
  · rw [List.foldl_concat, ← h.screen]

theorem drive_follows (as : List Action) : (drive as).Follows as := by
  induction as using List.reverseRecOn with
  | nil => exact ⟨rfl, rfl, rfl, rfl, rfl⟩
  | append_singleton as a ih =>
    have hstep : drive (as ++ [a]) = (drive as).step a := List.foldl_concat ..
    rw [hstep]
    cases a with
    | interrupt scancode => exact ih.interrupt scancode
    | shell =>
      have hsame : codes (as ++ [.shell]) = codes as := (codes_concat as .shell).trans (List.append_nil _)
      refine ⟨hsame ▸ ih.shift, hsame ▸ ih.ctrl, hsame ▸ ih.caps, ?_, ?_⟩
      · rw [ring_events_concat, ring_event, run_concat, ← ih.kbd]
        rfl
      · rw [List.foldl_concat, ← ih.screen]
        rfl
    | draw f =>
      have hsame : codes (as ++ [.draw f]) = codes as := (codes_concat as (.draw f)).trans (List.append_nil _)
      refine ⟨hsame ▸ ih.shift, hsame ▸ ih.ctrl, hsame ▸ ih.caps, ?_, ?_⟩
      · rw [ring_events_concat, ring_event, List.append_nil, ← ih.kbd]
        rfl
      · rw [List.foldl_concat, ← ih.screen]
        rfl

/-- Only characters of seven bits are typed, and never 0. -/
theorem types_char {codes : List UInt8} {c : UInt8} (h : types codes scancode = some c) : c ≠ 0 ∧ c < 0x80 := by
  rw [types, key_types] at h
  split_ifs at h with hquiet hctrl hzero
  · cases h
    decide
  · cases h
    have hlt := key_char_lt ⟨scancode.toNat, scancode.toNat_lt⟩ (shift_held codes) (caps_on codes)
    rw [UInt8.ofNat_toNat] at hlt
    exact ⟨hzero, hlt⟩

theorem typed_char {codes : List UInt8} {c : UInt8} (h : c ∈ typed codes) : c ≠ 0 ∧ c < 0x80 := by
  obtain ⟨i, -, hi⟩ := List.mem_flatMap.mp h
  exact types_char (Option.mem_toList.mp hi)

theorem ring_events_chars (as : List Action) : Characters (ring_events as) := by
  intro c hc
  obtain ⟨i, -, hi⟩ := List.mem_flatMap.mp hc
  cases ha : as.getD i .shell with
  | interrupt scancode =>
    rw [ha, ring_event] at hi
    obtain ⟨x, hx, heq⟩ := List.mem_map.mp hi
    cases heq
    exact (types_char (Option.mem_toList.mp hx)).1
  | shell =>
    rw [ha] at hi
    cases List.mem_singleton.mp hi
  | draw f =>
    rw [ha] at hi
    cases hi

theorem typed_action (as : List Action) (a : Action) :
    typed (codes (as ++ [a])) = typed (codes as) ++ a.text (codes as) := by
  rw [codes_concat]
  cases a with
  | interrupt scancode => exact typed_concat (codes as) scancode
  | shell => exact (congrArg typed (List.append_nil _)).trans (List.append_nil _).symm
  | draw f => exact (congrArg typed (List.append_nil _)).trans (List.append_nil _).symm

/-- What is typed is accepted, unless the ring is full. -/
theorem accepted_action (as : List Action) (a : Action) : (drive (as ++ [a])).kbd.accepted =
    (drive as).kbd.accepted ++ if (drive as).kbd.pending.length = 255 then [] else a.text (codes as) := by
  rw [(drive_follows (as ++ [a])).kbd, ring_events_concat, (drive_follows as).kbd]
  cases a with
  | interrupt scancode =>
    rw [ring_event, Action.text]
    cases types (codes as) scancode with
    | none => rw [Option.toList_none, List.map_nil, List.append_nil, ite_self, List.append_nil]
    | some c =>
      rw [Option.toList_some, List.map_singleton, run_concat, Keyboard.step]
      by_cases hfull : (run (ring_events as)).pending.length = 255
      · rw [Keyboard.put_dropped hfull, if_pos hfull, List.append_nil]
      · rw [(Keyboard.put_accepted hfull).2.1, if_neg hfull]
  | shell => rw [ring_event, run_concat, Keyboard.step, Keyboard.get_accepted, Action.text, ite_self, List.append_nil]
  | draw f => rw [ring_event, List.append_nil, Action.text, ite_self, List.append_nil]

theorem accepted_sublist (as : List Action) : (drive as).kbd.accepted.Sublist (typed (codes as)) := by
  induction as using List.reverseRecOn with
  | nil => exact List.Sublist.refl _
  | append_singleton as a ih =>
    rw [accepted_action, typed_action]
    refine ih.append ?_
    split_ifs
    · exact List.nil_sublist _
    · exact List.Sublist.refl _

theorem accepted_eq_typed (h : ∀ pre, pre <+: as → (drive pre).kbd.pending.length < 255) :
    (drive as).kbd.accepted = typed (codes as) := by
  induction as using List.reverseRecOn with
  | nil => rfl
  | append_singleton as a ih =>
    have hroom := h as (List.prefix_append as [a])
    rw [accepted_action, typed_action, ih fun pre hpre => h pre (hpre.trans (List.prefix_append as [a])),
      if_neg hroom.ne]

/-- The characters that the shell has got, is about to get and has waiting. -/
def Driver.received (st : Driver) : List UInt8 :=
  (st.kbd.returned ++ st.kbd.in_hand).filter (· ≠ 0) ++ st.kbd.pending

/-- The driver delivers what is typed. -/
structure Driver.Delivers (as : List Action) (st : Driver) : Prop where
  follows : st.Follows as
  characters : ∀ c ∈ typed (codes as), c ≠ 0 ∧ c < 0x80
  in_order : st.received.Sublist (typed (codes as))
  all : (∀ pre, pre <+: as → (drive pre).kbd.pending.length < 255) → st.received = typed (codes as)

/-- Whatever comes from the keyboard, between whatever statements of `kbd_get`, the modifiers are as their last codes say,
    each key types by them, and the shell receives what is typed, in order, without a loss while the ring has room. -/
theorem typed_text_delivered (as : List Action) : (drive as).Delivers as := by
  have hfollows := drive_follows as
  have hreceived : (drive as).received = (drive as).kbd.accepted := by
    rw [Driver.received, hfollows.kbd]
    exact (run_inv (ring_events_chars as)).order
  refine ⟨hfollows, fun c => typed_char, ?_, fun hroom => ?_⟩
  · rw [hreceived]
    exact accepted_sublist as
  · rw [hreceived]
    exact accepted_eq_typed hroom

/-- Shift, `h`, shift released, `i`. -/
example : typed [0x2A, 0x23, 0xAA, 0x17] = ascii "Hi" := by decide

end os_dev.keyboard
