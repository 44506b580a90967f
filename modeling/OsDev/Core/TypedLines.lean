import OsDev.Core.ShellInput
import OsDev.Drivers.Scancodes
import OsDev.Fat32.Blank

open os_dev.libc os_dev.agent os_dev.keyboard

namespace os_dev.shell

/-- Everything but the screen. -/
def quiet (os : Os) : Os := { os with screen := [] }

/-- Command lines one after the other. -/
def script (fuel : ℕ) (os : Os) (lines : List CStr) : Option Os := lines.foldlM (shell_execute fuel) os

/-- What a character makes of the line that is being typed. -/
def edit (line : CStr) (c : UInt8) : CStr :=
  if c = etx ∨ c = line_feed then []
  else if c = backspace then line.dropLast
  else if line.length < 255 ∧ space ≤ c ∧ c < 0x80 then line ++ [c]
  else line

/-- The lines that a text enters, and the one behind them. -/
def edited (text : CStr) : List CStr × CStr :=
  text.foldl (fun (done : List CStr × CStr) c => (if c = line_feed then done.1 ++ [done.2] else done.1, edit done.2 c)) ([], [])

/-- A line that the buffer has room for, and that stands for itself. -/
structure Plain (line : CStr) : Prop where
  chars : ∀ c ∈ line, space ≤ c ∧ c < 0x80
  fits : line.length ≤ 255

/-- Lines, each behind the other and ended by the enter key. -/
def entered (lines : List CStr) : CStr := lines.flatMap (· ++ [line_feed])

/-- The keyboard and the task that reads it. -/
structure Terminal where
  driver : Driver
  console : Console
  welcomed : Bool

def Terminal.boot (os : Os) : Terminal where
  driver := Driver.boot
  console := ⟨os, [], ⟨[], 0, [], 0, false⟩, false⟩
  welcomed := false

def Terminal.welcome (t : Terminal) : Terminal :=
  if t.welcomed then t
  else
    let console := (t.console.print_string (ascii "\nJARVIS OS - Interactive Mode\n")).print_string
      (ascii "Type 'help' for a list of commands.\n\n")
    { t with console := console.prompt, welcomed := true }

/-- A statement of `shell_task`: it welcomes the user, calls `kbd_get` and hands on what that returns. -/
def Terminal.shell_task (fuel : ℕ) (t : Terminal) : Option Terminal :=
  match t.driver.kbd.consumer with
  | .idle => some { t.welcome with driver := t.driver.step .shell }
  | .returning c =>
    if c ≠ 0 then do
      let console ← shell_input fuel t.console c
      return { t with driver := t.driver.step .shell, console := console }
    else some { t with driver := t.driver.step .shell }
  | _ => some { t with driver := t.driver.step .shell }

def Terminal.step (fuel : ℕ) (t : Terminal) : Action → Option Terminal
  | .interrupt scancode => some { t with driver := t.driver.step (.interrupt scancode) }
  | .shell => t.shell_task fuel
  | .draw f => some { t with driver := t.driver.step (.draw f) }

def terminal (fuel : ℕ) (os : Os) (as : List Action) : Option Terminal := as.foldlM (Terminal.step fuel) (Terminal.boot os)

/-- What a console has come to: the state of the kernel and the line that is being typed. -/
def Console.outcome (st : Console) : Os × CStr := (quiet st.os, st.shell_buffer)

variable {fuel : ℕ} {os os' : Os} {st st' : Console} {c : UInt8} {text line : CStr} {as : List Action}

section Quiet

theorem quiet_eq_iff : quiet os = quiet os' ↔ os.fs = os'.fs ∧ os.calls = os'.calls := by
  simp [quiet]

@[simp] theorem quiet_print_string (os : Os) (s : CStr) : quiet (os.print_string s) = quiet os := rfl

theorem call_quiet (h : quiet os = quiet os') (c : Call) : quiet (os.call c) = quiet (os'.call c) := by
  obtain ⟨hfs, hcalls⟩ := quiet_eq_iff.mp h
  exact quiet_eq_iff.mpr ⟨hfs, congrArg (· ++ [c]) hcalls⟩

theorem ls_callbacks_quiet (os : Os) (reports : List fat32.Report) : quiet (reports.foldl ls_callback os) = quiet os := by
  induction reports generalizing os with
  | nil => rfl
  | cons r reports ih =>
    rw [List.foldl_cons, ih]
    simp only [ls_callback]
    split <;> rfl

theorem print_file_quiet (h : quiet os = quiet os') (fd : Int) :
    (print_file fuel os fd).map quiet = (print_file fuel os' fd).map quiet := by
  induction fuel generalizing os os' with
  | zero => rfl
  | succ fuel ih =>
    obtain ⟨hfs, hcalls⟩ := quiet_eq_iff.mp h
    simp only [print_file, hfs]
    split
    · exact ih (quiet_eq_iff.mpr ⟨rfl, hcalls⟩)
    · exact congrArg some (quiet_eq_iff.mpr ⟨rfl, hcalls⟩)

theorem fat32_ls_quiet (h : quiet os = quiet os') (cluster : ℕ) :
    (fat32_ls fuel os cluster).map quiet = (fat32_ls fuel os' cluster).map quiet := by
  rw [fat32_ls, fat32_ls, (quiet_eq_iff.mp h).1]
  cases fat32.fat32_list_dir fuel os'.fs cluster with
  | none => rfl
  | some listed =>
    apply congrArg some
    rw [ls_callbacks_quiet, ls_callbacks_quiet, h]

/-- What comes behind the output of a file. -/
theorem show_file_quiet (h : quiet os = quiet os') (fd : Int) {next : Os → Os} (hnext : ∀ os os', quiet os = quiet os' →
    quiet (next os) = quiet (next os')) :
    ((print_file fuel os fd).bind fun os => some (next os)).map quiet =
      ((print_file fuel os' fd).bind fun os => some (next os)).map quiet := by
  have hshow : (print_file fuel os fd).map quiet = (print_file fuel os' fd).map quiet := print_file_quiet h fd
  cases hshown : print_file fuel os fd with
  | none =>
    rw [hshown] at hshow
    rw [Option.map_eq_none_iff.mp hshow.symm]
  | some shown =>
    rw [hshown] at hshow
    obtain ⟨shown', hshown', hsame⟩ := Option.map_eq_some_iff.mp hshow.symm
    rw [hshown']
    exact congrArg some (hnext shown shown' hsame.symm)

/-- Close the file behind it and end the line. -/
theorem close_file_quiet (fd : Int) (text : CStr) (os os' : Os) (h : quiet os = quiet os') :
    quiet (Os.print_string { os with fs := fat32.fat32_close os.fs fd } text) =
      quiet (Os.print_string { os' with fs := fat32.fat32_close os'.fs fd } text) := by
  obtain ⟨hfs, hcalls⟩ := quiet_eq_iff.mp h
  exact quiet_eq_iff.mpr ⟨congrArg (fat32.fat32_close · fd) hfs, hcalls⟩

theorem fs_command_quiet (h : quiet os = quiet os') (f : fat32.Fat32 → Option (Int × fat32.Fat32)) (done failed : CStr) :
    (fs_command f done failed os).map quiet = (fs_command f done failed os').map quiet := by
  obtain ⟨hfs, hcalls⟩ := quiet_eq_iff.mp h
  simp only [fs_command, hfs]
  cases f os'.fs with
  | none => rfl
  | some result => exact congrArg some (quiet_eq_iff.mpr ⟨rfl, hcalls⟩)

/-- What a command does depends on nothing that stands on the screen. -/
theorem execute_quiet (h : quiet os = quiet os') (cmd : Command) :
    (execute fuel os cmd).map quiet = (execute fuel os' cmd).map quiet := by
  obtain ⟨hfs, hcalls⟩ := quiet_eq_iff.mp h
  cases cmd with
  | nothing => exact congrArg some h
  | ls path =>
    cases path with
    | none => exact fat32_ls_quiet h 0
    | some path =>
      simp only [execute, ls_command, hfs]
      cases fat32.fat32_resolve_path fuel os'.fs path with
      | none => rfl
      | some cluster =>
        simp only [Option.bind_eq_bind, Option.bind_some]
        split
        · exact fat32_ls_quiet h cluster
        · exact congrArg some h
  | cd path =>
    simp only [execute, cd_command, hfs]
    cases fat32.fat32_chdir fuel os'.fs path with
    | none => rfl
    | some result =>
      apply congrArg some
      split <;> exact quiet_eq_iff.mpr ⟨rfl, hcalls⟩
  | cat file =>
    simp only [execute, cat_command, hfs]
    cases fat32.fat32_open fuel os'.fs file fat32.mode_r with
    | none => rfl
    | some result =>
      simp only [Option.bind_eq_bind, Option.bind_some]
      have hopened : quiet { os with fs := result.2 } = quiet { os' with fs := result.2 } := quiet_eq_iff.mpr ⟨rfl, hcalls⟩
      split
      · exact show_file_quiet hopened result.1 (close_file_quiet result.1 (ascii "\n"))
      · exact congrArg some (quiet_eq_iff.mpr ⟨rfl, hcalls⟩)
  | touch file =>
    simp only [execute, touch_command, hfs]
    cases fat32.fat32_open fuel os'.fs file fat32.mode_w with
    | none => rfl
    | some result =>
      simp only [Option.bind_eq_bind, Option.bind_some]
      split <;> exact congrArg some (quiet_eq_iff.mpr ⟨rfl, hcalls⟩)
  | write file text =>
    simp only [execute, write_command, hfs]
    cases fat32.fat32_open fuel os'.fs file fat32.mode_w with
    | none => rfl
    | some result =>
      simp only [Option.bind_eq_bind, Option.bind_some]
      split <;> exact congrArg some (quiet_eq_iff.mpr ⟨rfl, hcalls⟩)
  | rm file =>
    rw [execute, execute]
    exact fs_command_quiet h _ _ _
  | mkdir dir =>
    rw [execute, execute]
    exact fs_command_quiet h _ _ _
  | rmdir dir =>
    rw [execute, execute]
    exact fs_command_quiet h _ _ _
  | agent_ctx_set key value =>
    simp only [execute, agent_ctx_set, hfs]
    cases fat32.fat32_open fuel os'.fs (ctx_path key).str fat32.mode_w with
    | none => rfl
    | some result =>
      simp only [Option.bind_eq_bind, Option.bind_some]
      split <;> exact congrArg some (quiet_eq_iff.mpr ⟨rfl, hcalls⟩)
  | agent_ctx_get key =>
    simp only [execute, agent_ctx_get, hfs]
    cases fat32.fat32_open fuel os'.fs (ctx_path key).str fat32.mode_r with
    | none => rfl
    | some result =>
      simp only [Option.bind_eq_bind, Option.bind_some]
      split
      · have hopened : quiet (((Os.print_string { os with fs := result.2 } (ascii "Agent DB Context [")).print_string key).print_string
            (ascii "]:\n")) = quiet (((Os.print_string { os' with fs := result.2 } (ascii "Agent DB Context [")).print_string
            key).print_string (ascii "]:\n")) := quiet_eq_iff.mpr ⟨rfl, hcalls⟩
        exact show_file_quiet hopened result.1 (close_file_quiet result.1 (ascii "\n"))
      · exact congrArg some (quiet_eq_iff.mpr ⟨rfl, hcalls⟩)
  | reboot => exact congrArg some (call_quiet h .sys_reboot)
  | ai ip_str prompt => exact congrArg some (call_quiet h (.ollama_request ip_str prompt))
  | ai_mock => exact congrArg some (call_quiet h .ollama_mock_intercept)
  | ping ip_str => exact congrArg some (call_quiet h (.ping_request ip_str))
  | agent_task instruction => exact congrArg some (call_quiet h (.ollama_request (ascii "172.16.100.1") instruction))
  | report cmd arg => exact congrArg some (call_quiet h (.report cmd arg))
  | _ => exact congrArg some h

theorem shell_execute_quiet (h : quiet os = quiet os') (line : CStr) :
    (shell_execute fuel os line).map quiet = (shell_execute fuel os' line).map quiet := execute_quiet h (parse_line line)

end Quiet

theorem script_append (fuel : ℕ) (os : Os) (lines more : List CStr) :
    script fuel os (lines ++ more) = (script fuel os lines).bind fun os => script fuel os more := List.foldlM_append

theorem script_singleton (fuel : ℕ) (os : Os) (line : CStr) : script fuel os [line] = shell_execute fuel os line := by
  rw [script, List.foldlM_cons, Option.bind_eq_bind]
  cases shell_execute fuel os line with
  | none => rfl
  | some os => rfl

theorem edited_concat (text : CStr) (c : UInt8) : edited (text ++ [c]) =
    (if c = line_feed then (edited text).1 ++ [(edited text).2] else (edited text).1, edit (edited text).2 c) := by
  rw [edited, List.foldl_concat]
  rfl

theorem type_char_outcome (st : Console) (c : UInt8) : (st.type_char c).outcome =
    (quiet st.os, if st.shell_buffer.length < 255 ∧ space ≤ c ∧ c < 0x80 then st.shell_buffer ++ [c] else st.shell_buffer) := by
  unfold Console.type_char
  split <;> rfl

/-- Any character but the line feed only changes the line. -/
theorem shell_input_edits (htab : c ≠ tab) (hline : c ≠ line_feed) :
    (shell_input (fuel + 1) st c).map Console.outcome = some (quiet st.os, edit st.shell_buffer c) := by
  by_cases hetx : c = etx
  · rw [shell_input, if_pos hetx, edit, if_pos (.inl hetx)]
    rfl
  have hedit : edit st.shell_buffer c = if c = backspace then st.shell_buffer.dropLast else
      if st.shell_buffer.length < 255 ∧ space ≤ c ∧ c < 0x80 then st.shell_buffer ++ [c] else st.shell_buffer :=
    if_neg fun h => h.elim hetx hline
  rw [shell_input, if_neg hetx, if_neg hline, hedit]
  by_cases hback : c = backspace
  · rw [if_pos hback]
    by_cases hempty : st.shell_buffer = []
    · -- nothing is left to be erased, and a backspace is not typed
      rw [if_neg fun h => h.2 hempty, if_neg htab, Option.map_some, type_char_outcome, hempty, hback]
      rfl
    · rw [if_pos ⟨hback, hempty⟩]
      rfl
  · rw [if_neg fun h => hback h.1, if_neg htab, if_neg hback, Option.map_some, type_char_outcome]

theorem shell_input_enters : (shell_input (fuel + 1) st line_feed).map Console.outcome =
    (shell_execute fuel st.os st.shell_buffer).map fun os => (quiet os, []) := by
  have henter : (shell_input (fuel + 1) st line_feed).map Console.outcome =
      ((shell_execute fuel (st.os.print_string [line_feed]) st.shell_buffer).map quiet).map fun os => (os, []) := by
    rw [shell_input, if_neg (by decide), if_pos rfl, Console.enter]
    change ((shell_execute fuel (st.os.print_string [line_feed]) st.shell_buffer).bind _).map Console.outcome = _
    cases shell_execute fuel (st.os.print_string [line_feed]) st.shell_buffer with
    | none => rfl
    | some os => rfl
  rw [henter, shell_execute_quiet (quiet_print_string st.os [line_feed]) st.shell_buffer, Option.map_map]
  rfl

/-- One more character, after a text that has been typed without a tab. -/
theorem shell_input_edited (hscript : script fuel os (edited text).1 = some os')
    (hst : st.outcome = (quiet os', (edited text).2)) (htab : c ≠ tab) :
    (shell_input (fuel + 1) st c).map Console.outcome =
      (script fuel os (edited (text ++ [c])).1).map fun os => (quiet os, (edited (text ++ [c])).2) := by
  obtain ⟨hos, hbuffer⟩ := Prod.mk.inj hst
  rw [edited_concat, ← hbuffer]
  by_cases hline : c = line_feed
  · subst hline
    have hexecute : (shell_execute fuel st.os st.shell_buffer).map quiet = (shell_execute fuel os' st.shell_buffer).map quiet :=
      shell_execute_quiet hos st.shell_buffer
    have hpair := congrArg (Option.map fun os : Os => (os, ([] : CStr))) hexecute
    have hedit : edit st.shell_buffer line_feed = [] := if_pos (.inr rfl)
    rw [if_pos rfl, script_append, hscript, Option.bind_some, script_singleton, shell_input_enters, hedit]
    simpa only [Option.map_map, Function.comp_def] using hpair
  · rw [if_neg hline, hscript, shell_input_edits htab hline, hos]
    rfl

/-- What the shell has been handed. -/
def handled (st : Driver) : CStr := st.kbd.returned.filter (· ≠ 0)

/-- What it still has to be handed. -/
def waiting (st : Driver) : CStr := st.kbd.in_hand.filter (· ≠ 0) ++ st.kbd.pending

theorem received_eq (st : Driver) : st.received = handled st ++ waiting st := by
  rw [Driver.received, List.filter_append, List.append_assoc]
  rfl

/-- The character that a step hands to the shell. -/
def handed (st : Driver) : Action → Option UInt8
  | .shell =>
    match st.kbd.consumer with
    | .returning c => if c ≠ 0 then some c else none
    | _ => none
  | _ => none

theorem handled_step (st : Driver) (a : Action) : handled (st.step a) = handled st ++ (handed st a).toList := by
  cases a with
  | interrupt scancode =>
    have hnone : handed st (.interrupt scancode) = none := rfl
    rw [hnone, Option.toList_none, List.append_nil, Driver.step, keyboard_handler_eq, handled, handled]
    dsimp only
    split
    · rw [Keyboard.kbd_put]
      split <;> rfl
    · rfl
  | draw f => exact (List.append_nil _).symm
  | shell =>
    simp only [Driver.step, handled, handed, Keyboard.kbd_get]
    cases hconsumer : st.kbd.consumer with
    | returning c =>
      simp only [List.filter_append]
      by_cases hc : c = 0 <;> simp [hc]
    | _ => exact (List.append_nil _).symm

@[simp] theorem welcome_outcome (t : Terminal) : t.welcome.console.outcome = t.console.outcome := by
  unfold Terminal.welcome
  split <;> rfl

theorem terminal_step (fuel : ℕ) (t : Terminal) (a : Action) : (t.step fuel a).map (fun t => (t.driver, t.console.outcome)) =
    match handed t.driver a with
    | some c => (shell_input fuel t.console c).map fun st => (t.driver.step a, st.outcome)
    | none => some (t.driver.step a, t.console.outcome) := by
  cases a with
  | interrupt scancode => rfl
  | draw f => rfl
  | shell =>
    simp only [Terminal.step, Terminal.shell_task, handed]
    cases hconsumer : t.driver.kbd.consumer with
    | idle => simp
    | returning c =>
      by_cases hc : c = 0
      · simp [hc]
      · simp only [if_pos (show c ≠ 0 from hc)]
        cases shell_input fuel t.console c with
        | none => rfl
        | some console => rfl
    | _ => rfl

theorem script_edited_none (h : script fuel os (edited text).1 = none) (c : UInt8) :
    script fuel os (edited (text ++ [c])).1 = none := by
  rw [edited_concat]
  split_ifs
  · rw [script_append, h]
    rfl
  · exact h

/-- The terminal after a run: the driver is as the keyboard leaves it, and the kernel and the line are as after the text
    that the shell has been handed. -/
theorem terminal_follows (fuel : ℕ) (os : Os) (as : List Action) (htab : tab ∉ handled (drive as)) :
    (terminal (fuel + 1) os as).map (fun t => (t.driver, t.console.outcome)) =
      (script fuel os (edited (handled (drive as))).1).map fun os => (drive as, quiet os, (edited (handled (drive as))).2) := by
  induction as using List.reverseRecOn with
  | nil => rfl
  | append_singleton as a ih =>
    have hdrive : drive (as ++ [a]) = (drive as).step a := List.foldl_concat ..
    rw [hdrive, handled_step] at htab ⊢
    have ih := ih fun h => htab (List.mem_append_left _ h)
    have hrun : terminal (fuel + 1) os (as ++ [a]) = (terminal (fuel + 1) os as).bind fun t => t.step (fuel + 1) a := by
      rw [terminal, List.foldlM_append, Option.bind_eq_bind]
      simp only [List.foldlM_cons, List.foldlM_nil, bind_pure]
      rfl
    rw [hrun, Option.map_bind]
    cases hterminal : terminal (fuel + 1) os as with
    | none =>
      rw [hterminal] at ih
      have hscript := Option.map_eq_none_iff.mp ih.symm
      cases handed (drive as) a with
      | none =>
        rw [Option.toList_none, List.append_nil, hscript]
        rfl
      | some c =>
        rw [Option.toList_some, script_edited_none hscript]
        rfl
    | some t =>
      rw [hterminal] at ih
      obtain ⟨os', hscript, hsame⟩ := Option.map_eq_some_iff.mp ih.symm
      obtain ⟨hdriver, houtcome⟩ := Prod.mk.inj hsame
      rw [Option.bind_some, Function.comp_apply, terminal_step, ← hdriver]
      cases hhanded : handed (drive as) a with
      | none =>
        rw [Option.toList_none, List.append_nil, hscript]
        exact congrArg some (Prod.ext rfl houtcome.symm)
      | some c =>
        have hc : c ≠ tab := fun h => htab (by rw [hhanded, h]; exact List.mem_append_right _ List.mem_cons_self)
        have hinput := shell_input_edited hscript houtcome.symm hc
        have hpair := congrArg (Option.map fun outcome : Os × CStr => ((drive as).step a, outcome)) hinput
        rw [Option.toList_some]
        simpa only [Option.map_map, Function.comp_def] using hpair

theorem edit_plain (hc : space ≤ c ∧ c < 0x80) (hroom : line.length < 255) : edit line c = line ++ [c] := by
  have hne : ∀ d, d < space → c ≠ d := fun d hd heq => absurd hc.1 (UInt8.not_le.mpr (heq ▸ hd))
  rw [edit, if_neg fun h => h.elim (hne etx (by decide)) (hne line_feed (by decide)), if_neg (hne backspace (by decide)),
    if_pos ⟨hroom, hc.1, hc.2⟩]

theorem edited_plain (hline : Plain line) (hempty : (edited text).2 = []) :
    edited (text ++ line) = ((edited text).1, line) := by
  induction line using List.reverseRecOn with
  | nil => rw [List.append_nil, ← hempty]
  | append_singleton line c ih =>
    have hfits := hline.fits
    rw [List.length_append, List.length_singleton] at hfits
    have hc := hline.chars c (List.mem_append_right line List.mem_cons_self)
    have hsmall : c ≠ line_feed := fun h => absurd hc.1 (by rw [h]; decide)
    have ih := ih ⟨fun d hd => hline.chars d (List.mem_append_left [c] hd), by omega⟩
    rw [← List.append_assoc, edited_concat, ih, if_neg hsmall, edit_plain hc hfits]

/-- Lines that stand for themselves are entered as they are. -/
theorem edited_entered {lines : List CStr} (hlines : ∀ l ∈ lines, Plain l) (hrest : Plain line) :
    edited (entered lines ++ line) = (lines, line) := by
  have hentered : edited (entered lines) = (lines, []) := by
    induction lines using List.reverseRecOn with
    | nil => rfl
    | append_singleton lines l ih =>
      have ih := ih fun l' hl' => hlines l' (List.mem_append_left [l] hl')
      have hsplit : entered (lines ++ [l]) = entered lines ++ l ++ [line_feed] := by
        simp [entered]
      have hl := edited_plain (hlines l (List.mem_append_right lines List.mem_cons_self)) (congrArg Prod.snd ih)
      rw [hsplit, edited_concat, hl, ih]
      rfl
  rw [edited_plain hrest (congrArg Prod.snd hentered), hentered]

/-- What the shell makes of the keys: the kernel is as after the script of the lines entered so far. -/
structure Typing (fuel : ℕ) (os : Os) (as : List Action) : Prop where
  in_order : (handled (drive as)).Sublist (typed (codes as))
  executed : (terminal (fuel + 1) os as).map (fun t => t.console.outcome) =
    (script fuel os (edited (handled (drive as))).1).map fun os => (quiet os, (edited (handled (drive as))).2)
  all : (∀ pre, pre <+: as → (drive pre).kbd.pending.length < 255) →
    handled (drive as) ++ waiting (drive as) = typed (codes as) ∧
      ∀ lines line, (∀ l ∈ lines, Plain l) → Plain line → typed (codes as) = entered lines ++ line →
        waiting (drive as) = [] →
        (terminal (fuel + 1) os as).map (fun t => t.console.outcome) =
          (script fuel os lines).map fun os => (quiet os, line)

/-- Whatever keys are pressed while the shell reads, with no tab among what they type, the shell executes the lines that the
    text it has been handed enters, as a script of them would be, and holds the one that is not entered yet. While the ring
    has room nothing that is typed is lost, so lines that are typed as they are and have been read are the script. -/
theorem typed_lines_executed (fuel : ℕ) (os : Os) (as : List Action) (htab : tab ∉ typed (codes as)) : Typing fuel os as := by
  have hdelivers := typed_text_delivered as
  have hreceived := received_eq (drive as)
  have hsub : (handled (drive as)).Sublist (typed (codes as)) :=
    (List.sublist_append_left _ _).trans (hreceived ▸ hdelivers.in_order)
  have hexecuted : (terminal (fuel + 1) os as).map (fun t => t.console.outcome) =
      (script fuel os (edited (handled (drive as))).1).map fun os => (quiet os, (edited (handled (drive as))).2) := by
    have hfollows := congrArg (Option.map Prod.snd) (terminal_follows fuel os as fun h => htab (hsub.subset h))
    simpa only [Option.map_map, Function.comp_def] using hfollows
  refine ⟨hsub, hexecuted, fun hroom => ?_⟩
  have hall : handled (drive as) ++ waiting (drive as) = typed (codes as) := hreceived.symm.trans (hdelivers.all hroom)
  refine ⟨hall, fun lines line hlines hline htext hread => ?_⟩
  have hhandled : handled (drive as) = entered lines ++ line := by
    rw [← htext, ← hall, hread, List.append_nil]
  rw [hexecuted, hhandled, edited_entered hlines hline]

/-- The keys of `reboot`, with a slip that is taken back, and as many statements of the shell as it takes to read them. -/
def reboot_keys : List Action :=
  [0x13, 0x2D, 0x0E, 0x12, 0x30, 0x18, 0x18, 0x14, 0x1C].flatMap (fun key => [.interrupt key, .interrupt (key + 0x80)]) ++
    List.replicate 45 .shell

theorem typed_lines_executed_reboot :
    Typing 0 ⟨fat32.small_state, [], []⟩ reboot_keys ∧
      (terminal 1 ⟨fat32.small_state, [], []⟩ reboot_keys).map (fun t => t.console.outcome) =
        some (⟨fat32.small_state, [], [.sys_reboot]⟩, []) := by
  have htyping := typed_lines_executed 0 ⟨fat32.small_state, [], []⟩ reboot_keys (by decide +kernel)
  have hlines : edited (handled (drive reboot_keys)) = ([ascii "reboot"], []) := by decide +kernel
  have hcommand : parse_line (ascii "reboot") = .reboot := by decide
  refine ⟨htyping, htyping.executed.trans ?_⟩
  rw [hlines, script_singleton, shell_execute, hcommand]
  rfl

end os_dev.shell
