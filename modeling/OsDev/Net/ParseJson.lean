import OsDev.Net.NetStack

open os_dev.libc char_array

namespace os_dev.net_stack

def ICMD_MAX : ℕ := 255

/-- What `shell_execute` does with a command, beside the memory of the client: the rest of
    the machine is `σ`, and the text captured from the screen is returned. -/
abbrev ShellExecute (σ : Type) := σ → Net → CStr → σ × Net × CStr

variable {σ : Type}

/-- The variables of `ollama_parse_json`; the first `intercept_idx` characters of
    `intercept_cmd` are its string. -/
structure Parser (σ : Type) where
  os : σ
  net : Net
  catching : Bool
  intercept_cmd : CharArray 256

def Parser.print_string (ps : Parser σ) (s : CStr) : Parser σ := { ps with net := ps.net.print_string s }

/-- A character goes to the command that is being caught, which loses what is too long,
    or to the screen. -/
def Parser.take_char (ps : Parser σ) (c : UInt8) : Parser σ :=
  if ps.catching then
    if ps.intercept_cmd.str.length < ICMD_MAX then { ps with intercept_cmd := ps.intercept_cmd.append [c] } else ps
  else ps.print_string [c]

/-- Start to catch a command. -/
def Parser.start (ps : Parser σ) : Parser σ := { ps with catching := true, intercept_cmd := ps.intercept_cmd.restart }

/-- `[spaces]EXEC_CMD:[spaces]`, as it follows an opening bracket. -/
def open_tag (scan : CStr) : Option CStr :=
  let scan := scan.dropWhile (· = space)
  if (ascii "EXEC_CMD:").isPrefixOf scan then some ((scan.drop 9).dropWhile (· = space)) else none

/-- Stop to catch: the command without the spaces behind it. -/
def Parser.finish (ps : Parser σ) : Parser σ × CStr :=
  let cmd : CharArray 256 := { ps.intercept_cmd with str := ps.intercept_cmd.str.rdropWhile (· = space) }
  let cmd := cmd.terminate
  ({ ps with catching := false, intercept_cmd := cmd.restart }, cstr cmd.str)

/-- Announce a command and run it. -/
def Parser.run_command (shell : ShellExecute σ) (ps : Parser σ) (cmd : CStr) : Parser σ × CStr :=
  let ps := ((ps.print_string (ascii "\n[JARVIS Agent >> ")).print_string cmd).print_string (ascii "]\n")
  let (os, net, output) := shell ps.os { ps.net with executed := ps.net.executed ++ [cmd] } cmd
  ({ ps with os := os, net := net }, output)

/-- What `shell_execute` leaves in front of the first NUL of the command: it cuts it
    behind the first word. -/
def first_word (cmd : CStr) : CStr :=
  cmd.takeWhile (· = space) ++ (cmd.dropWhile (· = space)).takeWhile (· ≠ space)

/-- What is reported to the server: the output without the newlines behind it, cut so
    that the rest fits. -/
def feedback_text (feedback_prompt : CharArray 2048) (cmd output : CStr) : CharArray 2048 :=
  let output := output.rdropWhile (· = newline)
  let feedback_prompt := ((feedback_prompt.strcpy (ascii "[AGENT EXEC RESULT] `")).strcat cmd).strcat
    (ascii "` \\nOutput:\\n\"")
  let p_len := feedback_prompt.str.length
  let out_len := min output.length (2000 - p_len - 60)
  (feedback_prompt.strcat (output.take out_len)).strcat (ascii "\"\\nNext? (Use <EXEC_CMD:stop> if done)")

/-- Report the output of a command and go on with the conversation. -/
def Parser.feedback (lwip : Lwip) (ps : Parser σ) (cmd output : CStr) : Parser σ :=
  let feedback_prompt := feedback_text ps.net.feedback_prompt cmd output
  let net := { ps.net with feedback_prompt := feedback_prompt }
  let net := net.print_string (ascii "\n[Network: Queuing Agent Feedback...]\n")
  { ps with net := ollama_feedback_request lwip net net.global_ip_str.str feedback_prompt.str }

/-- The end of a tag written as an escape. -/
def Parser.close_escaped (shell : ShellExecute σ) (ps : Parser σ) : Parser σ :=
  let (ps, cmd) := ps.finish
  (ps.run_command shell cmd).1

/-- The end of a tag written out, behind which the loop is left. -/
def Parser.close_literal (lwip : Lwip) (shell : ShellExecute σ) (ps : Parser σ) : Parser σ :=
  let (ps, cmd) := ps.finish
  if cmd = ascii "stop" ∨ cmd = ascii "done" then ps.print_string (ascii "\n[JARVIS Agent Sequence Completed]\n")
  else
    let (ps, output) := ps.run_command shell cmd
    ps.feedback lwip (first_word cmd) output

/-- A round with a character decoded from `\uXXXX`: where to go on, and the new state. -/
def Parser.escaped (shell : ShellExecute σ) (ps : Parser σ) (decoded : UInt8) (resp : CStr) : Option CStr × Parser σ :=
  if decoded = less then
    match open_tag resp with
    | some resp => (some resp, ps.start)
    | none => (some resp, ps.take_char decoded)
  else if decoded = greater ∧ ps.catching then (some resp, ps.close_escaped shell)
  else (some resp, ps.take_char decoded)

/-- A round with a character that is written out. -/
def Parser.literal (lwip : Lwip) (shell : ShellExecute σ) (ps : Parser σ) (c : UInt8) (resp : CStr) :
    Option CStr × Parser σ :=
  if ¬ ps.catching ∧ c = less then
    match open_tag resp with
    | some resp => (some resp, ps.start)
    | none => (some resp, ps.take_char c)
  else if ps.catching ∧ c = greater then (none, ps.close_literal lwip shell)
  else (some resp, ps.take_char c)

/-- One round of the loop, at the character `c` in front of `rest`. -/
def Parser.round (lwip : Lwip) (shell : ShellExecute σ) (ps : Parser σ) (c : UInt8) (rest : CStr) :
    Option CStr × Parser σ :=
  if c = backslash then
    match rest with
    | [] => ps.literal lwip shell c rest
    | e :: rest' =>
      if e = letter_u ∧ 4 ≤ rest'.length then
        match rest' with
        | h0 :: h1 :: h2 :: h3 :: resp => ps.escaped shell (decode_unicode_escape h0 h1 h2 h3) resp
        | _ => ps.literal lwip shell c rest
      else if e = letter_n then (some rest', if ps.catching then ps else ps.print_string [newline])
      else if e = letter_t then (some rest', if ps.catching then ps else ps.print_string [space])
      else if e = quote then (some rest', ps.take_char quote)
      else if e = backslash then (some rest', ps.take_char backslash)
      else ps.literal lwip shell c rest
  else ps.literal lwip shell c rest

/-- The loop; each round consumes a character at least, so that the length of the text is
    fuel enough. -/
def Parser.loop (lwip : Lwip) (shell : ShellExecute σ) : ℕ → CStr → Parser σ → Parser σ
  | 0, _, ps => ps
  | _ + 1, [], ps => ps
  | fuel + 1, c :: rest, ps =>
    if c = quote then ps
    else match ps.round lwip shell c rest with
      | (some resp, ps) => Parser.loop lwip shell fuel resp ps
      | (none, ps) => ps

/-- The whole parser; `intercept_cmd` is a variable of its own. -/
def ollama_parse (lwip : Lwip) (shell : ShellExecute σ) (os : σ) (net : Net) (payload : List UInt8) : Parser σ :=
  match response_text (cstr payload) with
  | none => ⟨os, net, false, .zeroed 256⟩
  | some resp => Parser.loop lwip shell resp.length resp ⟨os, net.print_string (ascii "\nAI: "), false, .zeroed 256⟩

def ollama_parse_json (lwip : Lwip) (shell : ShellExecute σ) (os : σ) (net : Net) (payload : List UInt8) : σ × Net :=
  let ps := ollama_parse lwip shell os net payload
  (ps.os, ps.net)

/-- The payload of `ollama_mock_intercept`. -/
def test_payload : CStr :=
  ascii "\x7b\"model\":\"" ++ OLLAMA_MODEL ++ ascii "\",\"response\":\"Scanning your system now!\\n" ++
    ascii "<EXEC_CMD:sysinfo> Also listing storage devices: <EXEC_CMD:pci storage>\"\x7d"

def ollama_mock_intercept (lwip : Lwip) (shell : ShellExecute σ) (os : σ) (net : Net) : σ × Net :=
  ollama_parse_json lwip shell os (net.print_string (ascii "Simulating AI Agent response (offline)...\n")) test_payload

/-- A segment, or the end of the connection. -/
def ollama_recv_cb (lwip : Lwip) (shell : ShellExecute σ) (os : σ) (net : Net) (tpcb : ℕ) : Option (List UInt8) → σ × Net
  | none =>
    let received := (net.flight tpcb).getD []
    let net := net.tcp_close tpcb
    let (os, net) :=
      if 0 < net.rx_accum.str.length then
        let net := { net with
          rx_accum := net.rx_accum.terminate
          parsed := net.parsed ++ [(net.rx_accum.str, received)] }
        ollama_parse_json lwip shell os net net.rx_accum.str
      else (os, net)
    let net := net.print_string (ascii "\nJARVIS [/] $ ")
    (os, { net with rx_accum := net.rx_accum.restart })
  | some p =>
    let space := 8192 - net.rx_accum.str.length - 1
    let copy_len := min p.length space
    let net := if 0 < copy_len then { net with rx_accum := net.rx_accum.append (p.take copy_len) } else net
    (os, { net with flight := Function.update net.flight tpcb (some ((net.flight tpcb).getD [] ++ p)) })

def ollama_err_cb (net : Net) (tpcb err : ℕ) : Net :=
  let net := net.tcp_close tpcb
  let net := ((net.print_string (ascii "\nNetwork: TCP error (err=")).kprint_dec err).print_string
    (ascii ") " ++ em_dash ++ ascii " Ollama unreachable or reset.\nJARVIS [/] $ ")
  { net with rx_accum := net.rx_accum.restart }

variable {lwip : Lwip} {shell : ShellExecute σ} {ps : Parser σ} {c : UInt8} {rest : CStr}

theorem err_cb_eq (net : Net) (tpcb err : ℕ) : ∃ s, ollama_err_cb net tpcb err =
    { (net.tcp_close tpcb).print_string s with rx_accum := net.rx_accum.restart } := by
  simp only [ollama_err_cb, Net.kprint_dec, print_string_print_string]
  generalize ascii "\nNetwork: TCP error (err=" ++ itoa err ++ (ascii ") " ++ em_dash ++
    ascii " Ollama unreachable or reset.\nJARVIS [/] $ ") = s
  exact ⟨s, rfl⟩

theorem open_tag_length {scan resp : CStr} (h : open_tag scan = some resp) : resp.length ≤ scan.length := by
  simp only [open_tag] at h
  split at h
  · obtain rfl := Option.some.inj h
    have hspaces := (List.dropWhile_sublist (l := scan) (· = space)).length_le
    have hrest := (List.dropWhile_sublist (l := (scan.dropWhile (· = space)).drop 9) (· = space)).length_le
    rw [List.length_drop] at hrest
    omega
  · cases h

/-- A round goes on no further back than `rest`. -/
def Advances (rest : CStr) (next : Option CStr) : Prop := ∀ resp, next = some resp → resp.length ≤ rest.length

theorem Advances.refl (rest : CStr) : Advances rest (some rest) := by
  rintro resp ⟨⟩
  exact Nat.le_refl _

theorem Advances.tag {resp : CStr} (h : open_tag rest = some resp) : Advances rest (some resp) := by
  rintro resp' ⟨⟩
  exact open_tag_length h

theorem Advances.trans {rest' : CStr} {next : Option CStr} (h : Advances rest' next) (hle : rest'.length ≤ rest.length) :
    Advances rest next := fun resp heq => Nat.le_trans (h resp heq) hle

theorem escaped_advances (decoded : UInt8) : Advances rest (ps.escaped shell decoded rest).1 := by
  unfold Parser.escaped
  split
  · split
    · exact .tag ‹_›
    · exact .refl rest
  · split
    · exact .refl rest
    · exact .refl rest

theorem literal_advances : Advances rest (ps.literal lwip shell c rest).1 := by
  unfold Parser.literal
  split
  · split
    · exact .tag ‹_›
    · exact .refl rest
  · split
    · intro resp heq
      cases heq
    · exact .refl rest

theorem round_advances : Advances rest (ps.round lwip shell c rest).1 := by
  unfold Parser.round
  split
  · split
    · exact literal_advances
    · rename_i e rest'
      have hback : rest'.length ≤ (e :: rest').length := Nat.le_succ _
      split
      · split
        · exact (escaped_advances _).trans (by simp only [List.length_cons]; omega)
        · exact literal_advances
      · split
        · exact (Advances.refl rest').trans hback
        · split
          · exact (Advances.refl rest').trans hback
          · split
            · exact (Advances.refl rest').trans hback
            · split
              · exact (Advances.refl rest').trans hback
              · exact literal_advances
  · exact literal_advances

/-- More fuel than characters changes nothing. -/
theorem loop_fuel {resp : CStr} {n m : ℕ} (hn : resp.length ≤ n) (hm : resp.length ≤ m) :
    Parser.loop lwip shell n resp ps = Parser.loop lwip shell m resp ps := by
  induction n generalizing resp m ps with
  | zero =>
    obtain rfl := List.length_eq_zero_iff.mp (Nat.le_zero.mp hn)
    cases m <;> rfl
  | succ n ih =>
    cases resp with
    | nil => cases m <;> rfl
    | cons c rest =>
      obtain ⟨m, rfl⟩ := Nat.exists_eq_succ_of_ne_zero (Nat.ne_zero_of_lt (Nat.lt_of_lt_of_le (Nat.succ_pos _) hm))
      rw [List.length_cons] at hn hm
      simp only [Parser.loop]
      have hadvances := @round_advances σ lwip shell ps c rest
      generalize ps.round lwip shell c rest = next at hadvances
      obtain ⟨_ | resp, ps'⟩ := next
      · rfl
      · have hle := hadvances resp rfl
        have hsame : Parser.loop lwip shell n resp ps' = Parser.loop lwip shell m resp ps' :=
          ih (by omega) (Nat.le_of_lt_succ (Nat.lt_of_le_of_lt hle hm))
        simp only [hsame]

/-- The loop with as much fuel as it needs. -/
def Parser.parse (lwip : Lwip) (shell : ShellExecute σ) (resp : CStr) (ps : Parser σ) : Parser σ :=
  Parser.loop lwip shell resp.length resp ps

theorem parse_nil : Parser.parse lwip shell [] ps = ps := rfl

theorem parse_quote : Parser.parse lwip shell (quote :: rest) ps = ps := by
  simp only [Parser.parse, List.length_cons, Parser.loop, if_true]

/-- One round of the loop and the rest of it. -/
theorem parse_cons (hc : c ≠ quote) :
    Parser.parse lwip shell (c :: rest) ps =
      match ps.round lwip shell c rest with
      | (some resp, ps) => Parser.parse lwip shell resp ps
      | (none, ps) => ps := by
  have hadvances := @round_advances σ lwip shell ps c rest
  simp only [Parser.parse, List.length_cons, Parser.loop, if_neg hc]
  generalize ps.round lwip shell c rest = next at hadvances
  obtain ⟨_ | resp, ps'⟩ := next
  · rfl
  · exact loop_fuel (hadvances resp rfl) (Nat.le_refl _)

end os_dev.net_stack
