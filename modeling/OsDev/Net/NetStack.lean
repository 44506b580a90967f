import Mathlib.Data.List.DropRight
import Mathlib.Logic.Function.Basic
import OsDev.Libc.Str
import OsDev.Lib.CharArray

open os_dev.libc char_array

namespace os_dev.net_stack

def quote : UInt8 := 0x22
def backslash : UInt8 := 0x5C
def less : UInt8 := 0x3C
def greater : UInt8 := 0x3E
def newline : UInt8 := 0x0A
def carriage_return : UInt8 := 0x0D
def tab : UInt8 := 0x09
def letter_n : UInt8 := 0x6E
def letter_r : UInt8 := 0x72
def letter_t : UInt8 := 0x74
def letter_u : UInt8 := 0x75

def em_dash : CStr := [0xE2, 0x80, 0x94]

def OLLAMA_MODEL : CStr := ascii "gemma:12b"

def SYSTEM_PROMPT : CStr :=
  ascii "You ARE JARVIS, the autonomous execution kernel of Jarvis OS. YOU ARE IN AN AUTOMATED EXECUTION LOOP. " ++
  ascii "Every message is a task. Every task MUST be executed immediately." ++
  ascii "\\n\\nFILESYSTEM IDENTITY:\\n" ++
  ascii "  - FAT32 RAM disk. Root is '/'. This is the ENTIRE filesystem.\\n" ++
  ascii "  - The current working directory (CWD) is given to you in every message.\\n" ++
  ascii "\\nRESPONSE FORMAT " ++ em_dash ++ ascii " NON-NEGOTIABLE:\\n" ++
  ascii "  RULE 1: Wrap EVERY command in <EXEC_CMD:command> " ++ em_dash ++ ascii " no exceptions.\\n" ++
  ascii "  RULE 2: ONE command per <EXEC_CMD:> tag. Never chain with && | ;.\\n" ++
  ascii "  RULE 3: ZERO markdown. ZERO backticks. ZERO text explanations.\\n" ++
  ascii "  RULE 4: Output ONLY the <EXEC_CMD:command> and absolutely nothing else.\\n" ++
  ascii "\\nAVAILABLE COMMANDS:\\n" ++
  ascii "  ls [path]           - list files/dirs\\n" ++
  ascii "  cd <path>           - change directory\\n" ++
  ascii "  cat <file>          - display file contents\\n" ++
  ascii "  touch <file>        - create empty file\\n" ++
  ascii "  write <file> <text> - write text to a file\\n" ++
  ascii "  echo <text>         - print text to screen\\n" ++
  ascii "  rm <file>           - delete file\\n" ++
  ascii "  mkdir <dir>         - create directory\\n" ++
  ascii "  rmdir <dir>         - remove directory\\n" ++
  ascii "  clear               - clear screen\\n" ++
  ascii "  ps                  - list processes\\n" ++
  ascii "  mem                 - memory usage\\n" ++
  ascii "  sysinfo             - full system report\\n" ++
  ascii "  cpuid               - CPU identity\\n" ++
  ascii "  arch                - CPU architecture\\n" ++
  ascii "  agent_ctx_set <k> <v> - Save context to DB\\n" ++
  ascii "  agent_ctx_get <k>     - Retrieve context from DB\\n" ++
  ascii "  pci storage         - scan PCI storage\\n" ++
  ascii "  pci network         - scan PCI network\\n" ++
  ascii "  pci audio           - scan PCI audio\\n" ++
  ascii "  ahci                - scan AHCI controllers\\n" ++
  ascii "  ifconfig            - network interface\\n" ++
  ascii "  netstat             - network statistics\\n" ++
  ascii "  ping <ip>           - ICMP ping\\n" ++
  ascii "  reboot              - restart system\\n" ++
  ascii "  stop                - end task\\n"

/-- The variables of the client, the text on the screen, the commands given to the
    shell, and lwIP's connections: the connections in flight with what each has received,
    the requests sent, and what was parsed on a close beside what that connection had
    received. -/
structure Net where
  global_prompt : CharArray 8192
  global_ip_str : CharArray 32
  context_prompt : CharArray 1024
  escaped_prompt : CharArray 8192
  json_body : CharArray 16384
  request : CharArray 16384
  rx_accum : CharArray 8192
  feedback_prompt : CharArray 2048
  screen : List UInt8
  executed : List CStr
  flight : ℕ → Option (List UInt8)
  next_pcb : ℕ
  sent : List (ℕ × CStr)
  parsed : List (List UInt8 × List UInt8)

def boot : Net where
  global_prompt := .zeroed 8192
  global_ip_str := .zeroed 32
  context_prompt := .zeroed 1024
  escaped_prompt := .zeroed 8192
  json_body := .zeroed 16384
  request := .zeroed 16384
  rx_accum := .zeroed 8192
  feedback_prompt := .zeroed 2048
  screen := []
  executed := []
  flight := fun _ => none
  next_pcb := 0
  sent := []
  parsed := []

/-- How lwIP answers, with errors as the numbers that `kprint_dec` shows and 0 for
    `ERR_OK`. -/
structure Lwip where
  tcp_new : Net → Bool
  ip4addr_aton : CStr → Bool
  netif_default : Net → Bool
  tcp_connect : Net → ℕ
  tcp_write : Net → ℕ
  tcp_output : Net → ℕ

def Net.print_string (net : Net) (s : CStr) : Net := { net with screen := net.screen ++ s }

def Net.print_char (net : Net) (c : UInt8) : Net := net.print_string [c]

/-- The digits of a number, last one first. -/
def itoa_loop (n : ℕ) : CStr :=
  let digit := UInt8.ofNat (n % 10 + 0x30)
  if 0 < n / 10 then digit :: itoa_loop (n / 10) else [digit]
termination_by n

def itoa (n : ℕ) : CStr := (itoa_loop n).reverse

def Net.kprint_dec (net : Net) (n : ℕ) : Net := net.print_string (itoa n)

def escape_char (c : UInt8) : CStr :=
  if c = quote ∨ c = backslash then [backslash, c]
  else if c = newline then [backslash, letter_n]
  else if c = carriage_return then [backslash, letter_r]
  else if c = tab then [backslash, letter_t]
  else [c]

/-- The loop of `json_escape` over the rest of `src`. -/
def json_escape_loop (dst_max : ℕ) : CStr → CStr → CStr
  | [], out => out
  | c :: src, out => if out.length < dst_max - 2 then json_escape_loop dst_max src (out ++ escape_char c) else out

def json_escape (src : CStr) (dst_max : ℕ) : CStr := json_escape_loop dst_max src []

/-- What one digit adds to the value; a character that is no digit adds nothing. -/
def hex_digit (c : UInt8) : ℕ :=
  if 0x30 ≤ c ∧ c ≤ 0x39 then c.toNat - 0x30
  else if 0x61 ≤ c ∧ c ≤ 0x66 then c.toNat - 0x61 + 10
  else if 0x41 ≤ c ∧ c ≤ 0x46 then c.toNat - 0x41 + 10
  else 0

/-- Only the low seven bits are kept. -/
def decode_unicode_escape (h0 h1 h2 h3 : UInt8) : UInt8 :=
  UInt8.ofNat ((4096 * hex_digit h0 + 256 * hex_digit h1 + 16 * hex_digit h2 + hex_digit h3) % 0x80)

/-- The rest of the haystack from the first occurrence of the needle on. -/
def strstr (needle : CStr) : CStr → Option CStr
  | [] => if needle = [] then some [] else none
  | c :: haystack => if needle.isPrefixOf (c :: haystack) then some (c :: haystack) else strstr needle haystack

/-- Where the text of the response starts, if there is one. -/
def response_text (payload : CStr) : Option CStr :=
  let body := match strstr [0x0D, 0x0A, 0x0D, 0x0A] payload with
    | some hdr_end => hdr_end.drop 4
    | none => payload
  (strstr (ascii "\"response\":\"") body).map (·.drop 12)

/-- Open a connection. -/
def Net.connect (net : Net) : Net :=
  { net with flight := Function.update net.flight net.next_pcb (some []), next_pcb := net.next_pcb + 1 }

/-- `tcp_close`, and the end of a connection that has failed. -/
def Net.tcp_close (net : Net) (tpcb : ℕ) : Net := { net with flight := Function.update net.flight tpcb none }

def ollama_feedback_request (lwip : Lwip) (net : Net) (ip_str feedback : CStr) : Net :=
  let net := { net with rx_accum := net.rx_accum.restart }
  if net.global_prompt.str.length + feedback.length + 5 < 8192 then
    let net := { net with global_prompt := (net.global_prompt.strcat [newline, newline]).strcat feedback }
    if lwip.tcp_new net ∧ lwip.ip4addr_aton ip_str ∧ lwip.tcp_connect net = 0 then net.connect else net
  else net.print_string (ascii "Network: Memory limit reached for autonomous chain. Halting.\n")

/-- `fat32_cwd_path` as far as it is a string in its array. -/
structure CwdPath where
  path : CStr
  bound : path.length < 256

/-- The prompt with the state of the machine around it. -/
def context_text (context_prompt : CharArray 1024) (fat32_cwd_path : CwdPath) (prompt : CStr) : CharArray 1024 :=
  let context_prompt := ((context_prompt.strcpy (ascii "[JARVIS OS STATE] CWD=")).strcat fat32_cwd_path.path).strcat
    (ascii " | Task: ")
  let ctx_len := context_prompt.str.length
  let max_user := 1024 - ctx_len - 64
  let user_len := min prompt.length max_user
  (context_prompt.strncpy ctx_len prompt user_len).strcat (ascii " | EXECUTE commands now.")

/-- The first part of `ollama_request`: start over with a new prompt. -/
def Net.set_prompt (net : Net) (fat32_cwd_path : CwdPath) (ip_str prompt : CStr) : Net :=
  let context_prompt := context_text net.context_prompt fat32_cwd_path prompt
  let len := min context_prompt.str.length 1023
  { net with
    rx_accum := net.rx_accum.restart
    context_prompt := context_prompt
    global_prompt := net.global_prompt.strncpy 0 context_prompt.str len
    global_ip_str := net.global_ip_str.strncpy 0 ip_str 31 }

def ollama_request (lwip : Lwip) (net : Net) (fat32_cwd_path : CwdPath) (ip_str prompt : CStr) : Net :=
  let net := net.set_prompt fat32_cwd_path ip_str prompt
  if ¬ lwip.tcp_new net then net.print_string (ascii "Network: Out of memory for TCP socket.\n")
  else if ¬ lwip.ip4addr_aton ip_str then net.print_string (ascii "Network: Invalid IP address format!\n")
  else
    let net := if lwip.netif_default net then
        ((net.print_string (ascii "Network: ARP pre-warm sent for ")).print_string ip_str).print_string [newline]
      else net
    if lwip.tcp_connect net = 0 then net.connect
    else net.print_string (ascii "Network: tcp_connect() failed.\n")

/-- The fixed parts of the request's body. -/
def body_head : CStr :=
  ascii "\x7b\"model\":\"" ++ OLLAMA_MODEL ++ ascii "\",\"system\":\"" ++ SYSTEM_PROMPT ++ ascii "\",\"prompt\":\""

def body_tail : CStr := ascii "\",\"stream\":false\x7d"

/-- The prompt goes into the body only if it fits. -/
def Net.build_body (net : Net) : Net :=
  let json_body := net.json_body.strcpy body_head
  let used := json_body.str.length
  let esc_len := net.escaped_prompt.str.length
  if used + esc_len < 16384 - 24 then
    { net with json_body := (json_body.strcat net.escaped_prompt.str).strcat body_tail }
  else
    let net := net.print_string (ascii "Network: Prompt truncated (too long).\n")
    { net with json_body := json_body.strcat body_tail }

/-- The request around a body. -/
def request_text (request : CharArray 16384) (ip_str json_body : CStr) : CharArray 16384 :=
  let len_str := itoa json_body.length
  let request := (request.strcpy (ascii "POST /api/generate HTTP/1.1\r\n")).strcat (ascii "Host: ")
  let request := (request.strcat ip_str).strcat (ascii ":11434\r\n")
  let request := (request.strcat (ascii "Content-Type: application/json\r\n")).strcat (ascii "Connection: close\r\n")
  let request := ((request.strcat (ascii "Content-Length: ")).strcat len_str).strcat (ascii "\r\n\r\n")
  request.strcat json_body

def Net.escape_prompt (net : Net) : Net :=
  { net with escaped_prompt := net.escaped_prompt.strcpy (json_escape net.global_prompt.str 8192) }

def Net.wrap_body (net : Net) : Net :=
  { net with request := request_text net.request net.global_ip_str.str net.json_body.str }

/-- The first part of `ollama_connected_cb`: the body and the request around it. -/
def Net.build_request (net : Net) : Net := net.escape_prompt.build_body.wrap_body

/-- The second part: hand the request to lwIP. -/
def Net.send_request (lwip : Lwip) (net : Net) (tpcb : ℕ) : Net :=
  let req_len := net.request.str.length
  if 16384 ≤ req_len then
    (net.print_string (ascii "Network: Request overflowed buffer! Aborting.\n")).tcp_close tpcb
  else if lwip.tcp_write net ≠ 0 then
    (((net.print_string (ascii "Network: tcp_write() FAILED (err=")).kprint_dec (lwip.tcp_write net)).print_string
      (ascii ") " ++ em_dash ++ ascii " request too large for TCP_SND_BUF!\n")).tcp_close tpcb
  else
    let net := { net with sent := net.sent ++ [(tpcb, net.request.str)] }
    let net := if lwip.tcp_output net ≠ 0 then
        ((net.print_string (ascii "Network: tcp_output() FAILED (err=")).kprint_dec (lwip.tcp_output net)).print_string
          (ascii ")\n")
      else net
    ((net.print_string (ascii "Network: HTTP POST sent (")).kprint_dec req_len).print_string
      (ascii " bytes). Waiting for Ollama...\n")

def ollama_connected_cb (lwip : Lwip) (net : Net) (tpcb err : ℕ) : Net :=
  if err ≠ 0 then
    ((net.print_string (ascii "Network: Connection to Ollama FAILED (err=")).kprint_dec err).print_string
      (ascii ").\nJARVIS [/] $ ")
  else
    let net := net.print_string (ascii "Network: Connected! Model: " ++ OLLAMA_MODEL ++ [newline])
    net.build_request.send_request lwip tpcb

theorem print_string_nil (net : Net) : net.print_string [] = net := by
  rw [Net.print_string, List.append_nil]

theorem print_string_print_string (net : Net) (s t : CStr) : (net.print_string s).print_string t = net.print_string (s ++ t) := by
  simp only [Net.print_string, List.append_assoc]

/-- A request starts over, prints something and may open a connection. -/
theorem request_cases (lwip : Lwip) (net : Net) (fat32_cwd_path : CwdPath) (ip_str prompt : CStr) :
    ∃ s, ollama_request lwip net fat32_cwd_path ip_str prompt = (net.set_prompt fat32_cwd_path ip_str prompt).print_string s ∨
      ollama_request lwip net fat32_cwd_path ip_str prompt =
        ((net.set_prompt fat32_cwd_path ip_str prompt).print_string s).connect := by
  simp only [ollama_request]
  generalize net.set_prompt fat32_cwd_path ip_str prompt = net
  split
  · exact ⟨_, .inl rfl⟩
  · split
    · exact ⟨_, .inl rfl⟩
    · obtain ⟨s, hs⟩ : ∃ s, (if lwip.netif_default net then
          ((net.print_string (ascii "Network: ARP pre-warm sent for ")).print_string ip_str).print_string [newline] else net) =
          net.print_string s := by
        split
        · exact ⟨_, by rw [print_string_print_string, print_string_print_string]⟩
        · exact ⟨[], (print_string_nil net).symm⟩
      rw [hs]
      split
      · exact ⟨s, .inr rfl⟩
      · exact ⟨_, .inl (print_string_print_string ..)⟩

/-- A feedback request starts over, and it prints something, or it extends the prompt and
    may open a connection. -/
theorem feedback_request_cases (lwip : Lwip) (net : Net) (ip_str feedback : CStr) :
    (∃ s, ollama_feedback_request lwip net ip_str feedback = { net with rx_accum := net.rx_accum.restart }.print_string s) ∨
    net.global_prompt.str.length + feedback.length + 5 < 8192 ∧ ∃ net', net' = { net with
        rx_accum := net.rx_accum.restart
        global_prompt := (net.global_prompt.strcat [newline, newline]).strcat feedback } ∧
      (ollama_feedback_request lwip net ip_str feedback = net' ∨ ollama_feedback_request lwip net ip_str feedback = net'.connect) := by
  simp only [ollama_feedback_request]
  split
  · rename_i hfits
    refine .inr ⟨hfits, _, rfl, ?_⟩
    split
    · exact .inr rfl
    · exact .inl rfl
  · exact .inl ⟨_, rfl⟩

/-- Building a request touches nothing but the buffers for it and the screen. -/
structure SameConnections (net net' : Net) : Prop where
  rx_accum : net'.rx_accum = net.rx_accum
  parsed : net'.parsed = net.parsed
  flight : net'.flight = net.flight

theorem same_print (net : Net) (s : CStr) : SameConnections net (net.print_string s) := ⟨rfl, rfl, rfl⟩

theorem SameConnections.trans {net net' net'' : Net} (h : SameConnections net net') (h' : SameConnections net' net'') :
    SameConnections net net'' :=
  ⟨h'.rx_accum.trans h.rx_accum, h'.parsed.trans h.parsed, h'.flight.trans h.flight⟩

theorem SameConnections.tcp_close {net net' : Net} (h : SameConnections net net') (tpcb : ℕ) :
    SameConnections (net.tcp_close tpcb) (net'.tcp_close tpcb) :=
  ⟨h.rx_accum, h.parsed, by simp only [Net.tcp_close, h.flight]⟩

theorem build_body_connections (net : Net) : SameConnections net net.build_body := by
  simp only [Net.build_body]
  generalize net.json_body.strcpy body_head = json_body
  split
  · exact ⟨rfl, rfl, rfl⟩
  · have hprint := same_print net (ascii "Network: Prompt truncated (too long).\n")
    exact ⟨hprint.rx_accum, hprint.parsed, hprint.flight⟩

theorem build_request_connections (net : Net) : SameConnections net net.build_request := by
  have hescape : SameConnections net net.escape_prompt := ⟨rfl, rfl, rfl⟩
  have hwrap : ∀ net : Net, SameConnections net net.wrap_body := fun _ => ⟨rfl, rfl, rfl⟩
  exact (hescape.trans (build_body_connections _)).trans (hwrap _)

/-- Sending it may end the connection. -/
theorem send_request_connections (lwip : Lwip) (net : Net) (tpcb : ℕ) :
    SameConnections net (net.send_request lwip tpcb) ∨ SameConnections (net.tcp_close tpcb) (net.send_request lwip tpcb) := by
  have hthree : ∀ (net : Net) (s t u : CStr), SameConnections net (((net.print_string s).print_string t).print_string u) :=
    fun net s t u => ((same_print net s).trans (same_print _ t)).trans (same_print _ u)
  have hsent : SameConnections net { net with sent := net.sent ++ [(tpcb, net.request.str)] } := ⟨rfl, rfl, rfl⟩
  simp only [Net.send_request, Net.kprint_dec]
  split
  · exact .inr ((same_print net _).tcp_close tpcb)
  · split
    · exact .inr ((hthree net _ _ _).tcp_close tpcb)
    · split
      · exact .inl ((hsent.trans (hthree _ _ _ _)).trans (hthree _ _ _ _))
      · exact .inl (hsent.trans (hthree _ _ _ _))

theorem connected_connections (lwip : Lwip) (net : Net) (tpcb err : ℕ) :
    SameConnections net (ollama_connected_cb lwip net tpcb err) ∨
      SameConnections (net.tcp_close tpcb) (ollama_connected_cb lwip net tpcb err) := by
  simp only [ollama_connected_cb, Net.kprint_dec]
  split
  · exact .inl (((same_print net _).trans (same_print _ _)).trans (same_print _ _))
  · generalize ascii "Network: Connected! Model: " ++ OLLAMA_MODEL ++ [newline] = s
    have hbuilt := (same_print net s).trans (build_request_connections (net.print_string s))
    generalize (net.print_string s).build_request = built at hbuilt
    obtain hsent | hsent := send_request_connections lwip built tpcb
    · exact .inl (hbuilt.trans hsent)
    · exact .inr ((hbuilt.tcp_close tpcb).trans hsent)

end os_dev.net_stack
