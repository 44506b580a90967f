import Mathlib.Data.List.DropRight
import OsDev.Agent
import OsDev.Net.NetStack

open os_dev.libc os_dev.fat32 os_dev.agent

namespace os_dev.shell

/-- A command line after it has been taken apart. -/
inductive Command where
  | nothing
  | ls (path : Option CStr)
  | cd (path : CStr)
  | cat (file : CStr)
  | touch (file : CStr)
  | write (file text : CStr)
  | rm (file : CStr)
  | mkdir (dir : CStr)
  | rmdir (dir : CStr)
  | clear
  | echo (arg : Option CStr)
  | reboot
  | ai (ip_str prompt : CStr)
  | ai_mock
  | ping (ip_str : CStr)
  | agent_ctx_set (key value : CStr)
  | agent_ctx_get (key : CStr)
  | agent_task (instruction : CStr)
  | report (cmd : CStr) (arg : Option CStr)
  | usage (text : CStr)
  | unknown
  deriving DecidableEq

/-- Without the spaces around it. -/
def trim (line : CStr) : CStr := (line.dropWhile (· = space)).rdropWhile (· = space)

/-- Everything in front of the first space, and behind it, if there is one. -/
def split_space (s : CStr) : Option (CStr × CStr) :=
  if space ∈ s then some (s.takeWhile (· ≠ space), (s.dropWhile (· ≠ space)).tail) else none

/-- Without the slashes at its end, except for the first character. -/
def strip_slashes : CStr → CStr
  | [] => []
  | c :: rest => c :: rest.rdropWhile (· = slash)

/-- The argument behind the first space of a trimmed line. -/
def argument (rest : CStr) : Option CStr :=
  let arg := rest.dropWhile (· = space)
  if arg = [] then none else some (strip_slashes arg)

/-- The name of the command, and its argument. -/
def split_line (cmd : CStr) : CStr × Option CStr :=
  match split_space cmd with
  | some (cmd, rest) => (cmd, argument rest)
  | none => (cmd, none)

/-- The commands that need an argument. -/
def with_arg (usage : CStr) (arg : Option CStr) (command : CStr → Command) : Command :=
  match arg with
  | some arg => command arg
  | none => .usage usage

/-- The commands that need an argument of two parts. -/
def with_two (usage : CStr) (arg : Option CStr) (command : CStr → CStr → Command) : Command :=
  with_arg usage arg fun arg =>
    match split_space arg with
    | some (first, second) => command first second
    | none => .usage usage

/-- The commands that only show what other parts of the kernel report. -/
def reports : List CStr :=
  [ascii "help", ascii "ps", ascii "mem", ascii "sysinfo", ascii "cpuid", ascii "arch", ascii "pci", ascii "ahci",
    ascii "ifconfig", ascii "netstat", ascii "pktdump"]

def ai_command (ip_str prompt : CStr) : Command :=
  let prompt := prompt.dropWhile (· = space)
  if prompt = [] then .usage (ascii "Usage: ai <ip> <prompt>\n") else .ai ip_str prompt

/-- The tests on the name of the command, one after the other. -/
def command_of (cmd : CStr) (arg : Option CStr) : Command :=
  if cmd = ascii "ls" then .ls arg
  else if cmd = ascii "cd" then with_arg (ascii "Usage: cd <path>\n") arg .cd
  else if cmd = ascii "cat" then with_arg (ascii "Usage: cat <file>\n") arg .cat
  else if cmd = ascii "touch" then with_arg (ascii "Usage: touch <file>\n") arg .touch
  else if cmd = ascii "write" then with_two (ascii "Usage: write <file> <text>\n") arg .write
  else if cmd = ascii "rm" then with_arg (ascii "Usage: rm <file>\n") arg .rm
  else if cmd = ascii "mkdir" then with_arg (ascii "Usage: mkdir <dir>\n") arg .mkdir
  else if cmd = ascii "rmdir" then with_arg (ascii "Usage: rmdir <dir>\n") arg .rmdir
  else if cmd = ascii "clear" then .clear
  else if cmd = ascii "echo" then .echo arg
  else if cmd = ascii "reboot" then .reboot
  else if cmd = ascii "ai" then with_two (ascii "Usage: ai <ip> <prompt>\n") arg ai_command
  else if cmd = ascii "ai_mock" then .ai_mock
  else if cmd = ascii "ping" then with_arg (ascii "Usage: ping <ip>\n") arg .ping
  else if cmd = ascii "agent_ctx_set" then with_two (ascii "Usage: agent_ctx_set <key> <value>\n") arg .agent_ctx_set
  else if cmd = ascii "agent_ctx_get" then with_arg (ascii "Usage: agent_ctx_get <key>\n") arg .agent_ctx_get
  else if cmd = ascii "agent_task" then with_arg (ascii "Usage: agent_task <instruction>\n") arg .agent_task
  else if cmd ∈ reports then .report cmd arg
  else .unknown

/-- Take a command line apart. -/
def parse_line (line : CStr) : Command :=
  let cmd := trim line
  if cmd = [] then .nothing else command_of (split_line cmd).1 (split_line cmd).2

/-- One line of a listing. -/
def ls_callback (os : Os) (r : Report) : Os :=
  let name := cstr r.name
  let dir := r.attr &&& FAT_ATTR_DIRECTORY ≠ 0
  let os := os.print_string (if dir then ascii "<DIR> " else ascii "      ")
  let os := (os.print_string name).print_string (List.replicate (15 - name.length) space)
  let os := if dir then os else (os.print_string (net_stack.itoa r.size)).print_string (ascii " bytes")
  os.print_string (ascii "\n")

def fat32_ls (fuel : ℕ) (os : Os) (cluster : ℕ) : Option Os := do
  let (_, reports) ← fat32_list_dir fuel os.fs cluster
  return reports.foldl ls_callback os

def ls_command (fuel : ℕ) (os : Os) : Option CStr → Option Os
  | none => fat32_ls fuel os 0
  | some path => do
    let cluster ← fat32_resolve_path fuel os.fs path
    if cluster ≠ 0 then fat32_ls fuel os cluster
    else return os.print_string (ascii "Directory not found!\n")

def cd_command (fuel : ℕ) (os : Os) (path : CStr) : Option Os := do
  let (rc, fs) ← fat32_chdir fuel os.fs path
  let os := { os with fs := fs }
  return if rc ≠ 0 then os.print_string (ascii "Directory not found!\n") else os

def cat_command (fuel : ℕ) (os : Os) (file : CStr) : Option Os := do
  let (fd, fs) ← fat32_open fuel os.fs file mode_r
  let os := { os with fs := fs }
  if 0 ≤ fd then
    let os ← print_file fuel os fd
    let os := { os with fs := fat32_close os.fs fd }
    return os.print_string (ascii "\n")
  else return os.print_string (ascii "File not found!\n")

def touch_command (fuel : ℕ) (os : Os) (file : CStr) : Option Os := do
  let (fd, fs) ← fat32_open fuel os.fs file mode_w
  let os := { os with fs := fs }
  if 0 ≤ fd then
    let os := { os with fs := fat32_close os.fs fd }
    return os.print_string (ascii "File created.\n")
  else return os.print_string (ascii "Failed to create file.\n")

def write_command (fuel : ℕ) (os : Os) (file text : CStr) : Option Os := do
  let (fd, fs) ← fat32_open fuel os.fs file mode_w
  let os := { os with fs := fs }
  if 0 ≤ fd then
    let (_, fs) := fat32_write os.fs fd text
    let os := { os with fs := fat32_close fs fd }
    return os.print_string (ascii "File written.\n")
  else return os.print_string (ascii "Failed to write to file.\n")

/-- The commands `rm`, `mkdir` and `rmdir` around their function of the file system. -/
def fs_command (f : Fat32 → Option (Int × Fat32)) (done failed : CStr) (os : Os) : Option Os := do
  let (rc, fs) ← f os.fs
  let os := { os with fs := fs }
  return os.print_string (if rc = 0 then done else failed)

/-- What the mock conversation, started by `ai_mock`, hands back to the shell are further
    command lines. -/
def execute (fuel : ℕ) (os : Os) : Command → Option Os
  | .nothing => some os
  | .ls path => ls_command fuel os path
  | .cd path => cd_command fuel os path
  | .cat file => cat_command fuel os file
  | .touch file => touch_command fuel os file
  | .write file text => write_command fuel os file text
  | .rm file => fs_command (fat32_unlink fuel · file) (ascii "File removed.\n") (ascii "Could not remove file.\n") os
  | .mkdir dir => fs_command (fat32_mkdir fuel · dir) (ascii "Directory created.\n") (ascii "Could not create directory.\n") os
  | .rmdir dir => fs_command (fat32_rmdir fuel · dir) (ascii "Directory removed.\n") (ascii "Could not remove directory.\n") os
  | .clear => some { os with screen := [] }
  | .echo arg => some ((os.print_string (arg.getD [])).print_string (ascii "\n"))
  | .reboot => some ((os.print_string (ascii "Rebooting...\n")).call .sys_reboot)
  | .ai ip_str prompt =>
    let os := ((os.print_string (ascii "Networking: Connecting to Cognitive Core (AI) at ")).print_string ip_str).print_string
      (ascii "...\n")
    let os := os.call (.ollama_request ip_str prompt)
    some (os.print_string (ascii "Network: Request queued. Waiting for Ollama response...\n"))
  | .ai_mock => some (os.call .ollama_mock_intercept)
  | .ping ip_str => some (os.call (.ping_request ip_str))
  | .agent_ctx_set key value => agent_ctx_set fuel os key value
  | .agent_ctx_get key => agent_ctx_get fuel os key
  | .agent_task instruction => some (agent_task os instruction)
  | .report cmd arg => some (os.call (.report cmd arg))
  | .usage text => some (os.print_string text)
  | .unknown => some (os.print_string (ascii "Unknown command. Type 'help' for assistance.\n"))

def shell_execute (fuel : ℕ) (os : Os) (cmd : CStr) : Option Os := execute fuel os (parse_line cmd)

theorem trim_length_le (line : CStr) : (trim line).length ≤ line.length :=
  Nat.le_trans (List.rdropWhile_prefix _ _).length_le (List.dropWhile_sublist _).length_le

theorem strip_slashes_length_le (arg : CStr) : (strip_slashes arg).length ≤ arg.length := by
  cases arg with
  | nil => exact Nat.le_refl _
  | cons c rest => exact Nat.succ_le_succ (List.rdropWhile_prefix _ rest).length_le

end os_dev.shell
