import OsDev.Fat32.FileIo
import OsDev.Lib.CharArray

open os_dev.libc os_dev.fat32 char_array

namespace os_dev.agent

/-- What a command of the shell can hand over to other parts of the kernel. -/
inductive Call where
  | ollama_request (ip_str prompt : CStr)
  | ollama_mock_intercept
  | ping_request (ip_str : CStr)
  | sys_reboot
  | report (cmd : CStr) (arg : Option CStr)
  deriving DecidableEq

/-- The state that the commands work on. -/
structure Os where
  fs : Fat32
  screen : CStr
  calls : List Call

def Os.print_string (os : Os) (s : CStr) : Os := { os with screen := os.screen ++ s }

def Os.call (os : Os) (c : Call) : Os := { os with calls := os.calls ++ [c] }

/-- `while ((bytes = fat32_read(fd, buf, 512)) > 0)`: show a file in pieces, each of them
    up to its first NUL. -/
def print_file : ℕ → Os → Int → Option Os
  | 0, _, _ => none
  | fuel + 1, os, fd =>
    let (bytes, buf, fs) := fat32_read os.fs fd 512
    let os := { os with fs := fs }
    if 0 < bytes then print_file fuel (os.print_string (cstr buf)) fd else some os

/-- The file that holds the value of a key. -/
def ctx_path (key : CStr) : CharArray 128 :=
  (((CharArray.zeroed 128).strcpy (ascii "/agent/db/")).strcat key).strcat (ascii ".txt")

def agent_init (fuel : ℕ) (os : Os) : Option Os := do
  let (_, fs) ← fat32_mkdir fuel os.fs (ascii "/agent")
  let (_, fs) ← fat32_mkdir fuel fs (ascii "/agent/db")
  return { os with fs := fs }

def agent_ctx_set (fuel : ℕ) (os : Os) (key value : CStr) : Option Os := do
  let (fd, fs) ← fat32_open fuel os.fs (ctx_path key).str mode_w
  let os := { os with fs := fs }
  if 0 ≤ fd then
    let (_, fs) := fat32_write os.fs fd value
    let os := { os with fs := fat32_close fs fd }
    return ((os.print_string (ascii "Agent DB: Set '")).print_string key).print_string (ascii "' successfully.\n")
  else return os.print_string (ascii "Agent DB ERROR: Failed to write context.\n")

def agent_ctx_get (fuel : ℕ) (os : Os) (key : CStr) : Option Os := do
  let (fd, fs) ← fat32_open fuel os.fs (ctx_path key).str mode_r
  let os := { os with fs := fs }
  if 0 ≤ fd then
    let os := ((os.print_string (ascii "Agent DB Context [")).print_string key).print_string (ascii "]:\n")
    let os ← print_file fuel os fd
    let os := { os with fs := fat32_close os.fs fd }
    return os.print_string (ascii "\n")
  else
    return ((os.print_string (ascii "Agent DB ERROR: Context '")).print_string key).print_string (ascii "' not found.\n")

def agent_task (os : Os) (instruction : CStr) : Os :=
  let os := ((os.print_string (ascii ">> Spawning Agent Task: ")).print_string instruction).print_string (ascii "\n")
  os.call (.ollama_request (ascii "172.16.100.1") instruction)

end os_dev.agent
