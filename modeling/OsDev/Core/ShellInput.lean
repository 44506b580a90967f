import OsDev.Lib.CommonPrefix
import OsDev.Libc.Compare
import OsDev.Core.Shell

open os_dev.libc os_dev.fat32 os_dev.agent common_prefix char_array

namespace os_dev.shell

def etx : UInt8 := 0x03
def backspace : UInt8 := 0x08
def tab : UInt8 := 0x09
def line_feed : UInt8 := 0x0A

/-- The names that a first word is completed to. -/
def commands : List CStr :=
  ["ls", "cd", "cat", "touch", "write", "rm", "mkdir", "rmdir", "clear", "echo", "help", "ps", "mem", "reboot", "sysinfo",
    "cpuid", "arch", "pci", "ahci", "ifconfig", "netstat", "ai", "ai_mock", "pktdump", "ping", "agent_ctx_set",
    "agent_ctx_get", "agent_task"].map ascii

/-- The commands whose last word is completed to a file name. -/
def path_commands : List CStr := ["ls", "cd", "cat", "rm", "mkdir", "rmdir", "touch", "write"].map ascii

/-- The static variables of the completion of file names. -/
structure Completion where
  tc_best_match : CStr
  tc_match_count : ℕ
  tc_prefix : CStr
  tc_prefix_len : ℕ
  tc_is_dir : Bool

/-- The console: what stands in `shell_buffer` up to `buffer_idx`, and the rest of the kernel. -/
structure Console where
  os : Os
  shell_buffer : CStr
  tc : Completion
  rtl8169_live_pktdump : Bool

/-- The completion in front of a listing. -/
def Completion.begin (tc : Completion) (word : CStr) : Completion :=
  { tc with tc_match_count := 0, tc_prefix_len := word.length, tc_prefix := word, tc_best_match := [] }

def tc_callback (tc : Completion) (r : Report) : Completion :=
  let name := cstr r.name
  let dir : Bool := r.attr &&& FAT_ATTR_DIRECTORY ≠ 0
  if strncasecmp name tc.tc_prefix tc.tc_prefix_len = 0 then
    if tc.tc_match_count = 0 then { tc with tc_best_match := name, tc_match_count := 1, tc_is_dir := dir }
    else
      { tc with
        tc_best_match := common lower tc.tc_best_match name
        tc_match_count := tc.tc_match_count + 1
        tc_is_dir := tc.tc_is_dir && dir }
  else tc

def Console.print_string (st : Console) (s : CStr) : Console := { st with os := st.os.print_string s }

/-- The prompt in front of a new line. -/
def Console.prompt (st : Console) : Console :=
  ((st.print_string (ascii "JARVIS [")).print_string st.os.fs.fat32_cwd_path).print_string (ascii "] $ ")

/-- A character is typed if there is room and it is not a control character; `char` is signed. -/
def Console.type_char (st : Console) (c : UInt8) : Console :=
  if st.shell_buffer.length < 255 ∧ space ≤ c ∧ c < 0x80 then
    { st.print_string [c] with shell_buffer := st.shell_buffer ++ [c] }
  else st

def Console.interrupt (st : Console) : Console :=
  { st.print_string (ascii "^C\n") with shell_buffer := [], rtl8169_live_pktdump := false }.prompt

def Console.enter (fuel : ℕ) (st : Console) : Option Console := do
  let st := st.print_string [line_feed]
  let os ← shell_execute fuel st.os st.shell_buffer
  return { { st with os := os }.prompt with shell_buffer := [] }

def Console.erase (st : Console) : Console :=
  { st.print_string [backspace, space, backspace] with shell_buffer := st.shell_buffer.dropLast }

/-- What stands behind the last space. -/
def last_word (shell_buffer : CStr) : CStr := shell_buffer.rtakeWhile (· ≠ space)

/-- The first word, as it is copied to `cmd_name`. -/
def cmd_name (shell_buffer : CStr) : CStr := (shell_buffer.takeWhile (· ≠ space)).take 31

/-- The commands that the prefix is completed to: their number, and what they have in common. -/
def match_commands (word : CStr) : ℕ × CStr :=
  commands.foldl (fun (matched : ℕ × CStr) cmd =>
    if strncmp cmd word word.length = 0 then
      (matched.1 + 1, if matched.1 = 0 then cmd else common id matched.2 cmd)
    else matched) (0, [])

section Input

variable (input : Console → UInt8 → Option Console)

def complete_command (st : Console) (word : CStr) : Option Console :=
  let (match_count, common_prefix) := match_commands word
  if 0 < match_count then do
    let st ← (List.drop word.length common_prefix).foldlM input st
    if match_count = 1 then input st space else some st
  else some st

/-- `for (i = ...; tc_best_match[i] != '\0'; i++) shell_input(tc_best_match[i])`. -/
def replay : ℕ → ℕ → Console → Option Console
  | 0, _, _ => none
  | fuel + 1, i, st =>
    match st.tc.tc_best_match[i]? with
    | some c => input st c >>= replay fuel (i + 1)
    | none => some st

/-- Type what the completion has found. -/
def type_match (fuel : ℕ) (st : Console) : Option Console :=
  if 0 < st.tc.tc_match_count then do
    let st ← replay input fuel st.tc.tc_prefix_len st
    if st.tc.tc_match_count = 1 then input st (if st.tc.tc_is_dir then slash else space) else some st
  else some st

def complete_name (fuel : ℕ) (st : Console) (word : CStr) : Option Console := do
  let (_, reports) ← fat32_list_dir fuel st.os.fs st.os.fs.fat32_cwd_cluster
  type_match input fuel { st with tc := reports.foldl tc_callback (st.tc.begin word) }

/-- The tab branch. A word is copied to `prefix` without what is too long for it. -/
def complete (fuel : ℕ) (st : Console) : Option Console :=
  let word := (last_word st.shell_buffer).take 63
  if space ∉ st.shell_buffer then complete_command input st word
  else if path_commands.contains (cmd_name st.shell_buffer) then complete_name input fuel st word
  else some st

end Input

/-- One character from the keyboard. The characters of a completion go through here as well. -/
def shell_input : ℕ → Console → UInt8 → Option Console
  | 0, _, _ => none
  | fuel + 1, st, c =>
    if c = etx then some st.interrupt
    else if c = line_feed then st.enter fuel
    else if c = backspace ∧ st.shell_buffer ≠ [] then some st.erase
    else if c = tab then complete (shell_input fuel) fuel st
    else some (st.type_char c)

/-- A character that stands for itself. -/
def Printable (c : UInt8) : Prop := space ≤ c ∧ c < 0x7F

instance (c : UInt8) : Decidable (Printable c) := inferInstanceAs (Decidable (_ ∧ _))

variable {fuel : ℕ} {st : Console} {c : UInt8} {chars : CStr}

theorem Printable.ne (h : Printable c) {d : UInt8} (hd : d < space) : c ≠ d := by
  rintro rfl
  exact absurd h.1 (UInt8.not_le.mpr hd)

theorem shell_input_printable (h : Printable c) : shell_input (fuel + 1) st c = some (st.type_char c) := by
  rw [shell_input, if_neg (h.ne (by decide)), if_neg (h.ne (by decide)), if_neg fun hb => h.ne (by decide) hb.1,
    if_neg (h.ne (by decide))]

@[simp] theorem type_char_tc (st : Console) (c : UInt8) : (st.type_char c).tc = st.tc := by
  unfold Console.type_char
  split <;> rfl

/-- The characters of a word, typed one after the other. -/
def Console.type_word (st : Console) (chars : CStr) : Console := chars.foldl Console.type_char st

@[simp] theorem type_word_tc (st : Console) (chars : CStr) : (st.type_word chars).tc = st.tc := by
  induction chars generalizing st with
  | nil => rfl
  | cons c chars ih =>
    rw [Console.type_word, List.foldl_cons]
    exact (ih (st.type_char c)).trans (type_char_tc st c)

theorem type_char_buffer (h : Printable c) (hfits : st.shell_buffer.length ≤ 255) :
    (st.type_char c).shell_buffer = (st.shell_buffer ++ [c]).take 255 := by
  have hascii : c < 0x80 := UInt8.lt_trans h.2 (by decide)
  unfold Console.type_char
  split
  · rename_i hroom
    rw [List.take_of_length_le (by rw [List.length_append, List.length_singleton]; exact hroom.1)]
  · rename_i hroom
    have hfull : 255 ≤ st.shell_buffer.length := by
      by_contra hless
      exact hroom ⟨Nat.lt_of_not_le hless, h.1, hascii⟩
    rw [List.take_append_of_le_length hfull, List.take_of_length_le hfits]

theorem type_word_buffer (hprint : ∀ c ∈ chars, Printable c) (hfits : st.shell_buffer.length ≤ 255) :
    (st.type_word chars).shell_buffer = (st.shell_buffer ++ chars).take 255 := by
  induction chars generalizing st with
  | nil => rw [List.append_nil, List.take_of_length_le hfits]; rfl
  | cons c chars ih =>
    rw [List.forall_mem_cons] at hprint
    have hchar : (st.type_char c).shell_buffer = _ := type_char_buffer hprint.1 hfits
    have hfits' : (st.type_char c).shell_buffer.length ≤ 255 := by
      rw [hchar]
      exact List.length_take_le _ _
    have hrest : (st.type_word (c :: chars)).shell_buffer = _ := ih hprint.2 hfits'
    rw [hrest, hchar, take_append_take, List.append_assoc]
    rfl

/-- Typed back, the rest of the best match is appended. -/
theorem replay_printable {n i m : ℕ} (hprint : ∀ c ∈ st.tc.tc_best_match, Printable c)
    (hfuel : st.tc.tc_best_match.length - i < n) :
    replay (shell_input (m + 1)) n i st = some (st.type_word (st.tc.tc_best_match.drop i)) := by
  induction n generalizing i st with
  | zero => exact absurd hfuel (Nat.not_lt_zero _)
  | succ n ih =>
    rw [replay]
    cases hchar : st.tc.tc_best_match[i]? with
    | none =>
      rw [List.drop_of_length_le (List.getElem?_eq_none_iff.mp hchar)]
      rfl
    | some c =>
      obtain ⟨hi, rfl⟩ := List.getElem?_eq_some_iff.mp hchar
      have hc := hprint _ (List.getElem_mem hi)
      have hrest := @ih (st.type_char st.tc.tc_best_match[i]) (i + 1) (by rw [type_char_tc]; exact hprint)
        (by rw [type_char_tc]; omega)
      rw [type_char_tc] at hrest
      simp only [shell_input_printable hc]
      rw [List.drop_eq_getElem_cons hi]
      exact hrest

end os_dev.shell
