import OsDev.Net.ParseJson

open os_dev.libc char_array

namespace os_dev.net_stack

variable {σ : Type} {lwip : Lwip}

/-- What `shell_execute` does to the client: it prints, and some commands start a request
    or the mock conversation. -/
inductive ShellCalls (lwip : Lwip) : Net → Net → Prop
  | refl (net : Net) : ShellCalls lwip net net
  | print (net : Net) (s : CStr) : ShellCalls lwip net (net.print_string s)
  | request (net : Net) (cwd : CwdPath) (ip_str prompt : CStr) : ShellCalls lwip net (ollama_request lwip net cwd ip_str prompt)
  | mock {τ : Type} (shell : ShellExecute τ) (hshell : ∀ os net cmd, ShellCalls lwip net (shell os net cmd).2.1) (os : τ)
      (net : Net) : ShellCalls lwip net (ollama_mock_intercept lwip shell os net).2
  | trans {net net' net'' : Net} (h : ShellCalls lwip net net') (h' : ShellCalls lwip net' net'') : ShellCalls lwip net net''

/-- A shell that reaches the client through these calls only. -/
structure Shell (lwip : Lwip) (σ : Type) where
  execute : ShellExecute σ
  calls : ∀ os net cmd, ShellCalls lwip net (execute os net cmd).2.1

/-- What can happen next: a request, the mock conversation, or a callback for one of the
    connections. -/
inductive NetStep where
  | request (cwd : CwdPath) (ip_str prompt : CStr)
  | feedback_request (ip_str feedback : CStr)
  | mock_intercept
  | connected (tpcb err : ℕ)
  | recv (tpcb : ℕ) (p : List UInt8)
  | close (tpcb : ℕ)
  | error (tpcb err : ℕ)

/-- Callbacks come for connections in flight only, the one for a new connection before
    anything is received on it. -/
def step (lwip : Lwip) (shell : Shell lwip σ) (st : σ × Net) : NetStep → σ × Net
  | .request cwd ip_str prompt => (st.1, ollama_request lwip st.2 cwd ip_str prompt)
  | .feedback_request ip_str feedback => (st.1, ollama_feedback_request lwip st.2 ip_str feedback)
  | .mock_intercept => ollama_mock_intercept lwip shell.execute st.1 st.2
  | .connected tpcb err => if st.2.flight tpcb = some [] then (st.1, ollama_connected_cb lwip st.2 tpcb err) else st
  | .recv tpcb p => if (st.2.flight tpcb).isSome then ollama_recv_cb lwip shell.execute st.1 st.2 tpcb (some p) else st
  | .close tpcb => if (st.2.flight tpcb).isSome then ollama_recv_cb lwip shell.execute st.1 st.2 tpcb none else st
  | .error tpcb err => if (st.2.flight tpcb).isSome then (st.1, ollama_err_cb st.2 tpcb err) else st

def run (lwip : Lwip) (shell : Shell lwip σ) (st : σ × Net) (steps : List NetStep) : σ × Net :=
  steps.foldl (step lwip shell) st

/-- A network on which everything works. -/
def good_lwip : Lwip := ⟨fun _ => true, fun _ => true, fun _ => true, fun _ => 0, fun _ => 0, fun _ => 0⟩

/-- A shell that does nothing. -/
def idle_shell : ShellExecute Unit := fun os net _ => (os, net, [])

def idle (lwip : Lwip) : Shell lwip Unit := ⟨idle_shell, fun _ net _ => .refl net⟩

/-- The command in the buffer fits with its NUL. -/
def Parser.Sound (ps : Parser σ) : Prop := ps.intercept_cmd.Sound

variable {I : Net → Prop} {shell : ShellExecute σ} {ps : Parser σ} {c : UInt8} {rest : CStr}

theorem cstr_length_le (s : List UInt8) : (cstr s).length ≤ s.length := (List.takeWhile_sublist _).length_le

theorem first_word_length_le (cmd : CStr) : (first_word cmd).length ≤ cmd.length := by
  have hword := (List.takeWhile_sublist (p := fun c => decide (c ≠ space)) (l := cmd.dropWhile (· = space))).length_le
  have hsplit := congrArg List.length (List.takeWhile_append_dropWhile (p := (· = space)) (l := cmd))
  rw [List.length_append] at hsplit
  rw [first_word, List.length_append]
  omega

theorem Sound.take_char (h : ps.Sound) (c : UInt8) : (ps.take_char c).Sound := by
  unfold Parser.take_char
  split
  · split
    · rename_i hroom
      exact h.append (by rw [List.length_singleton]; rw [ICMD_MAX] at hroom; omega)
    · exact h
  · exact h

theorem Sound.finish (h : ps.Sound) : ps.finish.1.Sound ∧ ps.finish.2.length ≤ ICMD_MAX := by
  have hlen := (List.rdropWhile_prefix (· = space) ps.intercept_cmd.str).length_le
  have hbound := h.2
  have hcmd : (CharArray.mk (ps.intercept_cmd.str.rdropWhile (· = space)) ps.intercept_cmd.inside : CharArray 256).Sound :=
    ⟨h.1, by simp only; omega⟩
  have hcut := cstr_length_le (ps.intercept_cmd.str.rdropWhile (· = space))
  refine ⟨?_, ?_⟩
  · simp only [Parser.Sound, Parser.finish, hcmd.terminate]
    exact hcmd.restart
  · simp only [Parser.finish, hcmd.terminate, ICMD_MAX]
    omega

/-- A property that every way to change the client's variables keeps. -/
structure Kept (lwip : Lwip) (I : Net → Prop) : Prop where
  print : ∀ net s, I net → I (net.print_string s)
  executed : ∀ net cmd, I net → I { net with executed := net.executed ++ [cmd] }
  feedback_text : ∀ net cmd output, cmd.length ≤ ICMD_MAX → I net →
    I { net with feedback_prompt := feedback_text net.feedback_prompt cmd output }
  feedback_request : ∀ net ip_str feedback, I net → I (ollama_feedback_request lwip net ip_str feedback)
  request : ∀ net cwd ip_str prompt, I net → I (ollama_request lwip net cwd ip_str prompt)

/-- The shell keeps the property. -/
def KeptBy (shell : ShellExecute σ) (I : Net → Prop) : Prop := ∀ os net cmd, I net → I (shell os net cmd).2.1

theorem Kept.run_command (h : Kept lwip I) (hshell : KeptBy shell I) (hps : ps.Sound) (hI : I ps.net) (cmd : CStr) :
    (ps.run_command shell cmd).1.Sound ∧ I (ps.run_command shell cmd).1.net :=
  ⟨hps, hshell _ _ _ (h.executed _ _ (h.print _ _ (h.print _ _ (h.print _ _ hI))))⟩

theorem Kept.feedback (h : Kept lwip I) (hI : I ps.net) {cmd : CStr} (hcmd : cmd.length ≤ ICMD_MAX) (output : CStr) :
    I (ps.feedback lwip cmd output).net :=
  h.feedback_request _ _ _ (h.print _ _ (h.feedback_text _ _ _ hcmd hI))

theorem Kept.close_escaped (h : Kept lwip I) (hshell : KeptBy shell I) (hps : ps.Sound) (hI : I ps.net) :
    (ps.close_escaped shell).Sound ∧ I (ps.close_escaped shell).net :=
  h.run_command hshell (Sound.finish hps).1 hI _

theorem Kept.close_literal (h : Kept lwip I) (hshell : KeptBy shell I) (hps : ps.Sound) (hI : I ps.net) :
    (ps.close_literal lwip shell).Sound ∧ I (ps.close_literal lwip shell).net := by
  obtain ⟨hsound, hlen⟩ := Sound.finish hps
  simp only [Parser.close_literal]
  split
  · exact ⟨hsound, h.print _ _ hI⟩
  · obtain ⟨hsound', hI'⟩ := h.run_command hshell hsound hI ps.finish.2
    exact ⟨hsound', h.feedback hI' (Nat.le_trans (first_word_length_le _) hlen) _⟩

theorem Kept.take_char (h : Kept lwip I) (hps : ps.Sound) (hI : I ps.net) (c : UInt8) :
    (ps.take_char c).Sound ∧ I (ps.take_char c).net := by
  refine ⟨Sound.take_char hps c, ?_⟩
  unfold Parser.take_char
  split
  · split
    · exact hI
    · exact hI
  · exact h.print _ _ hI

theorem Kept.escaped (h : Kept lwip I) (hshell : KeptBy shell I) (hps : ps.Sound) (hI : I ps.net) (d : UInt8) :
    (ps.escaped shell d rest).2.Sound ∧ I (ps.escaped shell d rest).2.net := by
  unfold Parser.escaped
  split
  · split
    · exact ⟨CharArray.Sound.restart hps, hI⟩
    · exact h.take_char hps hI d
  · split
    · exact h.close_escaped hshell hps hI
    · exact h.take_char hps hI d

theorem Kept.literal (h : Kept lwip I) (hshell : KeptBy shell I) (hps : ps.Sound) (hI : I ps.net) :
    (ps.literal lwip shell c rest).2.Sound ∧ I (ps.literal lwip shell c rest).2.net := by
  unfold Parser.literal
  split
  · split
    · exact ⟨CharArray.Sound.restart hps, hI⟩
    · exact h.take_char hps hI c
  · split
    · exact h.close_literal hshell hps hI
    · exact h.take_char hps hI c

theorem Kept.unless_catching (h : Kept lwip I) (hps : ps.Sound) (hI : I ps.net) (s : CStr) :
    (if ps.catching then ps else ps.print_string s).Sound ∧ I (if ps.catching then ps else ps.print_string s).net := by
  split
  · exact ⟨hps, hI⟩
  · exact ⟨hps, h.print _ _ hI⟩

theorem Kept.round (h : Kept lwip I) (hshell : KeptBy shell I) (hps : ps.Sound) (hI : I ps.net) :
    (ps.round lwip shell c rest).2.Sound ∧ I (ps.round lwip shell c rest).2.net := by
  unfold Parser.round
  split
  · split
    · exact h.literal hshell hps hI
    · split
      · split
        · exact h.escaped hshell hps hI _
        · exact h.literal hshell hps hI
      · split
        · exact h.unless_catching hps hI _
        · split
          · exact h.unless_catching hps hI _
          · split
            · exact h.take_char hps hI quote
            · split
              · exact h.take_char hps hI backslash
              · exact h.literal hshell hps hI
  · exact h.literal hshell hps hI

theorem Kept.loop (h : Kept lwip I) (hshell : KeptBy shell I) (fuel : ℕ) (resp : CStr) (hps : ps.Sound) (hI : I ps.net) :
    (Parser.loop lwip shell fuel resp ps).Sound ∧ I (Parser.loop lwip shell fuel resp ps).net := by
  induction fuel generalizing resp ps with
  | zero => exact ⟨hps, hI⟩
  | succ fuel ih =>
    cases resp with
    | nil => exact ⟨hps, hI⟩
    | cons c rest =>
      simp only [Parser.loop]
      split
      · exact ⟨hps, hI⟩
      · have hround := @Kept.round σ lwip I shell ps c rest h hshell hps hI
        generalize ps.round lwip shell c rest = next at hround
        obtain ⟨_ | resp, ps'⟩ := next
        · exact hround
        · exact ih resp hround.1 hround.2

/-- The parser keeps its command in the buffer, and the property. -/
theorem Kept.parse (h : Kept lwip I) (hshell : KeptBy shell I) (os : σ) {net : Net} (hI : I net) (payload : List UInt8) :
    (ollama_parse lwip shell os net payload).Sound ∧ I (ollama_parse lwip shell os net payload).net := by
  simp only [ollama_parse]
  split
  · exact ⟨CharArray.zeroed_sound (by decide), hI⟩
  · exact h.loop hshell _ _ (CharArray.zeroed_sound (by decide)) (h.print _ _ hI)

theorem Kept.calls (h : Kept lwip I) {net net' : Net} (hcalls : ShellCalls lwip net net') (hI : I net) : I net' := by
  induction hcalls with
  | refl net => exact hI
  | print net s => exact h.print net s hI
  | request net cwd ip_str prompt => exact h.request net cwd ip_str prompt hI
  | mock shell _ os net ih =>
    have hprinted := h.print net (ascii "Simulating AI Agent response (offline)...\n") hI
    have hparse := h.parse (fun os net cmd => ih os net cmd) os hprinted test_payload
    simp only [ollama_mock_intercept, ollama_parse_json]
    exact hparse.2
  | trans _ _ ih ih' => exact ih' (ih hI)

theorem Kept.by_shell (h : Kept lwip I) (shell : Shell lwip σ) : KeptBy shell.execute I :=
  fun os net cmd hI => h.calls (shell.calls os net cmd) hI

/-- A property that the callbacks of the connections keep as well. -/
structure KeptByCallbacks (lwip : Lwip) (shell : Shell lwip σ) (I : Net → Prop) : Prop where
  kept : Kept lwip I
  connected : ∀ net tpcb err, net.flight tpcb = some [] → I net → I (ollama_connected_cb lwip net tpcb err)
  recv : ∀ os net tpcb r p, net.flight tpcb = some r → I net → I (ollama_recv_cb lwip shell.execute os net tpcb (some p)).2
  close : ∀ os net tpcb, I net → I (ollama_recv_cb lwip shell.execute os net tpcb none).2
  error : ∀ net tpcb err, I net → I (ollama_err_cb net tpcb err)

theorem KeptByCallbacks.step {shell : Shell lwip σ} (h : KeptByCallbacks lwip shell I) {st : σ × Net} (hI : I st.2) (s : NetStep) :
    I (step lwip shell st s).2 := by
  cases s with
  | request cwd ip_str prompt => exact h.kept.request _ cwd ip_str prompt hI
  | feedback_request ip_str feedback => exact h.kept.feedback_request _ ip_str feedback hI
  | mock_intercept => exact h.kept.calls (ShellCalls.mock shell.execute shell.calls st.1 st.2) hI
  | connected tpcb err =>
    simp only [net_stack.step]
    split
    case isTrue hflight => exact h.connected _ tpcb err hflight hI
    case isFalse => exact hI
  | recv tpcb p =>
    simp only [net_stack.step]
    split
    case isTrue hflight =>
      obtain ⟨r, hr⟩ := Option.isSome_iff_exists.mp hflight
      exact h.recv _ _ tpcb r p hr hI
    case isFalse => exact hI
  | close tpcb =>
    simp only [net_stack.step]
    split
    · exact h.close _ _ tpcb hI
    · exact hI
  | error tpcb err =>
    simp only [net_stack.step]
    split
    · exact h.error _ tpcb err hI
    · exact hI

theorem KeptByCallbacks.run {shell : Shell lwip σ} (h : KeptByCallbacks lwip shell I) {st : σ × Net} (hI : I st.2) (steps : List NetStep) :
    I (run lwip shell st steps).2 := by
  induction steps generalizing st with
  | nil => exact hI
  | cons s steps ih => exact ih (h.step hI s)

end os_dev.net_stack
