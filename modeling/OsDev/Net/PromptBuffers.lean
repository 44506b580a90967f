import OsDev.Net.Conversation
import Mathlib.Tactic.Ring

open os_dev.libc char_array

namespace os_dev.net_stack

variable {σ : Type} {lwip : Lwip} {shell : Shell lwip σ} {st : σ × Net} {net : Net} {tpcb : ℕ}

/-- Every write to one of the static buffers so far has been inside of it. -/
structure Inside (net : Net) : Prop where
  global_prompt : net.global_prompt.inside = true
  global_ip_str : net.global_ip_str.inside = true
  context_prompt : net.context_prompt.inside = true
  escaped_prompt : net.escaped_prompt.inside = true
  json_body : net.json_body.inside = true
  request : net.request.inside = true
  rx_accum : net.rx_accum.inside = true
  feedback_prompt : net.feedback_prompt.inside = true

/-- The buffers hold strings that fit. -/
structure BuffersSound (net : Net) : Prop where
  global_prompt : net.global_prompt.Sound
  global_ip_str : net.global_ip_str.Sound
  context_prompt : net.context_prompt.Sound
  escaped_prompt : net.escaped_prompt.Sound
  json_body : net.json_body.Sound
  request : net.request.Sound
  rx_accum : net.rx_accum.Sound
  feedback_prompt : net.feedback_prompt.Sound

theorem BuffersSound.inside (h : BuffersSound net) : Inside net :=
  ⟨h.global_prompt.1, h.global_ip_str.1, h.context_prompt.1, h.escaped_prompt.1, h.json_body.1, h.request.1, h.rx_accum.1,
    h.feedback_prompt.1⟩

theorem boot_sound : BuffersSound boot := by
  constructor <;> exact CharArray.zeroed_sound (by decide)

theorem BuffersSound.print (h : BuffersSound net) (s : CStr) : BuffersSound (net.print_string s) :=
  ⟨h.1, h.2, h.3, h.4, h.5, h.6, h.7, h.8⟩

theorem BuffersSound.connect (h : BuffersSound net) : BuffersSound net.connect :=
  ⟨h.1, h.2, h.3, h.4, h.5, h.6, h.7, h.8⟩

theorem BuffersSound.tcp_close (h : BuffersSound net) (tpcb : ℕ) : BuffersSound (net.tcp_close tpcb) :=
  ⟨h.1, h.2, h.3, h.4, h.5, h.6, h.7, h.8⟩

theorem BuffersSound.restart (h : BuffersSound net) : BuffersSound { net with rx_accum := net.rx_accum.restart } :=
  ⟨h.1, h.2, h.3, h.4, h.5, h.6, h.rx_accum.restart, h.8⟩

/-- The path takes at most 255 bytes, and the user's prompt is cut so that the rest fits. -/
theorem context_text_sound {a : CharArray 1024} (h : a.Sound) (cwd : CwdPath) (prompt : CStr) : (context_text a cwd prompt).Sound := by
  have hhead : (ascii "[JARVIS OS STATE] CWD=").length = 22 := ascii_ofList_length _
  have htask : (ascii " | Task: ").length = 9 := ascii_ofList_length _
  have hnow : (ascii " | EXECUTE commands now.").length = 24 := ascii_ofList_length _
  have hcwd := cwd.bound
  simp only [context_text]
  generalize hctx : ((a.strcpy (ascii "[JARVIS OS STATE] CWD=")).strcat cwd.path).strcat (ascii " | Task: ") = ctx
  have hlen : ctx.str.length = 31 + cwd.path.length := by
    rw [← hctx]
    simp only [CharArray.strcpy, CharArray.strcat, List.length_append, hhead, htask]
    omega
  have hsound : ctx.Sound := by
    rw [← hctx]
    refine ((h.strcpy (by omega)).strcat ?_).strcat ?_
    · simp only [CharArray.strcpy]
      omega
    · simp only [CharArray.strcpy, CharArray.strcat, List.length_append]
      omega
  refine (hsound.strncpy (by omega)).strcat ?_
  simp only [CharArray.strncpy, List.length_append, List.length_take]
  omega

/-- The command takes at most 255 bytes, and its output is cut so that the rest fits. -/
theorem feedback_text_sound {a : CharArray 2048} (h : a.Sound) {cmd : CStr} (hcmd : cmd.length ≤ ICMD_MAX) (output : CStr) :
    (feedback_text a cmd output).Sound := by
  have hhead : (ascii "[AGENT EXEC RESULT] `").length = 21 := ascii_ofList_length _
  have hmiddle : (ascii "` \\nOutput:\\n\"").length = 14 := ascii_ofList_length _
  have hnext : (ascii "\"\\nNext? (Use <EXEC_CMD:stop> if done)").length = 38 := ascii_ofList_length _
  rw [ICMD_MAX] at hcmd
  simp only [feedback_text]
  generalize houtput : output.rdropWhile (· = newline) = output'
  generalize htext : ((a.strcpy (ascii "[AGENT EXEC RESULT] `")).strcat cmd).strcat (ascii "` \\nOutput:\\n\"") = text
  have hlen : text.str.length = 35 + cmd.length := by
    rw [← htext]
    simp only [CharArray.strcpy, CharArray.strcat, List.length_append, hhead, hmiddle]
    omega
  have hsound : text.Sound := by
    rw [← htext]
    refine ((h.strcpy (by omega)).strcat ?_).strcat ?_
    · simp only [CharArray.strcpy]
      omega
    · simp only [CharArray.strcpy, CharArray.strcat, List.length_append]
      omega
  refine (hsound.strcat ?_).strcat ?_
  · rw [List.length_take]
    omega
  · simp only [CharArray.strcat, List.length_append, List.length_take]
    omega

theorem BuffersSound.new_request (h : BuffersSound net) (lwip : Lwip) (cwd : CwdPath) (ip_str prompt : CStr) :
    BuffersSound (ollama_request lwip net cwd ip_str prompt) := by
  have hset : BuffersSound (net.set_prompt cwd ip_str prompt) := by
    have hcontext := context_text_sound h.context_prompt cwd prompt
    simp only [Net.set_prompt]
    generalize context_text net.context_prompt cwd prompt = context at hcontext
    exact ⟨h.global_prompt.strncpy (by omega), h.global_ip_str.strncpy (by decide), hcontext, h.escaped_prompt, h.json_body,
      h.request, h.rx_accum.restart, h.feedback_prompt⟩
  obtain ⟨s, heq | heq⟩ := request_cases lwip net cwd ip_str prompt
  · rw [heq]
    exact hset.print s
  · rw [heq]
    exact (hset.print s).connect

theorem BuffersSound.feedback_request (h : BuffersSound net) (lwip : Lwip) (ip_str feedback : CStr) :
    BuffersSound (ollama_feedback_request lwip net ip_str feedback) := by
  obtain ⟨s, heq⟩ | ⟨hfits, net', hnet', heq⟩ := feedback_request_cases lwip net ip_str feedback
  · rw [heq]
    exact h.restart.print s
  · have hblank : ([newline, newline] : CStr).length = 2 := rfl
    have hbreak : (net.global_prompt.strcat [newline, newline]).Sound := CharArray.Sound.strcat h.global_prompt (by omega)
    have hlen : (net.global_prompt.strcat [newline, newline]).str.length = net.global_prompt.str.length + 2 :=
      List.length_append
    have hprompt : ((net.global_prompt.strcat [newline, newline]).strcat feedback).Sound :=
      CharArray.Sound.strcat hbreak (by omega)
    have hset : BuffersSound net' := by
      rw [hnet']
      exact { h.restart with global_prompt := hprompt }
    obtain heq | heq := heq
    · rw [heq]
      exact hset
    · rw [heq]
      exact hset.connect

theorem sound_kept (lwip : Lwip) : Kept lwip BuffersSound where
  print := fun _ s h => h.print s
  executed := fun _ _ h => ⟨h.1, h.2, h.3, h.4, h.5, h.6, h.7, h.8⟩
  feedback_text := fun _ _ output hcmd h => { h with feedback_prompt := feedback_text_sound h.feedback_prompt hcmd output }
  feedback_request := fun _ ip_str feedback h => h.feedback_request lwip ip_str feedback
  request := fun _ cwd ip_str prompt h => h.new_request lwip cwd ip_str prompt

theorem escape_char_length (c : UInt8) : (escape_char c).length ≤ 2 := by
  unfold escape_char
  split_ifs <;> simp

theorem json_escape_loop_length {dst_max : ℕ} (hmax : 2 ≤ dst_max) (src out : CStr) (hout : out.length < dst_max) :
    (json_escape_loop dst_max src out).length < dst_max := by
  induction src generalizing out with
  | nil => exact hout
  | cons c src ih =>
    simp only [json_escape_loop]
    split
    · have hchar := escape_char_length c
      refine ih _ ?_
      rw [List.length_append]
      omega
    · exact hout

theorem json_escape_length (src : CStr) : (json_escape src 8192).length < 8192 :=
  json_escape_loop_length (by decide) src [] (by decide)

/-- The digits of a number below a power of ten. -/
theorem itoa_length {n k : ℕ} (h : n < 10 ^ (k + 1)) : (itoa n).length ≤ k + 1 := by
  rw [itoa, List.length_reverse]
  induction k generalizing n with
  | zero =>
    rw [itoa_loop, if_neg (by omega)]
    exact Nat.le_refl _
  | succ k ih =>
    rw [itoa_loop]
    split
    · rw [List.length_cons]
      exact Nat.succ_le_succ (ih (by rw [Nat.pow_succ] at h; omega))
    · rw [List.length_singleton]
      omega

theorem length_append_le {a b : CStr} {n m : ℕ} (ha : a.length ≤ n) (hb : b.length ≤ m) : (a ++ b).length ≤ n + m := by
  rw [List.length_append]
  omega

theorem ascii_length_le (l : List Char) : (ascii (String.ofList l)).length ≤ l.length := Nat.le_of_eq (ascii_ofList_length l)

theorem system_prompt_length : SYSTEM_PROMPT.length ≤ 1767 := by
  apply Nat.le_trans
  · unfold SYSTEM_PROMPT
    repeat' with_reducible apply length_append_le
    all_goals first | with_reducible exact ascii_length_le _ | exact Nat.le_refl em_dash.length
  · decide +kernel

theorem body_head_length : body_head.length ≤ 1810 := by
  have hopen : (ascii "\x7b\"model\":\"").length = 10 := ascii_ofList_length _
  have hmodel : OLLAMA_MODEL.length = 9 := ascii_ofList_length _
  have hsystem : (ascii "\",\"system\":\"").length = 12 := ascii_ofList_length _
  have hprompt : (ascii "\",\"prompt\":\"").length = 12 := ascii_ofList_length _
  have hlong := system_prompt_length
  rw [body_head, List.length_append, List.length_append, List.length_append, List.length_append]
  omega

theorem body_tail_length : body_tail.length = 17 := ascii_ofList_length _

theorem strcat_length {n : ℕ} (a : CharArray n) (s : CStr) : (a.strcat s).str.length = a.str.length + s.length :=
  List.length_append

theorem strcpy_length {n : ℕ} (a : CharArray n) (s : CStr) : (a.strcpy s).str.length = s.length := rfl

theorem BuffersSound.escape (h : BuffersSound net) : BuffersSound net.escape_prompt :=
  { h with escaped_prompt := CharArray.Sound.strcpy h.escaped_prompt (json_escape_length _) }

/-- Whatever happens to the prompt, the body stays far below its limit. -/
theorem build_body_sound (h : BuffersSound net) : BuffersSound net.build_body ∧ net.build_body.json_body.str.length ≤ 10018 := by
  have hhead := body_head_length
  have htail := body_tail_length
  have hescaped := h.escaped_prompt.2
  have hbody : (net.json_body.strcpy body_head).Sound := h.json_body.strcpy (by omega)
  have hbodylen : (net.json_body.strcpy body_head).str.length ≤ 1810 := by
    rw [strcpy_length]
    exact hhead
  simp only [Net.build_body]
  generalize net.json_body.strcpy body_head = json_body at hbody hbodylen
  split
  · have hlen := strcat_length json_body net.escaped_prompt.str
    have hfull := strcat_length (json_body.strcat net.escaped_prompt.str) body_tail
    have hwith : (json_body.strcat net.escaped_prompt.str).Sound := hbody.strcat (by omega)
    exact ⟨{ h with json_body := hwith.strcat (by omega) }, by simp only; omega⟩
  · have hfull := strcat_length json_body body_tail
    have hprint := h.print (ascii "Network: Prompt truncated (too long).\n")
    exact ⟨{ hprint with json_body := hbody.strcat (by omega) }, by simp only; omega⟩

/-- The headers take less than 200 bytes. -/
theorem request_text_sound {a : CharArray 16384} (h : a.Sound) {ip_str json_body : CStr} (hip : ip_str.length < 32)
    (hbody : json_body.length ≤ 10018) : (request_text a ip_str json_body).Sound := by
  have hpost : (ascii "POST /api/generate HTTP/1.1\r\n").length = 29 := ascii_ofList_length _
  have hhost : (ascii "Host: ").length = 6 := ascii_ofList_length _
  have hport : (ascii ":11434\r\n").length = 8 := ascii_ofList_length _
  have htype : (ascii "Content-Type: application/json\r\n").length = 32 := ascii_ofList_length _
  have hclose : (ascii "Connection: close\r\n").length = 19 := ascii_ofList_length _
  have hlength : (ascii "Content-Length: ").length = 16 := ascii_ofList_length _
  have hend : (ascii "\r\n\r\n").length = 4 := ascii_ofList_length _
  have hdigits : (itoa json_body.length).length ≤ 5 := itoa_length (show json_body.length < 10 ^ 5 by omega)
  simp only [request_text]
  generalize itoa json_body.length = len_str at hdigits
  generalize ascii "POST /api/generate HTTP/1.1\r\n" = post at hpost
  generalize ascii "Host: " = host at hhost
  generalize ascii ":11434\r\n" = port at hport
  generalize ascii "Content-Type: application/json\r\n" = type at htype
  generalize ascii "Connection: close\r\n" = close at hclose
  generalize ascii "Content-Length: " = length at hlength
  generalize ascii "\r\n\r\n" = blank at hend
  have h₁ : (a.strcpy post).Sound := h.strcpy (by omega)
  have h₂ := h₁.strcat (s := host) (by rw [strcpy_length]; omega)
  have h₃ := h₂.strcat (s := ip_str) (by rw [strcat_length, strcpy_length]; omega)
  have h₄ := h₃.strcat (s := port) (by simp only [strcat_length, strcpy_length]; omega)
  have h₅ := h₄.strcat (s := type) (by simp only [strcat_length, strcpy_length]; omega)
  have h₆ := h₅.strcat (s := close) (by simp only [strcat_length, strcpy_length]; omega)
  have h₇ := h₆.strcat (s := length) (by simp only [strcat_length, strcpy_length]; omega)
  have h₈ := h₇.strcat (s := len_str) (by simp only [strcat_length, strcpy_length]; omega)
  have h₉ := h₈.strcat (s := blank) (by simp only [strcat_length, strcpy_length]; omega)
  exact h₉.strcat (by simp only [strcat_length, strcpy_length]; omega)

theorem BuffersSound.wrap (h : BuffersSound net) (hlen : net.json_body.str.length ≤ 10018) : BuffersSound net.wrap_body :=
  { h with request := request_text_sound h.request h.global_ip_str.2 hlen }

theorem BuffersSound.build (h : BuffersSound net) : BuffersSound net.build_request := by
  obtain ⟨hbody, hlen⟩ := build_body_sound h.escape
  exact hbody.wrap hlen

theorem BuffersSound.send (h : BuffersSound net) (lwip : Lwip) (tpcb : ℕ) : BuffersSound (net.send_request lwip tpcb) := by
  have hsent : ∀ sent, BuffersSound { net with sent := sent } := fun _ => ⟨h.1, h.2, h.3, h.4, h.5, h.6, h.7, h.8⟩
  simp only [Net.send_request, Net.kprint_dec]
  split
  · exact (h.print _).tcp_close tpcb
  · split
    · exact (((h.print _).print _).print _).tcp_close tpcb
    · split
      · exact (((((hsent _).print _).print _).print _).print _).print _ |>.print _
      · exact (((hsent _).print _).print _).print _

theorem BuffersSound.connected (h : BuffersSound net) (lwip : Lwip) (tpcb err : ℕ) :
    BuffersSound (ollama_connected_cb lwip net tpcb err) := by
  simp only [ollama_connected_cb, Net.kprint_dec]
  split
  · exact ((h.print _).print _).print _
  · exact (h.print _).build.send lwip tpcb

theorem BuffersSound.recv (h : BuffersSound net) (exec : ShellExecute σ) (os : σ) (p : List UInt8) :
    BuffersSound (ollama_recv_cb lwip exec os net tpcb (some p)).2 := by
  have hlen := h.rx_accum.2
  have hflight : ∀ (net : Net) flight, BuffersSound net → BuffersSound { net with flight := flight } :=
    fun _ _ h => ⟨h.1, h.2, h.3, h.4, h.5, h.6, h.7, h.8⟩
  simp only [ollama_recv_cb]
  split
  · refine hflight { net with rx_accum := _ } _ { h with rx_accum := h.rx_accum.append ?_ }
    rw [List.length_take]
    omega
  · exact hflight net _ h

theorem BuffersSound.close (h : BuffersSound net) (shell : Shell lwip σ) (os : σ) :
    BuffersSound (ollama_recv_cb lwip shell.execute os net tpcb none).2 := by
  have hclosed := h.tcp_close tpcb
  have hrecorded : BuffersSound { net.tcp_close tpcb with
      rx_accum := net.rx_accum.terminate
      parsed := net.parsed ++ [(net.rx_accum.str, (net.flight tpcb).getD [])] } := by
    rw [h.rx_accum.terminate]
    exact ⟨h.1, h.2, h.3, h.4, h.5, h.6, h.7, h.8⟩
  simp only [ollama_recv_cb, ollama_parse_json]
  split
  · have hparse := ((sound_kept lwip).parse ((sound_kept lwip).by_shell shell) os hrecorded net.rx_accum.str).2
    exact (hparse.print _).restart
  · exact (hclosed.print _).restart

theorem sound_by_callbacks (lwip : Lwip) (shell : Shell lwip σ) : KeptByCallbacks lwip shell BuffersSound where
  kept := sound_kept lwip
  connected := fun _ tpcb err _ h => h.connected lwip tpcb err
  recv := fun os _ _ _ p _ h => h.recv shell.execute os p
  close := fun os _ _ h => h.close shell os
  error := fun net tpcb err h => by
    obtain ⟨s, heq⟩ := err_cb_eq net tpcb err
    rw [heq]
    exact ((h.tcp_close tpcb).print s).restart

theorem true_kept (lwip : Lwip) : Kept lwip fun _ => True :=
  ⟨fun _ _ _ => trivial, fun _ _ _ => trivial, fun _ _ _ _ _ => trivial, fun _ _ _ _ => trivial, fun _ _ _ _ _ => trivial⟩

/-- Whatever the user asks, the server answers and the commands print: in every run the
    static buffers are only written inside, and so is the buffer for a command whenever a
    response is parsed. -/
theorem conversation_inside (lwip : Lwip) (shell : Shell lwip σ) (os : σ) (steps : List NetStep) :
    Inside (run lwip shell (os, boot) steps).2 ∧
      ∀ (τ : Type) (exec : ShellExecute τ) (os' : τ) (net : Net) (payload : List UInt8),
        (ollama_parse lwip exec os' net payload).intercept_cmd.inside = true := by
  have hsound : BuffersSound (run lwip shell (os, boot) steps).2 := (sound_by_callbacks lwip shell).run boot_sound steps
  refine ⟨hsound.inside, fun τ exec os' net payload => ?_⟩
  exact ((true_kept lwip).parse (fun _ _ _ _ => trivial) os' trivial payload).1.1

end os_dev.net_stack
