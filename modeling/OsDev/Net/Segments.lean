import OsDev.Net.Conversation

open os_dev.libc char_array

namespace os_dev.net_stack

variable {σ : Type} {lwip : Lwip} {shell : Shell lwip σ} {st : σ × Net} {net : Net} {tpcb : ℕ}

/-- What fits in the accumulation buffer with its NUL. -/
def ACCUM_MAX : ℕ := 8191

/-- No connection has received anything. -/
def AllSilent (net : Net) : Prop := ∀ c r, net.flight c = some r → r = []

/-- No connection but this one has received anything. -/
def OthersSilent (net : Net) (tpcb : ℕ) : Prop := ∀ c r, c ≠ tpcb → net.flight c = some r → r = []

/-- A step that comes while no other connection has received anything. -/
def Undisturbing (net : Net) : NetStep → Prop
  | .request _ _ _ => AllSilent net
  | .feedback_request _ _ => AllSilent net
  | .mock_intercept => AllSilent net
  | .connected _ _ => True
  | .recv tpcb _ => OthersSilent net tpcb
  | .close tpcb => OthersSilent net tpcb
  | .error tpcb _ => OthersSilent net tpcb

/-- Every step of a run is of this kind. -/
def OneAtATime (lwip : Lwip) (shell : Shell lwip σ) : σ × Net → List NetStep → Prop
  | _, [] => True
  | st, s :: steps => Undisturbing st.2 s ∧ OneAtATime lwip shell (step lwip shell st s) steps

/-- The buffer holds what the only connection that has received anything has received. -/
structure Separate (net : Net) : Prop where
  silent : AllSilent net → net.rx_accum.str = []
  active : ∀ tpcb r, net.flight tpcb = some r → r ≠ [] → net.rx_accum.str = r.take ACCUM_MAX ∧ OthersSilent net tpcb
  parsed : ∀ entry ∈ net.parsed, entry.1 = entry.2.take ACCUM_MAX

theorem boot_separate : Separate boot :=
  ⟨fun _ => rfl, nofun, nofun⟩

/-- Nothing has been received, and no more has been parsed. -/
def Quiet (emptied : Prop) (parsed : List (List UInt8 × List UInt8)) (net : Net) : Prop :=
  AllSilent net ∧ net.parsed = parsed ∧ (emptied → net.rx_accum.str = [])

variable {emptied : Prop} {parsed : List (List UInt8 × List UInt8)}

theorem Quiet.connect (h : Quiet emptied parsed net) : Quiet emptied parsed net.connect := by
  refine ⟨fun c r hr => ?_, h.2⟩
  simp only [Net.connect, Function.update_apply] at hr
  split at hr
  · exact (Option.some.inj hr).symm
  · exact h.1 c r hr

theorem Quiet.print (h : Quiet emptied parsed net) (s : CStr) : Quiet emptied parsed (net.print_string s) := h

theorem Quiet.request (h : Quiet emptied parsed net) (lwip : Lwip) (cwd : CwdPath) (ip_str prompt : CStr) :
    Quiet True parsed (ollama_request lwip net cwd ip_str prompt) := by
  have hset : Quiet True parsed (net.set_prompt cwd ip_str prompt) := ⟨h.1, h.2.1, fun _ => rfl⟩
  obtain ⟨s, heq | heq⟩ := request_cases lwip net cwd ip_str prompt
  · rw [heq]
    exact hset.print s
  · rw [heq]
    exact (hset.print s).connect

theorem Quiet.feedback_request (h : Quiet emptied parsed net) (lwip : Lwip) (ip_str feedback : CStr) :
    Quiet True parsed (ollama_feedback_request lwip net ip_str feedback) := by
  obtain ⟨s, heq⟩ | ⟨_, net', hnet', heq⟩ := feedback_request_cases lwip net ip_str feedback
  · rw [heq]
    exact ⟨h.1, h.2.1, fun _ => rfl⟩
  · have hset : Quiet True parsed net' := hnet' ▸ ⟨h.1, h.2.1, fun _ => rfl⟩
    obtain heq | heq := heq
    · rw [heq]
      exact hset
    · rw [heq]
      exact hset.connect

theorem Quiet.weaken (h : Quiet True parsed net) : Quiet emptied parsed net := ⟨h.1, h.2.1, fun _ => h.2.2 trivial⟩

theorem quiet_kept (lwip : Lwip) : Kept lwip (Quiet emptied parsed) where
  print := fun _ s h => h.print s
  executed := fun _ _ h => h
  feedback_text := fun _ _ _ _ h => h
  feedback_request := fun _ ip_str feedback h => (h.feedback_request lwip ip_str feedback).weaken
  request := fun _ cwd ip_str prompt h => (h.request lwip cwd ip_str prompt).weaken

/-- Quiet with an empty buffer. -/
theorem Quiet.separate (h : Quiet True parsed net) (hparsed : ∀ entry ∈ parsed, entry.1 = entry.2.take ACCUM_MAX) :
    Separate net :=
  ⟨fun _ => h.2.2 trivial, fun tpcb r hr hne => absurd (h.1 tpcb r hr) hne, h.2.1.symm ▸ hparsed⟩

theorem Separate.quiet (h : Separate net) (hsilent : AllSilent net) : Quiet True net.parsed net :=
  ⟨hsilent, rfl, fun _ => h.silent hsilent⟩

/-- The buffer for the connection that has a step. -/
theorem Separate.accum {r : List UInt8} (h : Separate net) (hothers : OthersSilent net tpcb) (hr : net.flight tpcb = some r) :
    net.rx_accum.str = r.take ACCUM_MAX := by
  by_cases hne : r = []
  · subst hne
    refine h.silent fun c r' hr' => ?_
    by_cases hc : c = tpcb
    · subst hc
      rw [hr] at hr'
      exact (Option.some.inj hr').symm
    · exact hothers c r' hc hr'
  · exact (h.active tpcb r hr hne).1

/-- Without its connection a buffer belongs to nobody. -/
theorem close_silent (hothers : OthersSilent net tpcb) : AllSilent (net.tcp_close tpcb) := by
  intro c r hr
  simp only [Net.tcp_close, Function.update_apply] at hr
  split at hr
  · cases hr
  · exact hothers c r ‹_› hr

/-- What a segment adds to the buffer. -/
theorem take_accum (r p : List UInt8) :
    r.take ACCUM_MAX ++ p.take (min p.length (8192 - (r.take ACCUM_MAX).length - 1)) = (r ++ p).take ACCUM_MAX := by
  rw [List.take_append, List.length_take]
  congr 1
  by_cases hlong : ACCUM_MAX ≤ r.length
  · rw [Nat.min_eq_left hlong, Nat.sub_eq_zero_of_le hlong]
    simp [ACCUM_MAX]
  · rw [Nat.min_eq_right (Nat.le_of_not_le hlong)]
    simp only [ACCUM_MAX] at hlong ⊢
    obtain hshort | hshort := Nat.le_total p.length (8191 - r.length)
    · rw [Nat.min_eq_left (by omega), List.take_length, List.take_of_length_le hshort]
    · rw [Nat.min_eq_right (by omega)]
      congr 1
      omega

/-- The bytes received on a connection, and as many of them as fit in the buffer. -/
def Net.accumulate (net : Net) (tpcb : ℕ) (r : List UInt8) : Net :=
  { net with
    rx_accum := ⟨r.take ACCUM_MAX, net.rx_accum.inside⟩
    flight := Function.update net.flight tpcb (some r) }

/-- A segment for a connection whose bytes are in the buffer. -/
theorem recv_eq (exec : ShellExecute σ) (os : σ) {r : List UInt8} (haccum : net.rx_accum.str = r.take ACCUM_MAX)
    (hr : net.flight tpcb = some r) (p : List UInt8) :
    ollama_recv_cb lwip exec os net tpcb (some p) = (os, net.accumulate tpcb (r ++ p)) := by
  have hlen : net.rx_accum.str.length ≤ 8191 := by
    rw [haccum]
    exact List.length_take_le ..
  have hadded := take_accum r p
  rw [← haccum] at hadded
  simp only [ollama_recv_cb, Net.accumulate]
  split
  · rename_i hcopy
    have happend : net.rx_accum.append (p.take (min p.length (8192 - net.rx_accum.str.length - 1))) =
        ⟨(r ++ p).take ACCUM_MAX, net.rx_accum.inside⟩ := by
      have hfits : net.rx_accum.str.length + (p.take (min p.length (8192 - net.rx_accum.str.length - 1))).length ≤ 8192 := by
        rw [List.length_take]
        omega
      rw [CharArray.append, hadded, CharArray.wrote, decide_eq_true hfits, Bool.and_true]
    simp only [happend, hr, Option.getD_some]
  · rename_i hcopy
    rw [Nat.eq_zero_of_not_pos hcopy, List.take_zero, List.append_nil] at hadded
    simp only [← hadded, hr, Option.getD_some]

theorem Separate.recv {r : List UInt8} (h : Separate net) (hothers : OthersSilent net tpcb) (hr : net.flight tpcb = some r)
    (exec : ShellExecute σ) (os : σ) (p : List UInt8) : Separate (ollama_recv_cb lwip exec os net tpcb (some p)).2 := by
  rw [recv_eq exec os (h.accum hothers hr) hr]
  refine ⟨fun hsilent => ?_, fun c r' hr' hne => ?_, h.parsed⟩
  · have hnil := hsilent tpcb (r ++ p) (Function.update_self ..)
    simp only [Net.accumulate, hnil, List.take_nil]
  · by_cases hc : c = tpcb
    · subst hc
      simp only [Net.accumulate, Function.update_self, Option.some.injEq] at hr'
      refine ⟨by rw [← hr']; rfl, fun d r'' hd hr'' => ?_⟩
      simp only [Net.accumulate, Function.update_of_ne hd] at hr''
      exact hothers d r'' hd hr''
    · simp only [Net.accumulate, Function.update_of_ne hc] at hr'
      exact absurd (hothers c r' hc hr') hne

/-- After a close nobody has received anything. -/
theorem Separate.close_quiet {r : List UInt8} (h : Separate net) (hothers : OthersSilent net tpcb)
    (hr : net.flight tpcb = some r) (shell : Shell lwip σ) (os : σ) :
    ∃ parsed, (∀ entry ∈ parsed, entry.1 = entry.2.take ACCUM_MAX) ∧
      Quiet True parsed (ollama_recv_cb lwip shell.execute os net tpcb none).2 := by
  have haccum := h.accum hothers hr
  have hsilent := close_silent hothers
  simp only [ollama_recv_cb, hr, Option.getD_some]
  split
  · have hquiet : Quiet False (net.parsed ++ [(net.rx_accum.str, r)]) { net.tcp_close tpcb with
        rx_accum := net.rx_accum.terminate
        parsed := net.parsed ++ [(net.rx_accum.str, r)] } := ⟨hsilent, rfl, False.elim⟩
    have hparse := ((quiet_kept lwip).parse ((quiet_kept lwip).by_shell shell) os hquiet net.rx_accum.str).2
    refine ⟨net.parsed ++ [(net.rx_accum.str, r)], fun entry hmem => ?_, hparse.1, hparse.2.1, fun _ => rfl⟩
    obtain hmem | hmem := List.mem_append.mp hmem
    · exact h.parsed entry hmem
    · rw [List.mem_singleton.mp hmem]
      exact haccum
  · exact ⟨net.parsed, h.parsed, hsilent, rfl, fun _ => rfl⟩

theorem Separate.close {r : List UInt8} (h : Separate net) (hothers : OthersSilent net tpcb) (hr : net.flight tpcb = some r)
    (shell : Shell lwip σ) (os : σ) : Separate (ollama_recv_cb lwip shell.execute os net tpcb none).2 := by
  obtain ⟨parsed, hparsed, hquiet⟩ := h.close_quiet hothers hr shell os
  exact hquiet.separate hparsed

theorem Separate.error (h : Separate net) (hothers : OthersSilent net tpcb) (err : ℕ) : Separate (ollama_err_cb net tpcb err) := by
  obtain ⟨s, heq⟩ := err_cb_eq net tpcb err
  rw [heq]
  exact Quiet.separate ⟨close_silent hothers, rfl, fun _ => rfl⟩ h.parsed

theorem Separate.of_same {net' : Net} (h : Separate net) (hsame : SameConnections net net') : Separate net' := by
  refine ⟨?_, ?_, hsame.parsed.symm ▸ h.parsed⟩
  · rw [AllSilent, hsame.flight, hsame.rx_accum]
    exact h.silent
  · simp only [OthersSilent, hsame.flight, hsame.rx_accum]
    exact h.active

theorem allSilent_of_close (hr : net.flight tpcb = some []) (hsilent : AllSilent (net.tcp_close tpcb)) : AllSilent net := by
  intro c r hc
  by_cases heq : c = tpcb
  · subst heq
    rw [hr] at hc
    exact (Option.some.inj hc).symm
  · refine hsilent c r ?_
    simp only [Net.tcp_close, Function.update_of_ne heq]
    exact hc

/-- A connection that has received nothing may end. -/
theorem Separate.drop (h : Separate net) (hr : net.flight tpcb = some []) : Separate (net.tcp_close tpcb) := by
  have hback : ∀ c r, (net.tcp_close tpcb).flight c = some r → net.flight c = some r := by
    intro c r hc
    simp only [Net.tcp_close, Function.update_apply] at hc
    split at hc
    · cases hc
    · exact hc
  refine ⟨fun hsilent => h.silent (allSilent_of_close hr hsilent), fun c r hc hne => ?_, h.parsed⟩
  obtain ⟨haccum, hothers⟩ := h.active c r (hback c r hc) hne
  exact ⟨haccum, fun d r' hd hr' => hothers d r' hd (hback d r' hr')⟩

theorem Separate.connected (h : Separate net) (hr : net.flight tpcb = some []) (err : ℕ) :
    Separate (ollama_connected_cb lwip net tpcb err) := by
  obtain hsame | hsame := connected_connections lwip net tpcb err
  · exact h.of_same hsame
  · exact (h.drop hr).of_same hsame

theorem Separate.step (h : Separate st.2) {s : NetStep} (hstep : Undisturbing st.2 s) : Separate (step lwip shell st s).2 := by
  cases s with
  | request cwd ip_str prompt => exact ((h.quiet hstep).request lwip cwd ip_str prompt).separate h.parsed
  | feedback_request ip_str feedback => exact ((h.quiet hstep).feedback_request lwip ip_str feedback).separate h.parsed
  | mock_intercept =>
    have hcalls := ShellCalls.mock shell.execute shell.calls st.1 st.2
    exact ((quiet_kept lwip).calls hcalls (h.quiet hstep)).separate h.parsed
  | connected tpcb err =>
    simp only [net_stack.step]
    split
    · exact h.connected ‹_› err
    · exact h
  | recv tpcb p =>
    simp only [net_stack.step]
    split
    · obtain ⟨r, hr⟩ := Option.isSome_iff_exists.mp ‹_›
      exact h.recv hstep hr shell.execute st.1 p
    · exact h
  | close tpcb =>
    simp only [net_stack.step]
    split
    · obtain ⟨r, hr⟩ := Option.isSome_iff_exists.mp ‹_›
      exact h.close hstep hr shell st.1
    · exact h
  | error tpcb err =>
    simp only [net_stack.step]
    split
    · exact h.error hstep err
    · exact h

theorem Separate.run (h : Separate st.2) {steps : List NetStep} (hsteps : OneAtATime lwip shell st steps) :
    Separate (run lwip shell st steps).2 := by
  induction steps generalizing st with
  | nil => exact h
  | cons s steps ih => exact ih (h.step hsteps.1) hsteps.2

/-- In every run in which no connection is opened, served or ended while another has
    received something: what is parsed on a close is what that connection has received. -/
theorem responses_do_not_mix (lwip : Lwip) (shell : Shell lwip σ) (os : σ) (steps : List NetStep)
    (hsteps : OneAtATime lwip shell (os, boot) steps) :
    ∀ entry ∈ (run lwip shell (os, boot) steps).2.parsed, entry.1 = entry.2.take ACCUM_MAX := by
  have hseparate : Separate (run lwip shell (os, boot) steps).2 := Separate.run boot_separate hsteps
  exact hseparate.parsed

theorem AllSilent.others (h : AllSilent net) (tpcb : ℕ) : OthersSilent net tpcb := fun c r _ hr => h c r hr

theorem OthersSilent.recv (h : OthersSilent st.2 tpcb) (p : List UInt8) :
    OthersSilent (step lwip shell st (.recv tpcb p)).2 tpcb := by
  intro c r hc hr
  simp only [net_stack.step] at hr
  split at hr
  · simp only [ollama_recv_cb, Function.update_of_ne hc] at hr
    split at hr
    · exact h c r hc hr
    · exact h c r hc hr
  · exact h c r hc hr

def root_path : CwdPath := ⟨[slash], by decide⟩

/-- Two requests, and their responses one after the other. -/
def two_responses : List NetStep :=
  [.request root_path (ascii "10.0.2.2") (ascii "hi"), .request root_path (ascii "10.0.2.2") (ascii "ho"),
    .recv 0 (ascii "x"), .close 0, .recv 1 (ascii "y"), .close 1]

theorem responses_do_not_mix_two :
    (run good_lwip (idle good_lwip) ((), boot) two_responses).2.parsed = [(ascii "x", ascii "x"), (ascii "y", ascii "y")] ∧
      ∀ entry ∈ (run good_lwip (idle good_lwip) ((), boot) two_responses).2.parsed, entry.1 = entry.2.take ACCUM_MAX := by
  have hboot : AllSilent boot := nofun
  have hfirst := (boot_separate.quiet hboot).request good_lwip root_path (ascii "10.0.2.2") (ascii "hi")
  have hboth := hfirst.request good_lwip root_path (ascii "10.0.2.2") (ascii "ho")
  have hopen : OthersSilent (run good_lwip (idle good_lwip) ((), boot) (two_responses.take 2)).2 0 := hboth.1.others 0
  have hrecv : OthersSilent (run good_lwip (idle good_lwip) ((), boot) (two_responses.take 3)).2 0 :=
    @OthersSilent.recv _ good_lwip (idle good_lwip) _ _ hopen (ascii "x")
  have hseparate : Separate (run good_lwip (idle good_lwip) ((), boot) (two_responses.take 3)).2 :=
    Separate.run boot_separate ⟨hboot, hfirst.1, hopen, trivial⟩
  obtain ⟨_, _, hclosed⟩ := hseparate.close_quiet hrecv rfl (idle good_lwip) ()
  refine ⟨by decide +kernel, responses_do_not_mix good_lwip (idle good_lwip) () _
    ⟨hboot, hfirst.1, hopen, hrecv, hclosed.1.others 1, (hclosed.1.others 1).recv _, trivial⟩⟩

/-- A second request between two segments of the first response: what came before it is
    lost, and the rest is parsed. -/
theorem second_request_loses_segment :
    let steps : List NetStep := [.request root_path (ascii "10.0.2.2") (ascii "hi"), .recv 0 (ascii "x"),
      .request root_path (ascii "10.0.2.2") (ascii "hi"), .recv 0 (ascii "y"), .close 0]
    (run good_lwip (idle good_lwip) ((), boot) steps).2.parsed = [(ascii "y", ascii "xy")] ∧
      ascii "y" ≠ (ascii "xy").take ACCUM_MAX := by
  decide +kernel

/-- Bytes in the buffer have been received on a connection that is still in flight. -/
def Attributed (net : Net) : Prop := AllSilent net → net.rx_accum.str = []

theorem Attributed.recv (h : Attributed net) {r : List UInt8} (hr : net.flight tpcb = some r) (exec : ShellExecute σ) (os : σ)
    (p : List UInt8) : Attributed (ollama_recv_cb lwip exec os net tpcb (some p)).2 := by
  intro hsilent
  have hflight : (ollama_recv_cb lwip exec os net tpcb (some p)).2.flight = Function.update net.flight tpcb (some (r ++ p)) := by
    simp only [ollama_recv_cb]
    split <;> rw [hr, Option.getD_some]
  rw [AllSilent, hflight] at hsilent
  obtain ⟨rfl, rfl⟩ := List.append_eq_nil_iff.mp (hsilent tpcb _ (Function.update_self ..))
  have hbefore : AllSilent net := by
    intro c r hc
    by_cases heq : c = tpcb
    · subst heq
      rw [hr] at hc
      exact (Option.some.inj hc).symm
    · exact hsilent c r (by rw [Function.update_of_ne heq, hc])
  simp only [ollama_recv_cb, List.length_nil, Nat.zero_min, Nat.lt_irrefl, if_false]
  exact h hbefore

theorem Attributed.of_same {net' : Net} (h : Attributed net) (hsame : SameConnections net net') : Attributed net' := by
  rw [Attributed, AllSilent, hsame.flight, hsame.rx_accum]
  exact h

theorem Attributed.drop (h : Attributed net) (hr : net.flight tpcb = some []) : Attributed (net.tcp_close tpcb) :=
  fun hsilent => h (allSilent_of_close hr hsilent)

end os_dev.net_stack
