import OsDev.Net.ResponseText

open os_dev.libc char_array

namespace os_dev.net_stack

variable {σ : Type} {lwip : Lwip} {shell : ShellExecute σ} {ps : Parser σ}
variable {text pre post body rest tail after : CStr} {c : UInt8}

/-- The text of a response that is written without escapes. -/
def literal_text (resp : CStr) : CStr := resp.takeWhile (· ≠ quote)

/-- A text that begins with an opening tag, and what follows the colon. -/
def TagAt (text after : CStr) : Prop := ∃ k, text = less :: (List.replicate k space ++ ascii "EXEC_CMD:") ++ after

/-- What stands in front of the first opening tag of a text, and what follows it. -/
structure FirstTag (text pre after : CStr) : Prop where
  tag : ∃ post, text = pre ++ post ∧ TagAt post after
  first : ∀ pre' post' after', text = pre' ++ post' → TagAt post' after' → pre.length ≤ pre'.length

/-- An opening tag with a closing bracket somewhere behind it. -/
def HasClosedTag (text : CStr) : Prop := ∃ pre post after, text = pre ++ post ∧ TagAt post after ∧ greater ∈ after

/-- The command of a tag. -/
def tag_command (after : CStr) : CStr :=
  (((after.dropWhile (· = space)).takeWhile (· ≠ greater)).take ICMD_MAX).rdropWhile (· = space)

/-- The output of a command goes to the server. -/
def Net.report (lwip : Lwip) (net : Net) (cmd output : CStr) : Net :=
  (Parser.feedback lwip ⟨(), net, false, .zeroed 256⟩ (first_word cmd) output).net

/-- What is done about a command: the conversation ends, or there is one call of the shell, announced before
    and reported after. -/
def run_once (lwip : Lwip) (shell : ShellExecute σ) (os : σ) (net : Net) (cmd : CStr) : σ × Net :=
  if cmd = ascii "stop" ∨ cmd = ascii "done" then (os, net.print_string (ascii "\n[JARVIS Agent Sequence Completed]\n"))
  else
    let net := net.print_string (ascii "\n[JARVIS Agent >> " ++ cmd ++ ascii "]\n")
    let (os, net, output) := shell os { net with executed := net.executed ++ [cmd] } cmd
    (os, net.report lwip cmd output)

/-- Where the parser stops without a command. -/
def Ends (tail : CStr) : Prop := tail = [] ∨ ∃ rest, tail = quote :: rest

theorem parse_ends (h : Ends tail) : Parser.parse lwip shell tail ps = ps := by
  rcases h with rfl | ⟨rest, rfl⟩
  · exact parse_nil
  · exact parse_quote

theorem not_mem_takeWhile_ne (c : UInt8) (s : CStr) : c ∉ s.takeWhile (· ≠ c) := by
  intro hmem
  have hne := List.mem_takeWhile_imp (p := fun b => decide (b ≠ c)) hmem
  exact of_decide_eq_true hne rfl

/-- A text up to a character that may stop it. -/
theorem takeWhile_ne_split (c : UInt8) (s : CStr) :
    s = s.takeWhile (· ≠ c) ∨ ∃ rest, s = s.takeWhile (· ≠ c) ++ c :: rest := by
  have hsplit := List.takeWhile_append_dropWhile (p := fun b => decide (b ≠ c)) (l := s)
  have hhead := List.head?_dropWhile_not (fun b => decide (b ≠ c)) s
  generalize s.dropWhile (fun b => decide (b ≠ c)) = after at hsplit hhead
  cases after with
  | nil => exact .inl (hsplit.symm.trans (List.append_nil _))
  | cons b rest =>
    obtain rfl : b = c := not_not.mp (of_decide_eq_false hhead)
    exact .inr ⟨rest, hsplit.symm⟩

theorem literal_text_ends (resp : CStr) : ∃ tail, resp = literal_text resp ++ tail ∧ Ends tail := by
  rcases takeWhile_ne_split quote resp with h | ⟨rest, h⟩
  · exact ⟨[], by rw [List.append_nil]; exact h, .inl rfl⟩
  · exact ⟨quote :: rest, h, .inr ⟨rest, rfl⟩⟩

section Tags

theorem open_tag_spaces (k : ℕ) (scan : CStr) : open_tag (List.replicate k space ++ scan) = open_tag scan := by
  induction k with
  | zero => rfl
  | succ k ih => rw [List.replicate_succ, List.cons_append, open_tag_space, ih]

theorem open_tag_word (after : CStr) : open_tag (ascii "EXEC_CMD:" ++ after) = some (after.dropWhile (· = space)) := by
  have hword : ascii "EXEC_CMD:" = [0x45, 0x58, 0x45, 0x43, 0x5F, 0x43, 0x4D, 0x44, 0x3A] := by decide
  have hscan : (ascii "EXEC_CMD:" ++ after).dropWhile (· = space) = ascii "EXEC_CMD:" ++ after := by
    rw [hword]
    rfl
  have hprefix : (ascii "EXEC_CMD:").isPrefixOf (ascii "EXEC_CMD:" ++ after) = true :=
    List.isPrefixOf_iff_prefix.mpr (List.prefix_append _ _)
  have hlen : (ascii "EXEC_CMD:").length = 9 := by decide
  rw [open_tag, hscan, if_pos hprefix, List.drop_left' hlen]

/-- The look-ahead finds exactly the opening tags. -/
theorem open_tag_eq_some_iff {scan resp : CStr} : open_tag scan = some resp ↔
    ∃ after, TagAt (less :: scan) after ∧ resp = after.dropWhile (· = space) := by
  constructor
  · intro h
    induction scan with
    | nil => cases h
    | cons b scan ih =>
      by_cases hb : b = space
      · subst hb
        rw [open_tag_space] at h
        obtain ⟨after, ⟨k, hk⟩, hresp⟩ := ih h
        refine ⟨after, ⟨k + 1, ?_⟩, hresp⟩
        rw [List.cons_append, List.cons_inj_right] at hk
        rw [List.replicate_succ, hk]
        rfl
      · obtain ⟨after, hafter⟩ := open_tag_isSome hb h
        rw [hafter, open_tag_word] at h
        refine ⟨after, ⟨0, ?_⟩, (Option.some.inj h).symm⟩
        rw [hafter]
        rfl
  · rintro ⟨after, ⟨k, hk⟩, rfl⟩
    rw [List.cons_append, List.cons_inj_right] at hk
    rw [hk, List.append_assoc, open_tag_spaces, open_tag_word]

theorem not_mem_tag {c : UInt8} (hless : c ≠ less) (hspace : c ≠ space) (hword : c ∉ ascii "EXEC_CMD:") (k : ℕ) :
    c ∉ less :: (List.replicate k space ++ ascii "EXEC_CMD:") := by
  rw [List.mem_cons, List.mem_append, List.mem_replicate]
  rintro (heq | ⟨-, heq⟩ | hmem)
  · exact hless heq
  · exact hspace heq
  · exact hword hmem

/-- A tag does not reach over the end of the text. -/
theorem TagAt.of_append (hends : Ends tail) (h : TagAt (text ++ tail) post) : ∃ after, TagAt text after ∧ post = after ++ tail := by
  obtain ⟨k, hk⟩ := h
  rcases List.append_eq_append_iff.mp hk with ⟨mid, htag, htail⟩ | ⟨after, htext, hpost⟩
  · cases mid with
    | nil =>
      rw [List.append_nil] at htag
      exact ⟨[], ⟨k, by rw [htag, List.append_nil]⟩, by rw [htail]; rfl⟩
    | cons b mid =>
      have hquote : b = quote := by
        rcases hends with rfl | ⟨rest, rfl⟩
        · cases htail
        · exact (List.cons.inj htail).1.symm
      have hmem : quote ∈ less :: (List.replicate k space ++ ascii "EXEC_CMD:") := by
        rw [htag, hquote]
        exact List.mem_append_right _ List.mem_cons_self
      exact absurd hmem (not_mem_tag (by decide) (by decide) (by decide) k)
  · exact ⟨after, ⟨k, htext⟩, hpost⟩

theorem first_tag_or_none (text : CStr) :
    (∃ pre after, FirstTag text pre after) ∨ ∀ pre post after, text = pre ++ post → ¬ TagAt post after := by
  induction text with
  | nil =>
    refine .inr fun pre post after heq => ?_
    obtain ⟨-, rfl⟩ := List.append_eq_nil_iff.mp heq.symm
    rintro ⟨k, hk⟩
    cases hk
  | cons c text ih =>
    by_cases hhere : ∃ after, TagAt (c :: text) after
    · obtain ⟨after, htag⟩ := hhere
      exact .inl ⟨[], after, ⟨_, rfl, htag⟩, fun _ _ _ _ _ => Nat.zero_le _⟩
    rcases ih with ⟨pre, after, ⟨⟨post, hpost, htag⟩, hfirst⟩⟩ | hnone
    · refine .inl ⟨c :: pre, after, ⟨post, by rw [hpost]; rfl, htag⟩, fun pre' post' after' heq htag' => ?_⟩
      cases pre' with
      | nil => exact absurd ⟨after', heq ▸ htag'⟩ hhere
      | cons b pre' => exact Nat.succ_le_succ (hfirst pre' post' after' (List.cons.inj heq).2 htag')
    · refine .inr fun pre post after heq htag => ?_
      cases pre with
      | nil => exact hhere ⟨after, heq ▸ htag⟩
      | cons b pre => exact hnone pre post after (List.cons.inj heq).2 htag

/-- The closing bracket of any tag stands behind the first one. -/
theorem HasClosedTag.first (h : HasClosedTag text) (hfirst : FirstTag text pre after) : greater ∈ after := by
  obtain ⟨pre', post', after', heq, htag', hmem⟩ := h
  obtain ⟨⟨post, hpost, ⟨k, hk⟩⟩, hle⟩ := hfirst
  obtain ⟨mid, hmid⟩ : ∃ mid, post = mid ++ post' := by
    have hlen := hle _ _ _ heq htag'
    rcases List.append_eq_append_iff.mp (hpost.symm.trans heq) with ⟨mid, -, hrest⟩ | ⟨mid, hsplit, hrest⟩
    · exact ⟨mid, hrest⟩
    · have hnil : mid = [] := List.length_eq_zero_iff.mp (by rw [hsplit, List.length_append] at hlen; omega)
      exact ⟨[], by rw [hrest, hnil]; rfl⟩
  obtain ⟨k', hk'⟩ := htag'
  have hin : greater ∈ post := by
    rw [hmid, hk']
    exact List.mem_append_right _ (List.mem_append_right _ hmem)
  rw [hk, List.mem_append] at hin
  exact hin.resolve_left (not_mem_tag (by decide) (by decide) (by decide) k)

end Tags

section Run

/-- A part of the text that is neither a quote nor a backslash. -/
def PlainText (s : CStr) : Prop := ∀ c ∈ s, c ≠ quote ∧ c ≠ backslash

theorem PlainText.cons (h : PlainText (c :: body)) : (c ≠ quote ∧ c ≠ backslash) ∧ PlainText body :=
  ⟨h c List.mem_cons_self, fun b hb => h b (List.mem_cons_of_mem _ hb)⟩

/-- What stands in front of the tags is printed. -/
theorem parse_before (hps : ps.catching = false) (hplain : PlainText pre)
    (hnone : ∀ pre' post' after', pre ++ rest = pre' ++ post' → TagAt post' after' → pre.length ≤ pre'.length) :
    Parser.parse lwip shell (pre ++ rest) ps = Parser.parse lwip shell rest (ps.print_string pre) := by
  induction pre generalizing ps with
  | nil => simp only [List.nil_append, Parser.print_string, print_string_nil]
  | cons c pre ih =>
    obtain ⟨⟨hquote, hback⟩, hpre⟩ := hplain.cons
    have htag : c = less → open_tag (pre ++ rest) = none := by
      rintro rfl
      cases hopen : open_tag (pre ++ rest) with
      | none => rfl
      | some resp =>
        obtain ⟨after, hafter, -⟩ := open_tag_eq_some_iff.mp hopen
        exact absurd (hnone [] _ after rfl hafter) (by simp)
    have hnext : ∀ pre' post' after', pre ++ rest = pre' ++ post' → TagAt post' after' → pre.length ≤ pre'.length := by
      intro pre' post' after' heq htag'
      exact Nat.le_of_succ_le_succ (hnone (c :: pre') post' after' (congrArg (c :: ·) heq) htag')
    have hrest : Parser.parse lwip shell (pre ++ rest) (ps.print_string [c]) =
        Parser.parse lwip shell rest ((ps.print_string [c]).print_string pre) := ih hps hpre hnext
    rw [List.cons_append, parse_literal hps hquote hback htag, hrest, print_string_append]
    rfl

/-- The parser behind an opening tag. -/
def caught (os : σ) (net : Net) (cmd : CStr) : Parser σ := ⟨os, net, true, ⟨cmd, true⟩⟩

variable {os : σ} {net : Net} {cmd : CStr}

theorem parse_tag (h : TagAt post after) : Parser.parse lwip shell (post ++ tail) ⟨os, net, false, .zeroed 256⟩ =
    Parser.parse lwip shell ((after ++ tail).dropWhile (· = space)) (caught os net []) := by
  obtain ⟨k, rfl⟩ := h
  have hopen : open_tag (List.replicate k space ++ ascii "EXEC_CMD:" ++ (after ++ tail)) =
      some ((after ++ tail).dropWhile (· = space)) := by
    rw [List.append_assoc, open_tag_spaces, open_tag_word]
  rw [List.cons_append, List.cons_append, List.append_assoc, parse_cons (by decide)]
  simp only [Parser.round, Parser.literal, hopen, if_neg (show less ≠ backslash by decide), Bool.false_eq_true, not_false_eq_true,
    true_and, if_true]
  rfl

theorem take_char_caught (hcmd : cmd.length ≤ ICMD_MAX) (c : UInt8) :
    (caught os net cmd).take_char c = caught os net ((cmd ++ [c]).take ICMD_MAX) := by
  by_cases hroom : cmd.length < ICMD_MAX
  · have hinside : (CharArray.mk cmd true : CharArray 256).wrote cmd.length 1 = true := by
      refine CharArray.wrote_eq_true rfl ?_
      rw [ICMD_MAX] at hroom
      exact Nat.le_of_lt (Nat.succ_lt_succ hroom)
    have htake : (caught os net cmd).take_char c = { caught os net cmd with intercept_cmd := CharArray.append ⟨cmd, true⟩ [c] } :=
      if_pos hroom
    rw [htake, List.take_of_length_le (by rw [List.length_append, List.length_singleton]; exact hroom)]
    simp only [caught, CharArray.append, List.length_singleton, hinside]
  · have htake : (caught os net cmd).take_char c = caught os net cmd := if_neg hroom
    rw [htake, List.take_append_of_le_length (Nat.le_of_not_lt hroom), List.take_of_length_le hcmd]

/-- What follows a tag is caught, as far as there is room. -/
theorem parse_caught (hplain : PlainText body) (hopen : greater ∉ body) (hcmd : cmd.length ≤ ICMD_MAX) :
    Parser.parse lwip shell (body ++ rest) (caught os net cmd) =
      Parser.parse lwip shell rest (caught os net ((cmd ++ body).take ICMD_MAX)) := by
  induction body generalizing cmd with
  | nil => rw [List.nil_append, List.append_nil, List.take_of_length_le hcmd]
  | cons c body ih =>
    obtain ⟨⟨hquote, hback⟩, hbody⟩ := hplain.cons
    rw [List.mem_cons, not_or] at hopen
    have hround : (caught os net cmd).round lwip shell c (body ++ rest) =
        (some (body ++ rest), caught os net ((cmd ++ [c]).take ICMD_MAX)) := by
      simp only [Parser.round, Parser.literal, if_neg hback, take_char_caught hcmd]
      simp only [caught, not_true_eq_false, false_and, if_false, true_and, if_neg (Ne.symm hopen.1)]
    rw [List.cons_append, parse_cons hquote, hround]
    simp only
    rw [ih hbody hopen.2 (List.length_take_le _ _), take_append_take, List.append_assoc]
    rfl

theorem rdropWhile_mem {p : UInt8 → Bool} {s : CStr} (h : c ∈ s.rdropWhile p) : c ∈ s :=
  (List.rdropWhile_prefix p s).subset h

/-- The closing bracket. -/
theorem parse_close (hnul : 0 ∉ cmd) :
    let ps := Parser.parse lwip shell (greater :: rest) (caught os net cmd)
    (ps.os, ps.net) = run_once lwip shell os net (cmd.rdropWhile (· = space)) := by
  have hround : (caught os net cmd).round lwip shell greater rest = (none, (caught os net cmd).close_literal lwip shell) := by
    simp only [Parser.round, Parser.literal, if_neg (show greater ≠ backslash by decide), caught, not_true_eq_false, false_and,
      if_false, true_and, if_true]
  have hstr : cstr (cmd.rdropWhile (· = space)) = cmd.rdropWhile (· = space) := by
    refine List.takeWhile_eq_self_iff.mpr fun b hb => ?_
    rw [decide_eq_true_eq]
    rintro rfl
    exact hnul (rdropWhile_mem hb)
  simp only
  rw [parse_cons (by decide), hround]
  simp only [Parser.close_literal, Parser.finish, caught, CharArray.terminate, hstr, run_once]
  split
  · rfl
  · simp only [Parser.run_command, Parser.print_string, print_string_print_string, Net.report, List.append_assoc]
    rfl

end Run

section LiteralText

variable {os : σ} {net : Net}

theorem tag_command_eq (hclosed : greater ∈ after) :
    ∃ body rest, after.dropWhile (· = space) = body ++ greater :: rest ∧ greater ∉ body ∧
      tag_command after = (body.take ICMD_MAX).rdropWhile (· = space) := by
  have hin : greater ∈ after.dropWhile (· = space) := by
    rw [← List.takeWhile_append_dropWhile (p := fun b => decide (b = space)) (l := after), List.mem_append] at hclosed
    refine hclosed.resolve_left fun hspaces => ?_
    have hspace := List.mem_takeWhile_imp (p := fun b => decide (b = space)) hspaces
    exact absurd (of_decide_eq_true hspace) (by decide)
  rcases takeWhile_ne_split greater (after.dropWhile (· = space)) with h | ⟨rest, h⟩
  · rw [h] at hin
    exact absurd hin (not_mem_takeWhile_ne greater _)
  · exact ⟨_, rest, h, not_mem_takeWhile_ne greater _, rfl⟩

theorem PlainText.of_subset {s t : CStr} (h : PlainText s) (hsub : t ⊆ s) : PlainText t := fun c hc => h c (hsub hc)

/-- The first tag of a text, as the parser meets it. -/
theorem parse_first_tag (hplain : PlainText text) (hends : Ends tail) (h : FirstTag text pre after) :
    Parser.parse lwip shell (text ++ tail) ⟨os, net, false, .zeroed 256⟩ =
      Parser.parse lwip shell ((after ++ tail).dropWhile (· = space)) (caught os (net.print_string pre) []) := by
  obtain ⟨⟨post, rfl, htag⟩, hfirst⟩ := h
  rw [List.append_assoc, parse_before rfl (hplain.of_subset (List.subset_append_left _ _)) fun pre' post' after' heq htag' => ?_]
  · exact parse_tag htag
  · rw [← List.append_assoc] at heq
    rcases List.append_eq_append_iff.mp heq with ⟨mid, hpre', -⟩ | ⟨mid, hsplit, hpost⟩
    · rw [hpre', List.length_append, List.length_append]
      omega
    · subst hpost
      obtain ⟨after'', htag'', -⟩ := htag'.of_append hends
      exact hfirst pre' mid after'' hsplit htag''

/-- A text without a tag is printed. -/
theorem parse_no_tag (hplain : PlainText text) (hends : Ends tail) (hnone : ∀ pre post after, text = pre ++ post → ¬ TagAt post after) :
    Parser.parse lwip shell (text ++ tail) ⟨os, net, false, .zeroed 256⟩ = ⟨os, net.print_string text, false, .zeroed 256⟩ := by
  rw [parse_before rfl hplain fun pre' post' after' heq htag' => ?_, parse_ends hends]
  · rfl
  · rcases List.append_eq_append_iff.mp heq with ⟨mid, hpre', -⟩ | ⟨mid, hsplit, hpost⟩
    · rw [hpre', List.length_append]
      omega
    · subst hpost
      obtain ⟨after'', htag'', -⟩ := htag'.of_append hends
      exact absurd htag'' (hnone pre' mid after'' hsplit)

/-- A closed tag in a text is run. -/
theorem parse_closed_tag (hplain : PlainText text) (hnul : 0 ∉ text) (hends : Ends tail) (h : FirstTag text pre after)
    (hclosed : greater ∈ after) :
    let ps := Parser.parse lwip shell (text ++ tail) ⟨os, net, false, .zeroed 256⟩
    (ps.os, ps.net) = run_once lwip shell os (net.print_string pre) (tag_command after) := by
  obtain ⟨body, rest, hsplit, hopen, hcmd⟩ := tag_command_eq hclosed
  have hsub : body ⊆ text := by
    obtain ⟨⟨post, rfl, k, rfl⟩, -⟩ := h
    intro c hc
    have hin : c ∈ after.dropWhile (· = space) := by
      rw [hsplit]
      exact List.mem_append_left _ hc
    exact List.mem_append_right _ (List.mem_append_right _ ((List.dropWhile_sublist _).subset hin))
  have hbehind : (after ++ tail).dropWhile (· = space) = body ++ greater :: (rest ++ tail) := by
    rw [List.dropWhile_append, hsplit]
    simp
  simp only
  rw [parse_first_tag hplain hends h, hbehind, parse_caught (hplain.of_subset hsub) hopen (Nat.zero_le _), List.nil_append, hcmd]
  exact parse_close fun hmem => hnul (hsub (List.mem_of_mem_take hmem))

/-- An open tag swallows the rest of the text. -/
theorem parse_open_tag (hplain : PlainText text) (hends : Ends tail) (h : FirstTag text pre after) (hopen : greater ∉ after) :
    let ps := Parser.parse lwip shell (text ++ tail) ⟨os, net, false, .zeroed 256⟩
    (ps.os, ps.net) = (os, net.print_string pre) := by
  have hsub : after ⊆ text := by
    obtain ⟨⟨post, rfl, k, rfl⟩, -⟩ := h
    exact fun c hc => List.mem_append_right _ (List.mem_append_right _ hc)
  have hspaces : (after.dropWhile (· = space)) ⊆ after := (List.dropWhile_sublist _).subset
  have hbehind : (after ++ tail).dropWhile (· = space) = after.dropWhile (· = space) ++ tail := by
    rw [List.dropWhile_append]
    split
    · rename_i hnil
      rw [List.isEmpty_iff.mp hnil, List.nil_append]
      rcases hends with rfl | ⟨rest, rfl⟩
      · rfl
      · rfl
    · rfl
  simp only
  rw [parse_first_tag hplain hends h, hbehind,
    parse_caught (hplain.of_subset (List.Subset.trans hspaces hsub)) (fun hmem => hopen (hspaces hmem)) (Nat.zero_le _), parse_ends hends]
  rfl

theorem strstr_suffix {needle haystack : CStr} (h : strstr needle haystack = some rest) : rest <:+ haystack := by
  induction haystack with
  | nil =>
    simp only [strstr, Option.ite_none_right_eq_some, Option.some.injEq] at h
    obtain ⟨-, rfl⟩ := h
    exact List.suffix_refl []
  | cons b haystack ih =>
    rw [strstr] at h
    split at h
    · obtain rfl := Option.some.inj h
      exact List.suffix_refl (b :: haystack)
    · exact (ih h).trans (List.suffix_cons b haystack)

theorem response_text_suffix {payload resp : CStr} (h : response_text payload = some resp) : resp <:+ payload := by
  simp only [response_text, Option.map_eq_some_iff] at h
  obtain ⟨found, hfound, rfl⟩ := h
  refine (List.drop_suffix 12 found).trans ((strstr_suffix hfound).trans ?_)
  split
  · exact (List.drop_suffix 4 _).trans (strstr_suffix ‹_›)
  · exact List.suffix_refl payload

/-- A text written out is run up to its first tag, if that tag is closed, and printed otherwise. -/
theorem literal_tag_runs_once (payload : List UInt8) (resp : CStr) (hresp : response_text (cstr payload) = some resp)
    (hliteral : backslash ∉ literal_text resp) (lwip : Lwip) (shell : ShellExecute σ) (os : σ) (net : Net) :
    let text := literal_text resp
    let result := ollama_parse_json lwip shell os net payload
    (HasClosedTag text → ∃ pre after, FirstTag text pre after ∧ greater ∈ after ∧
      result = run_once lwip shell os (net.print_string (ascii "\nAI: " ++ pre)) (tag_command after)) ∧
    (¬ HasClosedTag text → ∃ shown, shown <+: text ∧ result = (os, net.print_string (ascii "\nAI: " ++ shown))) := by
  obtain ⟨tail, htail, hends⟩ := literal_text_ends resp
  have hplain : PlainText (literal_text resp) := by
    refine fun c hc => ⟨?_, ?_⟩
    · rintro rfl
      exact not_mem_takeWhile_ne quote resp hc
    · rintro rfl
      exact hliteral hc
  have hnul : 0 ∉ literal_text resp := by
    intro hmem
    have hzero := (response_text_suffix hresp).subset ((List.takeWhile_prefix _).subset hmem)
    exact absurd rfl (of_decide_eq_true (List.mem_takeWhile_imp (p := fun b => decide (b ≠ 0)) hzero))
  have hresult : ollama_parse_json lwip shell os net payload =
      ((Parser.parse lwip shell (literal_text resp ++ tail) ⟨os, net.print_string (ascii "\nAI: "), false, .zeroed 256⟩).os,
        (Parser.parse lwip shell (literal_text resp ++ tail) ⟨os, net.print_string (ascii "\nAI: "), false, .zeroed 256⟩).net) := by
    rw [← htail]
    simp only [ollama_parse_json, ollama_parse, hresp]
    rfl
  simp only [hresult, ← print_string_print_string]
  rcases first_tag_or_none (literal_text resp) with ⟨pre, after, hfirst⟩ | hnone
  · constructor
    · intro hclosed
      have hmem := hclosed.first hfirst
      exact ⟨pre, after, hfirst, hmem, parse_closed_tag hplain hnul hends hfirst hmem⟩
    · intro hclosed
      have hmem : greater ∉ after := by
        obtain ⟨⟨post, hpost, htag⟩, -⟩ := hfirst
        exact fun hmem => hclosed ⟨pre, post, after, hpost, htag, hmem⟩
      refine ⟨pre, ?_, parse_open_tag hplain hends hfirst hmem⟩
      obtain ⟨⟨post, hpost, -⟩, -⟩ := hfirst
      exact ⟨post, hpost.symm⟩
  · constructor
    · rintro ⟨pre, post, after, hpost, htag, -⟩
      exact absurd htag (hnone pre post after hpost)
    · intro _
      refine ⟨_, List.prefix_refl _, ?_⟩
      rw [parse_no_tag hplain hends hnone]

end LiteralText

/-- An answer with headers, in which the words around the tag only look like tags. -/
def tagged_payload : List UInt8 :=
  ascii "HTTP/1.1 200 OK\r\n\r\n\x7b\"response\":\"Use <b> or < EXEC_CMD: ls  > and <EXEC_CMD:rm>\"\x7d"

theorem literal_tag_runs_once_listed :
    let result := ollama_parse_json good_lwip idle_shell () boot tagged_payload
    ∃ pre after, FirstTag (literal_text (ascii "Use <b> or < EXEC_CMD: ls  > and <EXEC_CMD:rm>\"\x7d")) pre after ∧ greater ∈ after ∧
      result = run_once good_lwip idle_shell () (boot.print_string (ascii "\nAI: " ++ pre)) (tag_command after) := by
  have htag : HasClosedTag (literal_text (ascii "Use <b> or < EXEC_CMD: ls  > and <EXEC_CMD:rm>\"\x7d")) :=
    ⟨ascii "Use <b> or ", ascii "< EXEC_CMD: ls  > and <EXEC_CMD:rm>", ascii " ls  > and <EXEC_CMD:rm>", by decide +kernel,
      ⟨1, by decide +kernel⟩, by decide +kernel⟩
  exact (literal_tag_runs_once tagged_payload (ascii "Use <b> or < EXEC_CMD: ls  > and <EXEC_CMD:rm>\"\x7d") (by decide +kernel)
    (by decide +kernel) good_lwip idle_shell () boot).1 htag

end os_dev.net_stack
