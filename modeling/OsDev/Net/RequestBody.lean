import OsDev.Lib.Json
import OsDev.Net.PromptBuffers
import OsDev.Net.Segments

open os_dev.libc char_array json

namespace os_dev.net_stack

variable {σ : Type} {lwip : Lwip} {shell : Shell lwip σ} {st : σ × Net} {net : Net} {tpcb : ℕ} {c : UInt8} {s t : CStr}

/-- A control character that `json_escape` copies as it is. -/
def Unescaped (c : UInt8) : Prop := c < 0x20 ∧ c ≠ newline ∧ c ≠ carriage_return ∧ c ≠ tab

instance (c : UInt8) : Decidable (Unescaped c) := inferInstanceAs (Decidable (_ ∧ _ ∧ _ ∧ _))

/-- No such character in the part of a prompt that still fits when it is escaped. -/
def CleanPrompt (prompt : CStr) : Prop :=
  ∀ i c, prompt[i]? = some c → ((prompt.take i).flatMap escape_char).length < 8190 → ¬ Unescaped c

/-- The value of a string of digits. -/
def decimal (s : CStr) : ℕ := s.foldl (fun n c => 10 * n + (c.toNat - 0x30)) 0

/-- The body is a JSON object with a non-empty part of the prompt, from its start on, and
    the request says how long the body is. -/
structure ValidRequest (prompt body request : CStr) : Prop where
  carries : ∃ l front, json.parse body = some (.object l) ∧
    l.lookup ((ascii "prompt").map .byte) = some (.string (front.map .byte)) ∧ front ≠ [] ∧ front <+: prompt
  length : ∃ head len_str, request = head ++ ascii "Content-Length: " ++ len_str ++ ascii "\r\n\r\n" ++ body ∧
    (∀ c ∈ len_str, is_digit c = true) ∧ decimal len_str = body.length

/-- The part of the prompt that `json_escape` copies, behind `n` characters of output. -/
def kept (dst_max : ℕ) : ℕ → CStr → CStr
  | _, [] => []
  | n, c :: src => if n < dst_max - 2 then c :: kept dst_max (n + (escape_char c).length) src else []

theorem json_escape_loop_eq (dst_max : ℕ) (src out : CStr) :
    json_escape_loop dst_max src out = out ++ (kept dst_max out.length src).flatMap escape_char := by
  induction src generalizing out with
  | nil => simp only [json_escape_loop, kept, List.flatMap_nil, List.append_nil]
  | cons c src ih =>
    simp only [json_escape_loop, kept]
    split
    · rw [ih, List.length_append, List.flatMap_cons, List.append_assoc]
    · rw [List.flatMap_nil, List.append_nil]

theorem kept_prefix (dst_max n : ℕ) (src : CStr) : kept dst_max n src <+: src := by
  induction src generalizing n with
  | nil => exact List.prefix_refl []
  | cons c src ih =>
    simp only [kept]
    split
    · exact List.cons_prefix_cons.mpr ⟨rfl, ih _⟩
    · exact List.nil_prefix

theorem mem_kept_iff (dst_max n : ℕ) (src : CStr) :
    c ∈ kept dst_max n src ↔ ∃ i, src[i]? = some c ∧ n + ((src.take i).flatMap escape_char).length < dst_max - 2 := by
  induction src generalizing n with
  | nil => simp [kept]
  | cons b src ih =>
    simp only [kept]
    split
    · rename_i hroom
      rw [List.mem_cons, ih]
      constructor
      · rintro (rfl | ⟨i, hi, hlen⟩)
        · exact ⟨0, rfl, hroom⟩
        · refine ⟨i + 1, hi, ?_⟩
          rw [List.take_succ_cons, List.flatMap_cons, List.length_append]
          omega
      · rintro ⟨_ | i, hi, hlen⟩
        · exact .inl (Option.some.inj hi).symm
        · refine .inr ⟨i, hi, ?_⟩
          rw [List.take_succ_cons, List.flatMap_cons, List.length_append] at hlen
          omega
    · rename_i hfull
      refine iff_of_false List.not_mem_nil ?_
      rintro ⟨i, _, hlen⟩
      omega

theorem cleanPrompt_iff (prompt : CStr) : CleanPrompt prompt ↔ ∀ c ∈ kept 8192 0 prompt, ¬ Unescaped c := by
  simp only [mem_kept_iff, CleanPrompt]
  constructor
  · rintro h c ⟨i, hi, hlen⟩
    exact h i c hi (by omega)
  · intro h i c hi hlen
    exact h c ⟨i, hi, by omega⟩

/-- An escaped character decodes to itself. -/
theorem escape_char_plain (h : ¬ Unescaped c) : Plain (escape_char c) [.byte c] := by
  unfold escape_char
  split_ifs with h₁ h₂ h₃ h₄
  · obtain rfl | rfl := h₁
    · exact .short rfl .nil
    · exact .short rfl .nil
  · subst h₂
    exact .short rfl .nil
  · subst h₃
    exact .short rfl .nil
  · subst h₄
    exact .short rfl .nil
  · have hlow : 0x20 ≤ c := by
      by_contra hctl
      exact h ⟨UInt8.not_le.mp hctl, h₂, h₃, h₄⟩
    exact .byte hlow (fun heq => h₁ (.inl heq)) (fun heq => h₁ (.inr heq)) .nil

theorem escape_plain (h : ∀ c ∈ s, ¬ Unescaped c) : Plain (s.flatMap escape_char) (s.map .byte) := by
  induction s with
  | nil => exact .nil
  | cons c s ih =>
    have hc := escape_char_plain (h c List.mem_cons_self)
    exact hc.append (ih fun c hmem => h c (List.mem_cons_of_mem _ hmem))

theorem escape_unescaped (h : Unescaped c) : escape_char c = [c] := by
  have hquote : ¬ (c = quote ∨ c = backslash) := by
    rintro (rfl | rfl)
    · exact absurd h.1 (by decide)
    · exact absurd h.1 (by decide)
  rw [escape_char, if_neg hquote, if_neg h.2.1, if_neg h.2.2.1, if_neg h.2.2.2]

/-- The first such character of a string. -/
theorem first_unescaped (h : ¬ ∀ c ∈ s, ¬ Unescaped c) :
    ∃ front c back, s = front ++ c :: back ∧ (∀ c ∈ front, ¬ Unescaped c) ∧ Unescaped c := by
  induction s with
  | nil => exact absurd (fun c hc => absurd hc List.not_mem_nil) h
  | cons b s ih =>
    by_cases hb : Unescaped b
    · exact ⟨[], b, s, rfl, fun c hc => absurd hc List.not_mem_nil, hb⟩
    · obtain ⟨front, c, back, rfl, hfront, hc⟩ := ih fun hall => h fun c hc => by
        obtain rfl | hmem := List.mem_cons.mp hc
        · exact hb
        · exact hall c hmem
      refine ⟨b :: front, c, back, rfl, fun d hd => ?_, hc⟩
      obtain rfl | hmem := List.mem_cons.mp hd
      · exact hb
      · exact hfront d hmem

theorem itoa_loop_decimal (n : ℕ) : decimal (itoa_loop n).reverse = n := by
  induction n using Nat.strong_induction_on with
  | _ n ih =>
    have hdigit : (UInt8.ofNat (n % 10 + 0x30)).toNat = n % 10 + 0x30 :=
      UInt8.toNat_ofNat_of_lt' (show n % 10 + 0x30 < 256 by omega)
    rw [itoa_loop]
    split
    · have hrest := ih (n / 10) (by omega)
      rw [decimal] at hrest
      rw [List.reverse_cons, decimal, List.foldl_append, hrest, List.foldl_cons, List.foldl_nil, hdigit]
      omega
    · rw [List.reverse_singleton, decimal, List.foldl_cons, List.foldl_nil, hdigit]
      omega

theorem itoa_loop_digits (n : ℕ) : ∀ c ∈ itoa_loop n, is_digit c = true := by
  have hdigit : ∀ m, is_digit (UInt8.ofNat (m % 10 + 0x30)) = true := by
    intro m
    have hm : m % 10 < 10 := Nat.mod_lt _ (by decide)
    generalize m % 10 = d at hm
    revert d
    decide
  induction n using Nat.strong_induction_on with
  | _ n ih =>
    rw [itoa_loop]
    split
    · intro c hc
      obtain rfl | hmem := List.mem_cons.mp hc
      · exact hdigit n
      · exact ih (n / 10) (by omega) c hmem
    · intro c hc
      rw [List.mem_singleton.mp hc]
      exact hdigit n

theorem plain_append (hs : ∃ text, Plain s text) (ht : ∃ text, Plain t text) : ∃ text, Plain (s ++ t) text := by
  obtain ⟨text, htext⟩ := hs
  obtain ⟨text', htext'⟩ := ht
  exact ⟨_, htext.append htext'⟩

theorem plain_ascii (l : List Char) (h : is_plain (l.map fun c => UInt8.ofNat c.toNat) = true) :
    ∃ text, Plain (ascii (String.ofList l)) text := by
  rw [ascii_ofList]
  exact exists_plain h

theorem system_prompt_plain : ∃ text, Plain SYSTEM_PROMPT text := by
  unfold SYSTEM_PROMPT
  repeat' with_reducible apply plain_append
  all_goals first | with_reducible refine plain_ascii _ ?_ | refine exists_plain ?_
  all_goals decide +kernel

/-- The body around an escaped prompt, member by member. -/
theorem body_eq (escaped : CStr) : body_head ++ escaped ++ body_tail =
    0x7B :: 0x22 :: (ascii "model" ++ 0x22 :: 0x3A :: 0x22 :: (OLLAMA_MODEL ++ 0x22 :: 0x2C ::
      0x22 :: (ascii "system" ++ 0x22 :: 0x3A :: 0x22 :: (SYSTEM_PROMPT ++ 0x22 :: 0x2C ::
      0x22 :: (ascii "prompt" ++ 0x22 :: 0x3A :: 0x22 :: (escaped ++ 0x22 :: 0x2C ::
      0x22 :: (ascii "stream" ++ 0x22 :: 0x3A :: ([0x66, 0x61, 0x6C, 0x73, 0x65] ++ [0x7D])))))))) := by
  have hopen : ascii "\x7b\"model\":\"" = 0x7B :: 0x22 :: (ascii "model" ++ [0x22, 0x3A, 0x22]) := by decide
  have hsystem : ascii "\",\"system\":\"" = 0x22 :: 0x2C :: 0x22 :: (ascii "system" ++ [0x22, 0x3A, 0x22]) := by decide
  have hprompt : ascii "\",\"prompt\":\"" = 0x22 :: 0x2C :: 0x22 :: (ascii "prompt" ++ [0x22, 0x3A, 0x22]) := by decide
  have htail : body_tail = 0x22 :: 0x2C :: 0x22 :: (ascii "stream" ++ 0x22 :: 0x3A :: ([0x66, 0x61, 0x6C, 0x73, 0x65] ++ [0x7D])) := by
    decide
  rw [body_head, hopen, hsystem, hprompt, htail]
  generalize SYSTEM_PROMPT = system
  simp only [List.append_assoc, List.cons_append, List.nil_append]

theorem model_plain : Plain OLLAMA_MODEL (OLLAMA_MODEL.map .byte) := plain_bytes (by decide +kernel)

/-- The members of the body. -/
def body_members (system prompt : List Sym) : List (List Sym × Value) :=
  [((ascii "model").map .byte, .string (OLLAMA_MODEL.map .byte)), ((ascii "system").map .byte, .string system),
    ((ascii "prompt").map .byte, .string prompt), ((ascii "stream").map .byte, .bool false)]

/-- What the parser finds, up to the prompt. -/
theorem members_body {system : List Sym} (hsystem : Plain SYSTEM_PROMPT system) (fuel : ℕ) (rest : CStr) :
    members (fuel + 5) (0x22 :: (ascii "model" ++ 0x22 :: 0x3A :: 0x22 :: (OLLAMA_MODEL ++ 0x22 :: 0x2C ::
      0x22 :: (ascii "system" ++ 0x22 :: 0x3A :: 0x22 :: (SYSTEM_PROMPT ++ 0x22 :: 0x2C :: rest))))) =
    (members (fuel + 3) rest).map fun (l, rest) =>
      (((ascii "model").map .byte, .string (OLLAMA_MODEL.map .byte)) :: ((ascii "system").map .byte, .string system) :: l, rest) := by
  have hmodel : value (fuel + 4) (0x22 :: (OLLAMA_MODEL ++ 0x22 :: 0x2C ::
      0x22 :: (ascii "system" ++ 0x22 :: 0x3A :: 0x22 :: (SYSTEM_PROMPT ++ 0x22 :: 0x2C :: rest)))) =
      some (.string (OLLAMA_MODEL.map .byte), 0x2C ::
        0x22 :: (ascii "system" ++ 0x22 :: 0x3A :: 0x22 :: (SYSTEM_PROMPT ++ 0x22 :: 0x2C :: rest))) := by
    rw [value_string, model_plain.string_body, Option.map_some]
  have hvalue : value (fuel + 3) (0x22 :: (SYSTEM_PROMPT ++ 0x22 :: 0x2C :: rest)) = some (.string system, 0x2C :: rest) := by
    rw [value_string, hsystem.string_body, Option.map_some]
  have hname : Plain (ascii "model") ((ascii "model").map .byte) := plain_bytes (by decide +kernel)
  have hname' : Plain (ascii "system") ((ascii "system").map .byte) := plain_bytes (by decide +kernel)
  rw [members_cons hname hmodel, members_cons hname' hvalue, Option.map_map]
  rfl

/-- The parser on a body, from the prompt on. -/
theorem parse_body_eq {system : List Sym} (hsystem : Plain SYSTEM_PROMPT system) (escaped : CStr) :
    ∃ fuel, json.parse (body_head ++ escaped ++ body_tail) =
      match (members (fuel + 3) (0x22 :: (ascii "prompt" ++ 0x22 :: 0x3A :: 0x22 :: (escaped ++ 0x22 :: 0x2C ::
          0x22 :: (ascii "stream" ++ 0x22 :: 0x3A :: ([0x66, 0x61, 0x6C, 0x73, 0x65] ++ [0x7D])))))).map fun (l, rest) =>
        (Value.object (((ascii "model").map .byte, .string (OLLAMA_MODEL.map .byte)) ::
          ((ascii "system").map .byte, .string system) :: l), rest) with
      | some (v, rest) => if skip_space rest = [] then some v else none
      | none => none := by
  have hlen : ∃ fuel, (body_head ++ escaped ++ body_tail).length + 1 = fuel + 5 + 1 := by
    refine ⟨(body_head ++ escaped ++ body_tail).length - 5, ?_⟩
    have htail := body_tail_length
    rw [List.length_append]
    omega
  obtain ⟨fuel, hfuel⟩ := hlen
  refine ⟨fuel, ?_⟩
  rw [json.parse, hfuel, body_eq, value_object, members_body hsystem, Option.map_map]
  rfl

theorem prompt_plain : Plain (ascii "prompt") ((ascii "prompt").map .byte) := plain_bytes (by decide +kernel)

/-- A body with a prompt that can be decoded. -/
theorem parse_body {system text : List Sym} {escaped : CStr} (hsystem : Plain SYSTEM_PROMPT system) (h : Plain escaped text) :
    json.parse (body_head ++ escaped ++ body_tail) = some (.object (body_members system text)) := by
  obtain ⟨fuel, hparse⟩ := parse_body_eq hsystem escaped
  have hstream : Plain (ascii "stream") ((ascii "stream").map .byte) := plain_bytes (by decide +kernel)
  have hvalue : ∀ rest, value (fuel + 2) (0x22 :: (escaped ++ 0x22 :: rest)) = some (.string text, rest) := by
    intro rest
    rw [value_string, h.string_body, Option.map_some]
  rw [hparse, members_cons prompt_plain (hvalue _), members_last hstream (value_false fuel [0x7D])]
  rfl

/-- A body with one that cannot. -/
theorem parse_body_none {system : List Sym} {escaped : CStr} (hsystem : Plain SYSTEM_PROMPT system)
    (h : ∀ rest, json.string_body (escaped ++ 0x22 :: rest) = none) : json.parse (body_head ++ escaped ++ body_tail) = none := by
  obtain ⟨fuel, hparse⟩ := parse_body_eq hsystem escaped
  have hvalue : ∀ rest, value (fuel + 2) (0x22 :: (escaped ++ 0x22 :: rest)) = none := by
    intro rest
    rw [value_string, h, Option.map_none]
  rw [hparse, members_none prompt_plain (hvalue _)]
  rfl

theorem strcpy_str {n : ℕ} (a : CharArray n) (s : CStr) : (a.strcpy s).str = s := rfl

theorem strcat_str {n : ℕ} (a : CharArray n) (s : CStr) : (a.strcat s).str = a.str ++ s := rfl

theorem build_body_str (h : net.escaped_prompt.str.length < 8192) :
    net.build_body.json_body.str = body_head ++ net.escaped_prompt.str ++ body_tail := by
  have hhead := body_head_length
  have hfits : (net.json_body.strcpy body_head).str.length + net.escaped_prompt.str.length < 16384 - 24 := by
    rw [strcpy_length]
    omega
  simp only [Net.build_body, if_pos hfits]
  rw [strcat_str, strcat_str, strcpy_str]

theorem wrap_body_body (net : Net) : net.wrap_body.json_body = net.json_body := rfl

theorem wrap_body_request (net : Net) : ∃ head, net.wrap_body.request.str =
    head ++ ascii "Content-Length: " ++ itoa net.json_body.str.length ++ ascii "\r\n\r\n" ++ net.json_body.str :=
  ⟨_, rfl⟩

/-- The body that is built. -/
theorem build_request_body (net : Net) :
    net.build_request.json_body.str = body_head ++ json_escape net.global_prompt.str 8192 ++ body_tail := by
  have hescaped : net.escape_prompt.escaped_prompt.str = json_escape net.global_prompt.str 8192 := strcpy_str _ _
  have hlen := json_escape_length net.global_prompt.str
  rw [← hescaped] at hlen
  rw [Net.build_request, wrap_body_body, build_body_str hlen, hescaped]

/-- The request around it. -/
theorem build_request_text (net : Net) :
    ∃ head, net.build_request.request.str = head ++ ascii "Content-Length: " ++
      itoa net.build_request.json_body.str.length ++ ascii "\r\n\r\n" ++ net.build_request.json_body.str := by
  obtain ⟨head, hrequest⟩ := wrap_body_request net.escape_prompt.build_body
  rw [Net.build_request, wrap_body_body, hrequest]
  exact ⟨head, rfl⟩

/-- A request is valid exactly if the prompt is clean. -/
theorem valid_request_iff (hprompt : net.global_prompt.str ≠ []) :
    ValidRequest net.global_prompt.str net.build_request.json_body.str net.build_request.request.str ↔
      CleanPrompt net.global_prompt.str := by
  obtain ⟨system, hsystem⟩ := system_prompt_plain
  have hescape : json_escape net.global_prompt.str 8192 = (kept 8192 0 net.global_prompt.str).flatMap escape_char :=
    json_escape_loop_eq 8192 net.global_prompt.str []
  rw [cleanPrompt_iff]
  constructor
  · rintro ⟨⟨l, front, hparse, _⟩, _⟩
    by_contra hbad
    obtain ⟨front, c, back, hkept, hfront, hc⟩ := first_unescaped hbad
    have hnone : ∀ rest, json.string_body (json_escape net.global_prompt.str 8192 ++ 0x22 :: rest) = none := by
      intro rest
      rw [hescape, hkept, List.flatMap_append, List.flatMap_cons, escape_unescaped hc, List.append_assoc, List.append_assoc]
      exact (escape_plain hfront).control hc.1 _
    rw [build_request_body, parse_body_none hsystem hnone] at hparse
    cases hparse
  · intro hclean
    have hplain := escape_plain hclean
    rw [← hescape] at hplain
    have hparse := parse_body hsystem hplain
    rw [← build_request_body] at hparse
    refine ⟨⟨_, kept 8192 0 net.global_prompt.str, hparse, rfl, ?_, kept_prefix _ _ _⟩, ?_⟩
    · obtain ⟨c, rest, heq⟩ := List.exists_cons_of_ne_nil hprompt
      rw [heq]
      exact List.cons_ne_nil _ _
    · obtain ⟨head, hrequest⟩ := build_request_text net
      exact ⟨head, _, hrequest, fun c hc => itoa_loop_digits _ c (List.mem_reverse.mp hc), itoa_loop_decimal _⟩

/-- There is a prompt as soon as there is a connection. -/
def Prompted (net : Net) : Prop := ∀ c r, net.flight c = some r → net.global_prompt.str ≠ []

theorem set_prompt_ne_nil (net : Net) (cwd : CwdPath) (ip_str prompt : CStr) :
    (net.set_prompt cwd ip_str prompt).global_prompt.str ≠ [] := by
  have hlen : ∀ a : CharArray 1024, 0 < (context_text a cwd prompt).str.length := by
    intro a
    have hnow : (ascii " | EXECUTE commands now.").length = 24 := ascii_ofList_length _
    simp only [context_text, strcat_length]
    omega
  have hpos := hlen net.context_prompt
  simp only [Net.set_prompt, CharArray.strncpy, List.take_zero, List.nil_append]
  generalize context_text net.context_prompt cwd prompt = context at hpos
  rw [← List.length_pos_iff, List.length_take]
  omega

theorem prompted_kept (lwip : Lwip) : Kept lwip Prompted where
  print := fun _ _ h => h
  executed := fun _ _ h => h
  feedback_text := fun _ _ _ _ h => h
  feedback_request := by
    intro net ip_str feedback h c r hr
    obtain ⟨s, heq⟩ | ⟨_, net', hnet', heq⟩ := feedback_request_cases lwip net ip_str feedback
    · rw [heq] at hr ⊢
      exact h c r hr
    · have hne : net'.global_prompt.str ≠ [] := by
        rw [hnet']
        simp only [strcat_str]
        simp
      obtain heq | heq := heq
      · rw [heq]
        exact hne
      · rw [heq]
        exact hne
  request := by
    intro net cwd ip_str prompt _ c r _
    have hne := set_prompt_ne_nil net cwd ip_str prompt
    obtain ⟨s, heq | heq⟩ := request_cases lwip net cwd ip_str prompt
    · rw [heq]
      exact hne
    · rw [heq]
      exact hne

/-- A step that opens no connection and keeps the prompt. -/
theorem Prompted.of_flight {net' : Net} (h : Prompted net) (hprompt : net'.global_prompt = net.global_prompt)
    (hflight : ∀ c r, net'.flight c = some r → ∃ r', net.flight c = some r') : Prompted net' := by
  intro c r hr
  obtain ⟨r', hr'⟩ := hflight c r hr
  rw [hprompt]
  exact h c r' hr'

/-- Printing and sending change neither the prompt nor what is built from it. -/
structure SameRequest (net net' : Net) : Prop where
  global_prompt : net'.global_prompt = net.global_prompt
  json_body : net'.json_body = net.json_body
  request : net'.request = net.request

theorem SameRequest.print {net net' : Net} (h : SameRequest net net') (s : CStr) : SameRequest net (net'.print_string s) :=
  ⟨h.1, h.2, h.3⟩

theorem SameRequest.tcp_close {net net' : Net} (h : SameRequest net net') (tpcb : ℕ) : SameRequest net (net'.tcp_close tpcb) :=
  ⟨h.1, h.2, h.3⟩

theorem send_request_same (lwip : Lwip) (net : Net) (tpcb : ℕ) : SameRequest net (net.send_request lwip tpcb) := by
  have hsame : SameRequest net net := ⟨rfl, rfl, rfl⟩
  have hsent : ∀ sent, SameRequest net { net with sent := sent } := fun _ => ⟨rfl, rfl, rfl⟩
  simp only [Net.send_request, Net.kprint_dec]
  split
  · exact (hsame.print _).tcp_close tpcb
  · split
    · exact (((hsame.print _).print _).print _).tcp_close tpcb
    · split
      · exact (((((hsent _).print _).print _).print _).print _).print _ |>.print _
      · exact (((hsent _).print _).print _).print _

theorem build_body_prompt (net : Net) : net.build_body.global_prompt = net.global_prompt := by
  simp only [Net.build_body]
  generalize net.json_body.strcpy body_head = json_body
  split
  · rfl
  · generalize ascii "Network: Prompt truncated (too long).\n" = s
    rfl

theorem build_request_prompt (net : Net) : net.build_request.global_prompt = net.global_prompt := by
  have hescape : net.escape_prompt.global_prompt = net.global_prompt := rfl
  have hwrap : ∀ net : Net, net.wrap_body.global_prompt = net.global_prompt := fun _ => rfl
  rw [Net.build_request, hwrap, build_body_prompt, hescape]

/-- The callback for a new connection sends the request it builds. -/
theorem connected_request (lwip : Lwip) (net : Net) (tpcb : ℕ) :
    ∃ s, SameRequest (net.print_string s).build_request (ollama_connected_cb lwip net tpcb 0) := by
  refine ⟨ascii "Network: Connected! Model: " ++ OLLAMA_MODEL ++ [newline], ?_⟩
  rw [ollama_connected_cb, if_neg (by decide)]
  exact send_request_same lwip _ tpcb

theorem connected_prompt (lwip : Lwip) (net : Net) (tpcb err : ℕ) :
    (ollama_connected_cb lwip net tpcb err).global_prompt = net.global_prompt := by
  by_cases herr : err = 0
  · subst herr
    obtain ⟨s, hsame⟩ := connected_request lwip net tpcb
    rw [hsame.global_prompt, build_request_prompt]
    rfl
  · have hsame : SameRequest net net := ⟨rfl, rfl, rfl⟩
    rw [ollama_connected_cb, if_pos herr]
    exact (((hsame.print _).print _).print _).global_prompt

theorem Prompted.tcp_close (h : Prompted net) (tpcb : ℕ) : Prompted (net.tcp_close tpcb) := by
  refine h.of_flight rfl fun c r hr => ?_
  simp only [Net.tcp_close, Function.update_apply] at hr
  split at hr
  · cases hr
  · exact ⟨r, hr⟩

theorem Prompted.connected (h : Prompted net) (lwip : Lwip) (tpcb err : ℕ) : Prompted (ollama_connected_cb lwip net tpcb err) := by
  have hprompt := connected_prompt lwip net tpcb err
  obtain hsame | hsame := connected_connections lwip net tpcb err
  · exact h.of_flight hprompt fun c r hr => ⟨r, by rw [← hsame.flight]; exact hr⟩
  · exact (h.tcp_close tpcb).of_flight hprompt fun c r hr => ⟨r, by rw [← hsame.flight]; exact hr⟩

theorem Prompted.recv (h : Prompted net) {r' : List UInt8} (hr' : net.flight tpcb = some r') (exec : ShellExecute σ) (os : σ) (p : List UInt8) :
    Prompted (ollama_recv_cb lwip exec os net tpcb (some p)).2 := by
  have hupdate : ∀ net' : Net, net'.global_prompt = net.global_prompt → net'.flight = net.flight →
      Prompted { net' with flight := Function.update net'.flight tpcb (some ((net'.flight tpcb).getD [] ++ p)) } := by
    intro net' hprompt heq
    refine h.of_flight hprompt fun c r hr => ?_
    simp only [Function.update_apply] at hr
    split at hr
    · rename_i hc
      exact ⟨r', hc ▸ hr'⟩
    · exact ⟨r, heq ▸ hr⟩
  simp only [ollama_recv_cb]
  split
  · exact hupdate { net with rx_accum := _ } rfl rfl
  · exact hupdate net rfl rfl

theorem Prompted.close (h : Prompted net) (shell : Shell lwip σ) (os : σ) :
    Prompted (ollama_recv_cb lwip shell.execute os net tpcb none).2 := by
  have hclosed := h.tcp_close tpcb
  simp only [ollama_recv_cb, ollama_parse_json]
  split
  · have hrecorded : Prompted { net.tcp_close tpcb with
        rx_accum := net.rx_accum.terminate
        parsed := net.parsed ++ [(net.rx_accum.str, (net.flight tpcb).getD [])] } := hclosed
    exact ((prompted_kept lwip).parse ((prompted_kept lwip).by_shell shell) os hrecorded net.rx_accum.terminate.str).2
  · exact hclosed

theorem prompted_by_callbacks (lwip : Lwip) (shell : Shell lwip σ) : KeptByCallbacks lwip shell Prompted where
  kept := prompted_kept lwip
  connected := fun _ tpcb err _ h => h.connected lwip tpcb err
  recv := fun os _ _ _ p hr h => h.recv hr shell.execute os p
  close := fun os _ _ h => h.close shell os
  error := fun net tpcb err h => by
    obtain ⟨s, heq⟩ := err_cb_eq net tpcb err
    rw [heq]
    exact h.tcp_close tpcb

theorem boot_prompted : Prompted boot := nofun

theorem connected_valid_iff (hprompt : net.global_prompt.str ≠ []) :
    ValidRequest net.global_prompt.str (ollama_connected_cb lwip net tpcb 0).json_body.str
      (ollama_connected_cb lwip net tpcb 0).request.str ↔ CleanPrompt net.global_prompt.str := by
  obtain ⟨s, hsame⟩ := connected_request lwip net tpcb
  have hprinted : (net.print_string s).global_prompt = net.global_prompt := rfl
  rw [hsame.json_body, hsame.request, ← hprinted]
  rw [← hprinted] at hprompt
  exact valid_request_iff hprompt

/-- Whatever came before: the request that a new connection sends is a JSON object that
    carries the prompt, with its length, exactly if the prompt is clean. -/
theorem request_valid_iff_clean (lwip : Lwip) (shell : Shell lwip σ) (os : σ) (steps : List NetStep) (tpcb : ℕ)
    (hflight : (run lwip shell (os, boot) steps).2.flight tpcb = some []) :
    let net := (run lwip shell (os, boot) steps).2
    let sent := ollama_connected_cb lwip net tpcb 0
    ValidRequest net.global_prompt.str sent.json_body.str sent.request.str ↔ CleanPrompt net.global_prompt.str := by
  have hprompted : Prompted (run lwip shell (os, boot) steps).2 := (prompted_by_callbacks lwip shell).run boot_prompted steps
  exact connected_valid_iff (hprompted tpcb [] hflight)

theorem CleanPrompt.of_forall {prompt : CStr} (h : ∀ c ∈ prompt, ¬ Unescaped c) : CleanPrompt prompt :=
  fun _ c hc _ => h c (List.mem_of_getElem? hc)

theorem request_valid_hi :
    let net := (run good_lwip (idle good_lwip) ((), boot) [.request root_path (ascii "10.0.2.2") (ascii "hi")]).2
    let sent := ollama_connected_cb good_lwip net 0 0
    ValidRequest net.global_prompt.str sent.json_body.str sent.request.str :=
  (request_valid_iff_clean good_lwip (idle good_lwip) () _ 0 rfl).mpr (.of_forall (by decide +kernel))

/-- A prompt with the control character 1 ends up in the body as it is. -/
theorem control_character_invalid :
    let net := (run good_lwip (idle good_lwip) ((), boot) [.request root_path (ascii "10.0.2.2") [0x01]]).2
    let sent := ollama_connected_cb good_lwip net 0 0
    net.flight 0 = some [] ∧ ¬ ValidRequest net.global_prompt.str sent.json_body.str sent.request.str := by
  refine ⟨rfl, fun hvalid => ?_⟩
  have hclean := (connected_valid_iff (by decide +kernel)).mp hvalid
  exact hclean 32 0x01 (by decide +kernel) (by decide +kernel) (by decide)

end os_dev.net_stack
