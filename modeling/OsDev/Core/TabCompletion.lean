import OsDev.Core.ShellInput
import OsDev.Fat32.Termination
import OsDev.Fat32.Unlink

open os_dev.ata os_dev.libc os_dev.fat32 os_dev.agent common_prefix char_array fuel

namespace os_dev.shell

/-- The entries of a listing that a word can be completed to. -/
def matching (reports : List Report) (word : CStr) : List Report := reports.filter fun r => HasPrefix r.name word

/-- What is put behind a name that is the only one. -/
def name_end : List Report → CStr
  | [r] => [if r.attr &&& FAT_ATTR_DIRECTORY ≠ 0 then slash else space]
  | _ => []

/-- The line after the completion of its last word from a listing. -/
structure Completes (reports : List Report) (word line line' : CStr) : Prop where
  kept : line <+: line'
  bounded : line'.length ≤ 255
  unmatched : matching reports word = [] → line' = line
  matched : matching reports word ≠ [] → ∃ more, line' = (line ++ (more ++ name_end (matching reports word))).take 255 ∧
    IsLongestCommonPrefix (fun s => ∃ r ∈ matching reports word, r.name.map lower = s) ((word ++ more).map lower)

section Listing

variable {v : Volume} {d : Disk} {r : Report}

/-- A name has at most eight characters, a dot and three more. -/
theorem format_name_length_le {name ext : List UInt8} (hname : name.length = 8) (hext : ext.length = 3) :
    (format_name name ext).length ≤ 12 := by
  have hbase := List.length_filter_le (fun c => decide (c ≠ space)) name
  have htail := List.length_filter_le (fun c => decide (c ≠ space)) ext
  rw [format_name, List.length_append]
  split
  · rw [List.length_cons]
    omega
  · rw [List.length_nil]
    omega

theorem report_name_length (buf : Sector) (i : ℕ) : (report (dir_entry buf i)).name.length ≤ 12 :=
  format_name_length_le (by simp [dir_entry]) (by simp [dir_entry])

theorem list_entries_name {buf : Sector} {n i : ℕ} (h : r ∈ (list_entries buf n i).1) : r.name.length ≤ 12 := by
  induction n generalizing i with
  | zero => cases h
  | succ n ih =>
    simp only [list_entries] at h
    split at h
    · cases h
    · split at h
      · exact ih h
      · rcases List.mem_cons.mp h with rfl | hrest
        · exact report_name_length buf i
        · exact ih hrest

theorem list_sectors_name {lba n s : ℕ} {buf : Sector} (h : r ∈ (list_sectors v d lba n s buf).1) : r.name.length ≤ 12 := by
  induction n generalizing s buf with
  | zero => cases h
  | succ n ih =>
    simp only [list_sectors] at h
    split at h
    · cases h
    · split at h
      · rename_i hentries
        exact list_entries_name (by rw [hentries]; exact h)
      · rename_i hentries
        rcases List.mem_append.mp h with hhere | hrest
        · exact list_entries_name (by rw [hentries]; exact hhere)
        · exact ih hrest

theorem list_loop_name {fuel cluster : ℕ} {buf : Sector} {rc : Int} {reports : List Report}
    (h : list_loop v d fuel cluster buf = some (rc, reports)) (hr : r ∈ reports) : r.name.length ≤ 12 := by
  induction fuel generalizing cluster buf rc reports with
  | zero => cases h
  | succ fuel ih =>
    rw [list_loop] at h
    split at h
    · generalize hsectors : list_sectors v d (cluster_to_lba v cluster) v.bpb.sectors_per_cluster 0 buf = sectors at h
      obtain ⟨calls, _ | rc', buf'⟩ := sectors
      · obtain ⟨⟨rc', rest⟩, hrest, heq⟩ := Option.bind_eq_some_iff.mp h
        obtain ⟨rfl, rfl⟩ := Prod.mk.inj (Option.some.inj heq)
        rcases List.mem_append.mp hr with hhere | hlater
        · exact list_sectors_name (by rw [hsectors]; exact hhere)
        · exact ih hrest hlater
      · obtain ⟨rfl, rfl⟩ := Prod.mk.inj (Option.some.inj h)
        exact list_sectors_name (by rw [hsectors]; exact hr)
    · obtain ⟨rfl, rfl⟩ := Prod.mk.inj (Option.some.inj h)
      cases hr

theorem list_dir_name {fuel cluster : ℕ} {fs : Fat32} {rc : Int} {reports : List Report}
    (h : fat32_list_dir fuel fs cluster = some (rc, reports)) (hr : r ∈ reports) : r.name.length ≤ 12 := by
  simp only [fat32_list_dir] at h
  split at h
  · obtain ⟨rfl, rfl⟩ := Prod.mk.inj (Option.some.inj h)
    cases hr
  · exact list_loop_name h hr

end Listing

section Fold

variable {reports : List Report} {tc : Completion} {word : CStr}

/-- An entry is a directory. -/
def is_dir (r : Report) : Bool := r.attr &&& FAT_ATTR_DIRECTORY ≠ 0

/-- The callback on the entries behind the first that matches. -/
theorem foldl_callback_matched (hcount : tc.tc_match_count ≠ 0)
    (hmatch : ∀ r ∈ reports, cstr r.name = r.name ∧ strncasecmp r.name tc.tc_prefix tc.tc_prefix_len = 0) :
    reports.foldl tc_callback tc =
      { tc with
        tc_best_match := (reports.map Report.name).foldl (common lower) tc.tc_best_match
        tc_match_count := tc.tc_match_count + reports.length
        tc_is_dir := tc.tc_is_dir && reports.all is_dir } := by
  induction reports generalizing tc with
  | nil => simp
  | cons r reports ih =>
    rw [List.forall_mem_cons] at hmatch
    obtain ⟨⟨hname, hcmp⟩, hrest⟩ := hmatch
    let next : Completion :=
      { tc with
        tc_best_match := common lower tc.tc_best_match r.name
        tc_match_count := tc.tc_match_count + 1
        tc_is_dir := tc.tc_is_dir && is_dir r }
    have hstep : tc_callback tc r = next := by
      simp only [tc_callback, hname, hcmp, if_true, if_neg hcount]
      rfl
    have hnext : reports.foldl tc_callback next = _ := ih (Nat.succ_ne_zero _) hrest
    rw [List.foldl_cons, hstep, hnext]
    simp only [next, List.map_cons, List.foldl_cons, List.length_cons, List.all_cons, Bool.and_assoc, Nat.add_assoc, Nat.add_comm 1]

@[simp] theorem callback_prefix_eq (tc : Completion) (r : Report) : Completion.tc_prefix (tc_callback tc r) = tc.tc_prefix := by
  simp only [tc_callback]
  split_ifs <;> rfl

@[simp] theorem callback_prefix_len (tc : Completion) (r : Report) : (tc_callback tc r).tc_prefix_len = tc.tc_prefix_len := by
  simp only [tc_callback]
  split_ifs <;> rfl

/-- The callback compares with the whole of its prefix. -/
theorem callback_matches_iff {r : Report} (hlen : tc.tc_prefix_len = tc.tc_prefix.length) (hnul : 0 ∉ tc.tc_prefix) :
    strncasecmp r.name tc.tc_prefix tc.tc_prefix_len = 0 ↔ HasPrefix r.name tc.tc_prefix := by
  rw [hlen]
  exact strncasecmp_eq_zero_iff hnul

/-- The other entries do nothing. -/
theorem foldl_callback_filter (hlen : tc.tc_prefix_len = tc.tc_prefix.length) (hnul : 0 ∉ tc.tc_prefix)
    (hname : ∀ r ∈ reports, cstr r.name = r.name) :
    reports.foldl tc_callback tc = (matching reports tc.tc_prefix).foldl tc_callback tc := by
  induction reports generalizing tc with
  | nil => rfl
  | cons r reports ih =>
    rw [List.forall_mem_cons] at hname
    obtain ⟨hfirst, hrest⟩ := hname
    have hnext := @ih (tc_callback tc r) (by simpa using hlen) (by simpa using hnul) hrest
    rw [callback_prefix_eq] at hnext
    by_cases hmatch : HasPrefix r.name tc.tc_prefix
    · have hsplit : matching (r :: reports) tc.tc_prefix = r :: matching reports tc.tc_prefix :=
        List.filter_cons_of_pos (decide_eq_true hmatch)
      rw [hsplit]
      exact hnext
    · have hskip : tc_callback tc r = tc := by
        simp only [tc_callback, hfirst, if_neg (mt (callback_matches_iff hlen hnul).mp hmatch)]
      have hsplit : matching (r :: reports) tc.tc_prefix = matching reports tc.tc_prefix :=
        List.filter_cons_of_neg (by rw [decide_eq_true_eq]; exact hmatch)
      rw [hsplit, List.foldl_cons, hnext, hskip]

/-- What the completion knows after a listing in which `r` is the first entry that matches. -/
theorem foldl_callback {r : Report} {rest : List Report} (hcount : tc.tc_match_count = 0)
    (hlen : tc.tc_prefix_len = tc.tc_prefix.length) (hnul : 0 ∉ tc.tc_prefix) (hname : ∀ r ∈ reports, cstr r.name = r.name)
    (hmatching : matching reports tc.tc_prefix = r :: rest) :
    reports.foldl tc_callback tc =
      { tc with
        tc_best_match := (rest.map Report.name).foldl (common lower) r.name
        tc_match_count := 1 + rest.length
        tc_is_dir := is_dir r && rest.all is_dir } := by
  have hall : ∀ r' ∈ r :: rest, cstr r'.name = r'.name ∧ strncasecmp r'.name tc.tc_prefix tc.tc_prefix_len = 0 := by
    intro r' hr'
    rw [← hmatching, matching, List.mem_filter, decide_eq_true_eq] at hr'
    exact ⟨hname r' hr'.1, (callback_matches_iff hlen hnul).mpr hr'.2⟩
  rw [List.forall_mem_cons] at hall
  have hstep : tc_callback tc r = { tc with tc_best_match := r.name, tc_match_count := 1, tc_is_dir := is_dir r } := by
    simp only [tc_callback, hall.1.1, hall.1.2, hcount, if_true]
    rfl
  rw [foldl_callback_filter hlen hnul hname, hmatching, List.foldl_cons, hstep]
  exact foldl_callback_matched (Nat.succ_ne_zero 0) hall.2

end Fold

variable {st : Console} {cmd word : CStr} {reports : List Report} {rc : Int}

/-- The line of a command that takes a path, spaces and a word. -/
structure PathLine (line cmd word : CStr) : Prop where
  command : cmd ∈ path_commands
  made : ∃ k, line = cmd ++ List.replicate (k + 1) space ++ word
  no_space : space ∉ word
  no_nul : 0 ∉ word
  fits : line.length ≤ 255

theorem path_command_plain (h : cmd ∈ path_commands) : cmd.all (· ≠ space) = true ∧ cmd.length ≤ 31 := by
  revert h cmd
  decide

theorem PathLine.cmd_name_eq {line : CStr} (h : PathLine line cmd word) : cmd_name line = cmd := by
  obtain ⟨hspace, hlen⟩ := path_command_plain h.command
  obtain ⟨k, rfl⟩ := h.made
  rw [cmd_name, List.append_assoc, List.takeWhile_append_of_pos (List.all_eq_true.mp hspace), List.replicate_succ, List.cons_append,
    List.takeWhile_cons_of_neg (by decide), List.append_nil, List.take_of_length_le hlen]

theorem PathLine.last_word_eq {line : CStr} (h : PathLine line cmd word) : last_word line = word := by
  obtain ⟨k, rfl⟩ := h.made
  have hword : ∀ c ∈ word.reverse, decide (c ≠ space) = true := by
    intro c hc
    rw [decide_eq_true_eq]
    rintro rfl
    exact h.no_space (List.mem_reverse.mp hc)
  rw [last_word, List.rtakeWhile, List.replicate_succ', ← List.append_assoc, List.append_assoc, List.reverse_append,
    List.reverse_append, List.append_assoc, List.takeWhile_append_of_pos hword]
  rw [List.reverse_singleton, List.singleton_append, List.takeWhile_cons_of_neg (by decide), List.append_nil, List.reverse_reverse]

theorem PathLine.space_mem {line : CStr} (h : PathLine line cmd word) : space ∈ line := by
  obtain ⟨k, rfl⟩ := h.made
  refine List.mem_append_left _ (List.mem_append_right _ ?_)
  rw [List.replicate_succ]
  exact List.mem_cons_self

/-- A listing with names of plain ASCII. -/
def PlainNames (reports : List Report) : Prop := ∀ r ∈ reports, ∀ c ∈ r.name, Printable c

theorem PlainNames.cstr_eq (h : PlainNames reports) {r : Report} (hr : r ∈ reports) : cstr r.name = r.name := by
  refine List.takeWhile_eq_self_iff.mpr fun c hc => ?_
  rw [decide_eq_true_eq]
  rintro rfl
  exact absurd (h r hr 0 hc) (by decide)

/-- The names are shorter than the prefix may be, so that cutting it makes no difference. -/
theorem matching_take (hname : ∀ r ∈ reports, r.name.length ≤ 12) (word : CStr) :
    matching reports (word.take 63) = matching reports word := by
  refine List.filter_congr fun r hr => ?_
  rw [decide_eq_decide, HasPrefix, HasPrefix]
  rcases Nat.le_total word.length 63 with hfits | hlong
  · rw [List.take_of_length_le hfits]
  · have hshort := hname r hr
    refine iff_of_false (fun h => ?_) fun h => ?_
    · have hle := h.length_le
      rw [List.length_map, List.length_map, List.length_take_of_le hlong] at hle
      omega
    · have hle := h.length_le
      rw [List.length_map, List.length_map] at hle
      omega

/-- The tab branch on such a line, once the listing is there. -/
theorem shell_input_tab (hline : PathLine st.shell_buffer cmd word) {m : ℕ} :
    shell_input (m + 2) st tab = complete_name (shell_input (m + 1)) (m + 1) st (word.take 63) := by
  have hspace : ¬ space ∉ st.shell_buffer := not_not.mpr hline.space_mem
  rw [shell_input, if_neg (by decide), if_neg (by decide), if_neg fun hb => absurd hb.1 (by decide), if_pos rfl]
  simp only [complete, hline.last_word_eq, hline.cmd_name_eq, if_neg hspace, if_pos (List.contains_iff_mem.mpr hline.command)]

theorem complete_name_of_list {input : Console → UInt8 → Option Console} {n : ℕ}
    (hlist : fat32_list_dir n st.os.fs st.os.fs.fat32_cwd_cluster = some (rc, reports)) (word : CStr) :
    complete_name input n st word = type_match input n { st with tc := reports.foldl tc_callback (st.tc.begin word) } := by
  rw [complete_name, hlist]
  rfl

/-- Without a match nothing is typed. -/
theorem complete_name_unmatched {input : Console → UInt8 → Option Console} {n : ℕ}
    (hlist : fat32_list_dir n st.os.fs st.os.fs.fat32_cwd_cluster = some (rc, reports))
    (hnul : 0 ∉ word) (hplain : PlainNames reports) (hnone : matching reports word = []) :
    complete_name input n st word = some { st with tc := st.tc.begin word } := by
  have hfold : reports.foldl tc_callback (st.tc.begin word) = (matching reports word).foldl tc_callback (st.tc.begin word) :=
    foldl_callback_filter rfl hnul fun r hr => hplain.cstr_eq hr
  rw [hnone, List.foldl_nil] at hfold
  rw [complete_name_of_list hlist, hfold]
  exact if_neg (Nat.lt_irrefl 0)

theorem type_word_append (st : Console) (chars more : CStr) : st.type_word (chars ++ more) = (st.type_word chars).type_word more :=
  List.foldl_append

/-- With a match its rest is typed, and the end of a name that is the only one. -/
theorem type_match_printable {m : ℕ} (hcount : 0 < st.tc.tc_match_count) (hprint : ∀ c ∈ st.tc.tc_best_match, Printable c)
    (hfuel : st.tc.tc_best_match.length < m + 1) :
    type_match (shell_input (m + 1)) (m + 1) st = some (st.type_word (st.tc.tc_best_match.drop st.tc.tc_prefix_len ++
      if st.tc.tc_match_count = 1 then [if st.tc.tc_is_dir then slash else space] else [])) := by
  have hend : Printable (if st.tc.tc_is_dir then slash else space) := by
    split <;> decide
  rw [type_match, if_pos hcount, replay_printable hprint (Nat.lt_of_le_of_lt (Nat.sub_le _ _) hfuel), type_word_append]
  generalize hword : st.tc.tc_best_match.drop st.tc.tc_prefix_len = chars
  simp only [Option.bind_eq_bind, Option.bind_some, type_word_tc]
  split
  · rw [shell_input_printable hend]
    rfl
  · rfl

/-- What all the matches have in common. -/
def best_match (r : Report) (rest : List Report) : CStr := (rest.map Report.name).foldl (common lower) r.name

theorem best_match_printable {r : Report} {rest : List Report} (hplain : PlainNames reports)
    (hmatching : matching reports word = r :: rest) : ∀ c ∈ best_match r rest, Printable c := by
  have hin : r ∈ matching reports word := by
    rw [hmatching]
    exact List.mem_cons_self
  exact fun c hc => hplain r (List.mem_filter.mp hin).1 c ((foldl_common_prefix_first lower r.name _).subset hc)

theorem name_end_cons (r : Report) (rest : List Report) : name_end (r :: rest) =
    if 1 + rest.length = 1 then [if is_dir r && rest.all is_dir then slash else space] else [] := by
  cases rest with
  | nil => simp [name_end, is_dir]
  | cons r' rest =>
    rw [if_neg (by rw [List.length_cons]; omega)]
    rfl

theorem complete_name_matched {m : ℕ} {r : Report} {rest : List Report}
    (hlist : fat32_list_dir (m + 1) st.os.fs st.os.fs.fat32_cwd_cluster = some (rc, reports))
    (hnul : 0 ∉ word) (hplain : PlainNames reports) (hmatching : matching reports word = r :: rest)
    (hfuel : (best_match r rest).length < m + 1) :
    complete_name (shell_input (m + 1)) (m + 1) st word =
      some (Console.type_word { st with tc := reports.foldl tc_callback (st.tc.begin word) }
        ((best_match r rest).drop word.length ++ name_end (r :: rest))) := by
  have hfold : reports.foldl tc_callback (st.tc.begin word) =
      { st.tc.begin word with
        tc_best_match := best_match r rest
        tc_match_count := 1 + rest.length
        tc_is_dir := is_dir r && rest.all is_dir } :=
    foldl_callback rfl rfl hnul (fun r hr => hplain.cstr_eq hr) hmatching
  rw [complete_name_of_list hlist, hfold, name_end_cons]
  exact type_match_printable (Nat.lt_add_right rest.length Nat.one_pos) (best_match_printable hplain hmatching) hfuel

/-- The line with a completion of its word. -/
theorem completes_matched {r : Report} {rest : List Report} {line : CStr} (hfits : line.length ≤ 255)
    (hmatching : matching reports word = r :: rest) :
    Completes reports word line ((line ++ ((best_match r rest).drop word.length ++ name_end (r :: rest))).take 255) := by
  have hlcp : IsLongestCommonPrefix (fun s => ∃ name ∈ r.name :: rest.map Report.name, name.map lower = s)
      ((best_match r rest).map lower) := foldl_common_longest r.name (rest.map Report.name)
  have hstarts : word.map lower <+: (best_match r rest).map lower := by
    refine hlcp.longest _ ?_
    rintro s ⟨name, hname, rfl⟩
    rw [← List.map_cons, ← hmatching] at hname
    obtain ⟨r', hr', rfl⟩ := List.mem_map.mp hname
    exact of_decide_eq_true (List.mem_filter.mp hr').2
  have hspelled : (word ++ (best_match r rest).drop word.length).map lower = (best_match r rest).map lower := by
    obtain ⟨tail, htail⟩ := hstarts
    rw [List.map_append, List.map_drop, ← htail, ← List.length_map (f := lower), List.drop_left]
  have hnames : (fun s => ∃ r' ∈ matching reports word, r'.name.map lower = s) =
      fun s => ∃ name ∈ r.name :: rest.map Report.name, name.map lower = s := by
    funext s
    rw [hmatching, ← List.map_cons]
    simp only [List.mem_map, exists_exists_and_eq_and]
  refine ⟨?_, List.length_take_le _ _, fun hnone => ?_, fun _ => ⟨(best_match r rest).drop word.length, ?_, ?_⟩⟩
  · exact List.prefix_take_iff.mpr ⟨List.prefix_append line _, hfits⟩
  · rw [hnone] at hmatching
    cases hmatching
  · rw [hmatching]
  · rw [hspelled, hnames]
    exact hlcp

/-- One tab on such a line. -/
theorem shell_input_completes (hline : PathLine st.shell_buffer cmd word)
    (hlist : Returns (fun fuel => fat32_list_dir fuel st.os.fs st.os.fs.fat32_cwd_cluster) (rc, reports))
    (hplain : PlainNames reports) :
    ∃ st', Returns (fun fuel => shell_input fuel st tab) st' ∧ Completes reports word st.shell_buffer st'.shell_buffer := by
  obtain ⟨n, hn⟩ := Filter.eventually_atTop.mp hlist
  have hname : ∀ r ∈ reports, r.name.length ≤ 12 := fun r hr => list_dir_name (hn n (Nat.le_refl n)) hr
  have htake := matching_take hname word
  have hnul : 0 ∉ word.take 63 := fun h => hline.no_nul (List.mem_of_mem_take h)
  cases hmatching : matching reports word with
  | nil =>
    refine ⟨{ st with tc := st.tc.begin (word.take 63) }, .of_gt (n + 1) fun fuel hfuel => ?_, ?_⟩
    · obtain ⟨m, rfl⟩ := Nat.exists_eq_add_of_lt hfuel
      rw [show n + 1 + m + 1 = n + m + 2 by omega, shell_input_tab hline]
      exact complete_name_unmatched (hn _ (by omega)) hnul hplain (htake.trans hmatching)
    · exact ⟨List.prefix_refl _, hline.fits, fun _ => rfl, fun hsome => absurd hmatching hsome⟩
  | cons r rest =>
    have hword : word.length ≤ 12 := by
      have hin : r ∈ matching reports word := by
        rw [hmatching]
        exact List.mem_cons_self
      have hprefix := (of_decide_eq_true (List.mem_filter.mp hin).2 : HasPrefix r.name word).length_le
      rw [List.length_map, List.length_map] at hprefix
      exact Nat.le_trans hprefix (hname r (List.mem_filter.mp hin).1)
    have hsame : word.take 63 = word := List.take_of_length_le (by omega)
    rw [hsame] at hnul
    have hprint : ∀ c ∈ (best_match r rest).drop word.length ++ name_end (r :: rest), Printable c := by
      rw [List.forall_mem_append]
      refine ⟨fun c hc => best_match_printable hplain hmatching c (List.mem_of_mem_drop hc), ?_⟩
      rw [name_end_cons]
      split_ifs
      · exact List.forall_mem_singleton.mpr (by decide)
      · exact List.forall_mem_singleton.mpr (by decide)
      · exact List.forall_mem_nil _
    refine ⟨Console.type_word { st with tc := reports.foldl tc_callback (st.tc.begin word) }
      ((best_match r rest).drop word.length ++ name_end (r :: rest)),
      .of_gt (n + (best_match r rest).length + 1) fun fuel hfuel => ?_, ?_⟩
    · obtain ⟨m, rfl⟩ := Nat.exists_eq_add_of_lt hfuel
      rw [show n + (best_match r rest).length + 1 + m + 1 = n + (best_match r rest).length + m + 2 by omega,
        shell_input_tab hline, hsame]
      exact complete_name_matched (hn _ (by omega)) hnul hplain hmatching (by omega)
    · have hbuffer : (Console.type_word { st with tc := reports.foldl tc_callback (st.tc.begin word) }
          ((best_match r rest).drop word.length ++ name_end (r :: rest))).shell_buffer = _ := type_word_buffer hprint hline.fits
      rw [hbuffer]
      exact completes_matched hline.fits hmatching

section Order

variable {line line₁ line₂ : CStr} {reports₁ reports₂ : List Report}

theorem name_end_perm {l l' : List Report} (h : l.Perm l') : name_end l = name_end l' := by
  have hlen := h.length_eq
  match l, l', h, hlen with
  | [], [], _, _ => rfl
  | [r], [r'], h, _ => rw [List.perm_singleton.mp h]
  | _ :: _ :: _, _ :: _ :: _, _, _ => rfl

/-- Up to case, a completion does not depend on the order of the listing. -/
theorem Completes.same_up_to_case (h₁ : Completes reports₁ word line line₁) (h₂ : Completes reports₂ word line line₂)
    (hperm : reports₁.Perm reports₂) : line₁.map lower = line₂.map lower := by
  have hmatching : (matching reports₁ word).Perm (matching reports₂ word) := hperm.filter _
  by_cases hnone : matching reports₁ word = []
  · rw [h₁.unmatched hnone, h₂.unmatched (hnone ▸ hmatching).nil_eq.symm]
  · have hnone' : matching reports₂ word ≠ [] := fun h => hnone (h ▸ hmatching).eq_nil
    obtain ⟨more₁, rfl, hlcp₁⟩ := h₁.matched hnone
    obtain ⟨more₂, rfl, hlcp₂⟩ := h₂.matched hnone'
    simp only [hmatching.mem_iff] at hlcp₁
    have hmore := hlcp₁.unique hlcp₂
    rw [List.map_append, List.map_append, List.append_cancel_left_eq] at hmore
    rw [List.map_take, List.map_take, List.map_append, List.map_append, List.map_append, List.map_append, hmore,
      name_end_perm hmatching]

end Order

/-- The completion of the last word on the line of a command that takes a path: it is extended to what the matching
    names have in common, whatever their order. -/
theorem tab_completes_word (st : Console) (cmd word : CStr) (hline : PathLine st.shell_buffer cmd word) (rc : Int)
    (reports : List Report)
    (hlist : Returns (fun fuel => fat32_list_dir fuel st.os.fs st.os.fs.fat32_cwd_cluster) (rc, reports))
    (hplain : PlainNames reports) :
    ∃ st', Returns (fun fuel => shell_input fuel st tab) st' ∧ Completes reports word st.shell_buffer st'.shell_buffer ∧
      ∀ (st₂ : Console) (rc₂ : Int) (reports₂ : List Report), st₂.shell_buffer = st.shell_buffer → reports.Perm reports₂ →
        Returns (fun fuel => fat32_list_dir fuel st₂.os.fs st₂.os.fs.fat32_cwd_cluster) (rc₂, reports₂) →
        ∃ st₂', Returns (fun fuel => shell_input fuel st₂ tab) st₂' ∧
          st₂'.shell_buffer.map lower = st'.shell_buffer.map lower := by
  obtain ⟨st', hst', hcompletes⟩ := shell_input_completes hline hlist hplain
  refine ⟨st', hst', hcompletes, fun st₂ rc₂ reports₂ hsame hperm hlist₂ => ?_⟩
  have hplain₂ : PlainNames reports₂ := fun r hr => hplain r (hperm.mem_iff.mpr hr)
  obtain ⟨st₂', hst₂', hcompletes₂⟩ := shell_input_completes (hsame.symm ▸ hline) hlist₂ hplain₂
  rw [hsame] at hcompletes₂
  exact ⟨st₂', hst₂', hcompletes₂.same_up_to_case hcompletes hperm.symm⟩

/-- A console in front of a line. -/
def console (fs : Fat32) (line : CStr) : Console := ⟨⟨fs, [], []⟩, line, ⟨[], 0, [], 0, false⟩, false⟩

/-- A root directory with a file `ALPHA` and a directory `ALBUM`. -/
def two_names_state : Fat32 := { small_state with
  disk := Function.update small_state.disk 2
    (put_entry (put_entry zero_buf 0 (ascii "ALPHA   ") (ascii "   ") FAT_ATTR_ARCHIVE 3 512)
      1 (ascii "ALBUM   ") (ascii "   ") FAT_ATTR_DIRECTORY 4 0) }

theorem tab_completes_word_common :
    ∃ st', Returns (fun fuel => shell_input fuel (console two_names_state (ascii "cd  a")) tab) st' ∧
      Completes [⟨ascii "ALPHA", FAT_ATTR_ARCHIVE, 512, 3⟩, ⟨ascii "ALBUM", FAT_ATTR_DIRECTORY, 0, 4⟩] (ascii "a")
        (ascii "cd  a") st'.shell_buffer := by
  have hline : PathLine (ascii "cd  a") (ascii "cd") (ascii "a") :=
    ⟨by decide +kernel, ⟨1, by decide +kernel⟩, by decide +kernel, by decide +kernel, by decide +kernel⟩
  have hlist : fat32_list_dir 1 two_names_state two_names_state.fat32_cwd_cluster =
      some (0, [⟨ascii "ALPHA", FAT_ATTR_ARCHIVE, 512, 3⟩, ⟨ascii "ALBUM", FAT_ATTR_DIRECTORY, 0, 4⟩]) := by decide +kernel
  have hplain : PlainNames [⟨ascii "ALPHA", FAT_ATTR_ARCHIVE, 512, 3⟩, ⟨ascii "ALBUM", FAT_ATTR_DIRECTORY, 0, 4⟩] := by
    unfold PlainNames
    decide +kernel
  obtain ⟨st', hst', hcompletes, -⟩ := tab_completes_word (console two_names_state (ascii "cd  a")) (ascii "cd") (ascii "a") hline 0
    _ ((fat32_list_dir_stable _ _).returns hlist) hplain
  exact ⟨st', hst', hcompletes⟩

/-- The listing of `twin_state`. -/
def twins : List Report := [⟨ascii "A", FAT_ATTR_ARCHIVE, 512, 3⟩, ⟨ascii "A", FAT_ATTR_ARCHIVE, 512, 4⟩]

/-- Two entries of one name: the name is the only one that matches, but nothing is put behind it. -/
theorem twins_not_ended :
    (∃ reports, Returns (fun fuel => fat32_list_dir fuel twin_state twin_state.fat32_cwd_cluster) (0, reports) ∧
      PlainNames reports ∧ reports ≠ [] ∧ ∀ r ∈ reports, r.name = ascii "A" ∧ is_dir r = false) ∧
    PathLine (ascii "cat a") (ascii "cat") (ascii "a") ∧
    ∃ st', Returns (fun fuel => shell_input fuel (console twin_state (ascii "cat a")) tab) st' ∧
      st'.shell_buffer = ascii "cat a" ∧ st'.shell_buffer.map lower ≠ (ascii "cat A ").map lower := by
  have hlist : fat32_list_dir 1 twin_state twin_state.fat32_cwd_cluster = some (0, twins) := by decide +kernel
  have hplain : PlainNames twins := by
    unfold PlainNames
    decide +kernel
  have hline : PathLine (ascii "cat a") (ascii "cat") (ascii "a") :=
    ⟨by decide +kernel, ⟨0, by decide +kernel⟩, by decide +kernel, by decide +kernel, by decide +kernel⟩
  have hmatching : matching twins (ascii "a") = twins := by decide +kernel
  have hreturns := (fat32_list_dir_stable twin_state twin_state.fat32_cwd_cluster).returns hlist
  refine ⟨⟨_, hreturns, hplain, by decide, by decide +kernel⟩, hline, ?_⟩
  obtain ⟨st', hst', hcompletes⟩ := @shell_input_completes (console twin_state (ascii "cat a")) _ _ _ _ hline hreturns hplain
  obtain ⟨more, hbuffer, hlcp⟩ := hcompletes.matched (by rw [hmatching]; decide)
  have hnothing : more = [] := by
    rw [hmatching] at hlcp
    have hshort := (hlcp.common _ ⟨_, List.mem_cons_self, rfl⟩).length_le
    simp only [List.map_append, List.length_append, List.length_map] at hshort
    have hword : (ascii "a").length = 1 := by decide
    have hname : (ascii "A").length = 1 := by decide
    exact List.length_eq_zero_iff.mp (by omega)
  have hsame : st'.shell_buffer = ascii "cat a" := by
    rw [hbuffer, hnothing, hmatching]
    decide +kernel
  refine ⟨st', hst', hsame, ?_⟩
  rw [hsame]
  decide +kernel

end os_dev.shell
