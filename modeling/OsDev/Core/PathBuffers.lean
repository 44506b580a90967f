import OsDev.Core.Shell
import OsDev.Fat32.Integrity

open os_dev.libc os_dev.fat32 os_dev.agent char_array

namespace os_dev.shell

variable {fuel : ℕ} {st : Fat32} {path name key : CStr} {n : ℕ}

/-- `temp_path` of `fat32_resolve_path` and `parent_path` of `fat32_mkdir` and
    `fat32_rmdir`. -/
def path_copy (path : CStr) : CharArray FAT32_MAX_PATH := (CharArray.zeroed FAT32_MAX_PATH).strcpy path

def dir_name (name : CStr) : CharArray FAT32_MAX_FILENAME := (CharArray.zeroed FAT32_MAX_FILENAME).strcpy name

/-- Whether the copies of `fat32_resolve_path` stay inside of their arrays. -/
def resolve_inside (st : Fat32) (path : CStr) : Bool :=
  if st.mounted = false then true
  else if path = [] then true
  else (path_copy path).inside

/-- The same for the copies with which `fat32_mkdir` and `fat32_rmdir` take a path apart;
    while the walk to the parent directory goes on, the name has not been copied. -/
def split_inside (fuel : ℕ) (st : Fat32) (path : CStr) : Bool :=
  (path_copy path).inside &&
    match split_last_slash path with
    | none => (dir_name path).inside
    | some ([], name) => (dir_name name).inside
    | some (parent_path, name) =>
      resolve_inside st parent_path &&
        match fat32_resolve_path fuel st parent_path with
        | some _ => (dir_name name).inside
        | none => true

def mkdir_inside (fuel : ℕ) (st : Fat32) (path : CStr) : Bool :=
  if st.mounted = false then true
  else
    split_inside fuel st path &&
      match parent_and_name fuel st path with
      | some (parent_cluster, _, leading) =>
        if parent_cluster = 0 ∧ leading = false then true else resolve_inside st path
      | none => true

def rmdir_inside (fuel : ℕ) (st : Fat32) (path : CStr) : Bool :=
  if st.mounted = false then true
  else if path = [slash] then true
  else
    resolve_inside st path &&
      match fat32_resolve_path fuel st path with
      | some cluster => if cluster = 0 then true else split_inside fuel st path
      | none => true

/-- A relative path behind the current one. -/
def cwd_append (st : Fat32) (path : CStr) : CharArray FAT32_MAX_PATH :=
  let fat32_cwd_path : CharArray FAT32_MAX_PATH := ⟨st.fat32_cwd_path, true⟩
  let fat32_cwd_path := if fat32_cwd_path.str ≠ [slash] then fat32_cwd_path.strcat [slash] else fat32_cwd_path
  fat32_cwd_path.strcat path

/-- The writes to `fat32_cwd_path` once the path has been resolved. -/
def cwd_inside (st : Fat32) (path : CStr) (cluster : ℕ) : Bool :=
  let fat32_cwd_path : CharArray FAT32_MAX_PATH := ⟨st.fat32_cwd_path, true⟩
  if cluster = 0 then true
  else if path.head? = some slash then (fat32_cwd_path.strncpy 0 path (FAT32_MAX_PATH - 1)).inside
  else if path = [dot] ∨ path = [dot, dot] then true
  else (cwd_append st path).inside

def chdir_inside (fuel : ℕ) (st : Fat32) (path : CStr) : Bool :=
  resolve_inside st path &&
    match fat32_resolve_path fuel st path with
    | some cluster => cwd_inside st path cluster
    | none => true

/-- `agent_ctx_set` and `agent_ctx_get` put the path together and open the file. -/
def ctx_inside (st : Fat32) (key : CStr) : Bool := (ctx_path key).inside && resolve_inside st (ctx_path key).str

def command_inside (fuel : ℕ) (st : Fat32) : Command → Bool
  | .ls (some path) => resolve_inside st path
  | .cd path => chdir_inside fuel st path
  | .cat file => resolve_inside st file
  | .touch file => resolve_inside st file
  | .write file _ => resolve_inside st file
  | .mkdir dir => mkdir_inside fuel st dir
  | .rmdir dir => rmdir_inside fuel st dir
  | .agent_ctx_set key _ => ctx_inside st key
  | .agent_ctx_get key => ctx_inside st key
  | _ => true

/-- Whether all copies made by a sequence of command lines stay inside. -/
def run_inside (fuel : ℕ) : Os → List CStr → Bool
  | _, [] => true
  | os, cmd :: cmds =>
    command_inside fuel os.fs (parse_line cmd) &&
      match shell_execute fuel os cmd with
      | some os => run_inside fuel os cmds
      | none => true

/-- The path resolves to something. -/
def Resolves (fuel : ℕ) (st : Fat32) (path : CStr) : Prop := ∃ cluster, cluster ≠ 0 ∧ fat32_resolve_path fuel st path = some cluster

/-- What the arrays ask for: a name below twelve characters, a current path and a key that
    are not too long. -/
def CommandFits (fuel : ℕ) (st : Fat32) : Command → Prop
  | .cd path => Resolves fuel st path → path.head? ≠ some slash → path ≠ [dot] → path ≠ [dot, dot] →
    st.fat32_cwd_path.length + (if st.fat32_cwd_path ≠ [slash] then 1 else 0) + path.length < FAT32_MAX_PATH
  | .mkdir dir => st.mounted = true → (parent_and_name fuel st dir).isSome = true → (base_name dir).length < FAT32_MAX_FILENAME
  | .rmdir dir => st.mounted = true → dir ≠ [slash] → Resolves fuel st dir → (parent_and_name fuel st dir).isSome = true →
    (base_name dir).length < FAT32_MAX_FILENAME
  | .agent_ctx_set key _ => key.length ≤ 113
  | .agent_ctx_get key => key.length ≤ 113
  | _ => True

/-- Every command of a sequence fits the state that it finds. -/
def RunFits (fuel : ℕ) : Os → List CStr → Prop
  | _, [] => True
  | os, cmd :: cmds => CommandFits fuel os.fs (parse_line cmd) ∧ ∀ os', shell_execute fuel os cmd = some os' → RunFits fuel os' cmds

theorem path_copy_inside (h : path.length < FAT32_MAX_PATH) : (path_copy path).inside = true :=
  (CharArray.Sound.strcpy (CharArray.zeroed_sound (by decide)) h).1

theorem dir_name_inside : (dir_name name).inside = true ↔ name.length < FAT32_MAX_FILENAME := by
  simp only [dir_name, CharArray.strcpy, CharArray.wrote, CharArray.zeroed, Bool.true_and, decide_eq_true_eq, Nat.zero_add]
  exact Nat.succ_le_iff

theorem resolve_inside_eq (h : path.length < FAT32_MAX_PATH) : resolve_inside st path = true := by
  unfold resolve_inside
  split
  · rfl
  · split
    · rfl
    · exact path_copy_inside h

theorem split_inside_iff (h : path.length < FAT32_MAX_PATH) :
    split_inside fuel st path = true ↔ ((parent_and_name fuel st path).isSome = true → (base_name path).length < FAT32_MAX_FILENAME) := by
  simp only [split_inside, path_copy_inside h, Bool.true_and, parent_and_name, base_name]
  cases hsplit : split_last_slash path with
  | none => simp only [dir_name_inside, Option.isSome_some, true_implies]
  | some pair =>
    obtain ⟨parent_path, name⟩ := pair
    cases parent_path with
    | nil => simp only [dir_name_inside, Option.isSome_some, true_implies]
    | cons c front =>
      have hlen : (c :: front).length < FAT32_MAX_PATH := by
        have hpath := congrArg List.length (split_last_slash_some hsplit).1
        rw [List.length_append] at hpath
        omega
      simp only [resolve_inside_eq hlen, Bool.true_and]
      cases hres : fat32_resolve_path fuel st (c :: front) with
      | none => simp
      | some cluster => simp [dir_name_inside]

theorem mkdir_inside_iff (h : path.length < FAT32_MAX_PATH) :
    mkdir_inside fuel st path = true ↔ CommandFits fuel st (.mkdir path) := by
  have hsecond : (match parent_and_name fuel st path with
      | some (parent_cluster, _, leading) =>
        if parent_cluster = 0 ∧ leading = false then true else resolve_inside st path
      | none => true) = true := by
    split
    · split
      · rfl
      · exact resolve_inside_eq h
    · rfl
  unfold mkdir_inside
  split
  · rename_i hmounted
    simp [CommandFits, hmounted]
  · rename_i hmounted
    rw [hsecond, Bool.and_true, split_inside_iff h]
    exact ⟨fun hfits _ => hfits, fun hfits => hfits (Bool.eq_true_of_not_eq_false hmounted)⟩

theorem rmdir_inside_iff (h : path.length < FAT32_MAX_PATH) :
    rmdir_inside fuel st path = true ↔ CommandFits fuel st (.rmdir path) := by
  unfold rmdir_inside
  split
  · rename_i hmounted
    simp [CommandFits, hmounted]
  · rename_i hmounted
    have hmounted' := Bool.eq_true_of_not_eq_false hmounted
    split
    · rename_i hroot
      simp [CommandFits, hroot]
    · rename_i hroot
      rw [resolve_inside_eq h, Bool.true_and]
      cases hres : fat32_resolve_path fuel st path with
      | none => simp [CommandFits, Resolves, hres]
      | some cluster =>
        by_cases hzero : cluster = 0
        · simp [CommandFits, Resolves, hres, hzero]
        · simp only [hzero, if_false, split_inside_iff h]
          exact ⟨fun hfits _ _ _ => hfits, fun hfits => hfits hmounted' hroot ⟨cluster, hzero, hres⟩⟩

/-- What lies in the array is the path that the file system goes on with. -/
theorem change_cwd_append {cluster : ℕ} (hzero : cluster ≠ 0) (habs : path.head? ≠ some slash) (hdot : path ≠ [dot])
    (hdotdot : path ≠ [dot, dot]) :
    change_cwd st path cluster = some (0, { st with
      fat32_cwd_path := (cwd_append st path).str, fat32_cwd_cluster := cluster }) := by
  have hstr : (cwd_append st path).str =
      st.fat32_cwd_path ++ (if st.fat32_cwd_path ≠ [slash] then [slash] else []) ++ path := by
    simp only [cwd_append]
    split
    · rfl
    · rw [List.append_nil]
      rfl
  rw [change_cwd, if_neg hzero, if_neg habs, if_neg hdot, if_neg hdotdot, hstr]

/-- The path grows by a separator and the new part. -/
theorem cwd_append_inside : (cwd_append st path).inside = true ↔
    st.fat32_cwd_path.length + (if st.fat32_cwd_path ≠ [slash] then 1 else 0) + path.length < FAT32_MAX_PATH := by
  simp only [cwd_append]
  split
  · simp only [CharArray.strcat, CharArray.wrote, Bool.true_and, Bool.and_eq_true, decide_eq_true_eq, List.length_append,
      List.length_singleton]
    omega
  · simp only [CharArray.strcat, CharArray.wrote, Bool.true_and, decide_eq_true_eq]
    omega

theorem chdir_inside_iff (h : path.length < FAT32_MAX_PATH) :
    chdir_inside fuel st path = true ↔ CommandFits fuel st (.cd path) := by
  rw [chdir_inside, resolve_inside_eq h, Bool.true_and]
  cases hres : fat32_resolve_path fuel st path with
  | none => simp [CommandFits, Resolves, hres]
  | some cluster =>
    simp only [cwd_inside]
    split_ifs with hzero habs hdots
    · simp [CommandFits, Resolves, hres, hzero]
    · have hinside : ((⟨st.fat32_cwd_path, true⟩ : CharArray FAT32_MAX_PATH).strncpy 0 path (FAT32_MAX_PATH - 1)).inside = true := rfl
      simp [CommandFits, habs, hinside]
    · obtain rfl | rfl := hdots
      · simp [CommandFits]
      · simp [CommandFits]
    · rw [cwd_append_inside]
      obtain ⟨hdot, hdotdot⟩ := not_or.mp hdots
      exact ⟨fun hfits _ _ _ _ => hfits, fun hfits => hfits ⟨cluster, hzero, hres⟩ habs hdot hdotdot⟩

theorem ctx_path_length (key : CStr) : (ctx_path key).str.length = key.length + 14 := by
  have hhead : (ascii "/agent/db/").length = 10 := ascii_ofList_length _
  have htail : (ascii ".txt").length = 4 := ascii_ofList_length _
  simp only [ctx_path, CharArray.strcat, CharArray.strcpy, List.length_append]
  omega

theorem ctx_path_inside : (ctx_path key).inside = true ↔ key.length ≤ 113 := by
  have hhead : (ascii "/agent/db/").length = 10 := ascii_ofList_length _
  have htail : (ascii ".txt").length = 4 := ascii_ofList_length _
  simp only [ctx_path, CharArray.strcat, CharArray.strcpy, CharArray.wrote, CharArray.zeroed, List.length_append, Bool.true_and,
    Bool.and_eq_true, decide_eq_true_eq, hhead, htail]
  omega

theorem ctx_inside_iff : ctx_inside st key = true ↔ key.length ≤ 113 := by
  rw [ctx_inside, Bool.and_eq_true, ctx_path_inside]
  constructor
  · exact And.left
  · intro hkey
    refine ⟨hkey, resolve_inside_eq ?_⟩
    rw [ctx_path_length, FAT32_MAX_PATH]
    omega

/-- The paths in a command are no longer than `n`. -/
def Bounded (n : ℕ) : Command → Prop
  | .ls (some path) => path.length ≤ n
  | .cd path => path.length ≤ n
  | .cat file => file.length ≤ n
  | .touch file => file.length ≤ n
  | .write file _ => file.length ≤ n
  | .mkdir dir => dir.length ≤ n
  | .rmdir dir => dir.length ≤ n
  | _ => True

theorem bounded_with_arg {arg : Option CStr} {command : CStr → Command} (usage : CStr) (harg : ∀ a, arg = some a → a.length ≤ n)
    (h : ∀ a, a.length ≤ n → Bounded n (command a)) : Bounded n (with_arg usage arg command) := by
  cases arg with
  | none => trivial
  | some a => exact h a (harg a rfl)

theorem split_space_length {s first second : CStr} (h : split_space s = some (first, second)) :
    first.length ≤ s.length ∧ second.length ≤ s.length := by
  unfold split_space at h
  split at h
  · cases h
    have htail := (List.dropWhile_sublist (l := s) fun c => decide (c ≠ space)).length_le
    refine ⟨(List.takeWhile_sublist _).length_le, ?_⟩
    rw [List.length_tail]
    omega
  · cases h

theorem bounded_with_two {arg : Option CStr} {command : CStr → CStr → Command} (usage : CStr)
    (harg : ∀ a, arg = some a → a.length ≤ n) (h : ∀ a b, a.length ≤ n → Bounded n (command a b)) :
    Bounded n (with_two usage arg command) := by
  refine bounded_with_arg usage harg fun a ha => ?_
  split
  · rename_i first second hsplit
    exact h first second (Nat.le_trans (split_space_length hsplit).1 ha)
  · trivial

theorem bounded_ai (ip_str prompt : CStr) : Bounded n (ai_command ip_str prompt) := by
  simp only [ai_command]
  split
  · trivial
  · trivial

theorem bounded_ite {p : Prop} [Decidable p] {a b : Command} (ha : Bounded n a) (hb : Bounded n b) :
    Bounded n (if p then a else b) := by
  split
  · exact ha
  · exact hb

theorem bounded_command_of (cmd : CStr) {arg : Option CStr} (harg : ∀ a, arg = some a → a.length ≤ n) :
    Bounded n (command_of cmd arg) := by
  have hls : Bounded n (.ls arg) := by
    cases arg with
    | none => trivial
    | some a => exact harg a rfl
  unfold command_of
  repeat' with_reducible refine bounded_ite ?_ ?_
  all_goals first
    | with_reducible exact hls
    | with_reducible refine bounded_with_arg _ harg fun a ha => ?_
    | with_reducible refine bounded_with_two _ harg fun a b ha => ?_
    | trivial
  all_goals first
    | exact ha
    | exact bounded_ai a b
    | trivial

theorem argument_length {rest a : CStr} (h : argument rest = some a) : a.length ≤ rest.length := by
  simp only [argument] at h
  split at h
  · cases h
  · cases h
    exact Nat.le_trans (strip_slashes_length_le _) (List.dropWhile_sublist _).length_le

/-- The paths of a command are no longer than its line. -/
theorem bounded_parse_line {line : CStr} (h : line.length ≤ n) : Bounded n (parse_line line) := by
  have htrim := trim_length_le line
  simp only [parse_line]
  split
  · trivial
  · refine bounded_command_of _ fun a ha => ?_
    unfold split_line at ha
    split at ha
    · rename_i cmd rest hsplit
      have hrest := (split_space_length hsplit).2
      have harg := argument_length ha
      omega
    · cases ha

/-- What one command asks of the arrays. -/
theorem command_inside_iff (fuel : ℕ) (st : Fat32) {c : Command} (h : Bounded 255 c) :
    command_inside fuel st c = true ↔ CommandFits fuel st c := by
  have hpath : ∀ {path : CStr}, path.length ≤ 255 → path.length < FAT32_MAX_PATH := fun h => Nat.lt_succ_of_le h
  cases c with
  | ls path =>
    cases path with
    | none => exact iff_of_true rfl trivial
    | some path => exact iff_of_true (resolve_inside_eq (hpath h)) trivial
  | cat file => exact iff_of_true (resolve_inside_eq (hpath h)) trivial
  | touch file => exact iff_of_true (resolve_inside_eq (hpath h)) trivial
  | write file text => exact iff_of_true (resolve_inside_eq (hpath h)) trivial
  | cd path => exact chdir_inside_iff (hpath h)
  | mkdir dir => exact mkdir_inside_iff (hpath h)
  | rmdir dir => exact rmdir_inside_iff (hpath h)
  | agent_ctx_set key value => exact ctx_inside_iff
  | agent_ctx_get key => exact ctx_inside_iff
  | _ => exact iff_of_true rfl trivial

/-- In every sequence of command lines of at most 255 characters, from any state on: all
    copies of paths, names and keys stay inside of their arrays exactly if each command
    fits the state it finds. -/
theorem shell_names_fit_iff (fuel : ℕ) (os : Os) (cmds : List CStr) (hlen : ∀ cmd ∈ cmds, cmd.length ≤ 255) :
    run_inside fuel os cmds = true ↔ RunFits fuel os cmds := by
  induction cmds generalizing os with
  | nil => exact iff_of_true rfl trivial
  | cons cmd cmds ih =>
    have hcmd := command_inside_iff fuel os.fs (bounded_parse_line (hlen cmd List.mem_cons_self))
    have hrest := fun os => ih os fun cmd hmem => hlen cmd (List.mem_cons_of_mem _ hmem)
    rw [run_inside, RunFits, Bool.and_eq_true, hcmd]
    refine and_congr_right fun _ => ?_
    cases hexec : shell_execute fuel os cmd with
    | none => exact iff_of_true rfl nofun
    | some os' => exact (hrest os').trans ⟨fun hfits _ heq => Option.some.inj heq ▸ hfits, fun hfits => hfits os' rfl⟩

/-- A directory with a short name. -/
theorem shell_names_fit_docs :
    run_inside 10 ⟨small_state, [], []⟩ [ascii "mkdir docs"] = true :=
  (shell_names_fit_iff 10 ⟨small_state, [], []⟩ [ascii "mkdir docs"] (by decide)).mpr
    ⟨fun _ _ => by decide, fun _ _ => trivial⟩

/-- A full 8.3 name takes thirteen bytes with its NUL. -/
theorem full_name_overflows :
    (ascii "mkdir ABCDEFGH.TXT").length ≤ 255 ∧ run_inside 10 ⟨small_state, [], []⟩ [ascii "mkdir ABCDEFGH.TXT"] = false := by
  decide +kernel

end os_dev.shell
