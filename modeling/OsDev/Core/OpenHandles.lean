import OsDev.Core.TypedLines

open os_dev.libc os_dev.fat32 os_dev.agent os_dev.keyboard

namespace os_dev.shell

/-- The same volume is mounted, and the same handles are open. -/
structure SameTable (st st' : Fat32) : Prop where
  vol : st'.vol = st.vol
  mounted : st'.mounted = st.mounted
  valid : ∀ i, (st'.open_files i).valid = (st.open_files i).valid

/-- One more handle is open. -/
structure Took (st st' : Fat32) (i : Fin 8) : Prop where
  vol : st'.vol = st.vol
  mounted : st'.mounted = st.mounted
  free : (st.open_files i).valid = false
  valid : ∀ j, j ≠ i → (st'.open_files j).valid = (st.open_files j).valid

variable {fuel : ℕ} {st st' st'' : Fat32} {fd : Int} {i : Fin 8} {path : CStr} {os os' : Os} {con con' : Console}

theorem SameTable.refl (st : Fat32) : SameTable st st := ⟨rfl, rfl, fun _ => rfl⟩

theorem SameTable.trans (h : SameTable st st') (h' : SameTable st' st'') : SameTable st st'' :=
  ⟨h'.vol.trans h.vol, h'.mounted.trans h.mounted, fun i => (h'.valid i).trans (h.valid i)⟩

theorem Took.trans (h : Took st st' i) (h' : SameTable st' st'') : Took st st'' i :=
  ⟨h'.vol.trans h.vol, h'.mounted.trans h.mounted, h.free, fun j hj => (h'.valid j).trans (h.valid j hj)⟩

/-- What is opened is closed again. -/
theorem Took.close (h : Took st st' i) : SameTable st (fat32_close st' (i.val : Int)) := by
  have hfd : 0 ≤ (i.val : Int) ∧ (i.val : Int) < 8 := by omega
  have hi : (⟨((i.val : Int)).toNat, by omega⟩ : Fin 8) = i := Fin.ext (Int.toNat_natCast _)
  rw [fat32_close, dif_pos hfd, hi]
  refine ⟨h.vol, h.mounted, fun j => ?_⟩
  change (Function.update st'.open_files i { st'.open_files i with valid := false } j).valid = (st.open_files j).valid
  rw [Function.update_apply]
  split_ifs with hj
  · rw [hj, h.free]
  · exact h.valid j hj

theorem update_sameTable (d : ata.Disk) {file : fat32_file_t} (hfile : file.valid = (st.open_files i).valid) :
    SameTable st { st with disk := d, open_files := Function.update st.open_files i file } := by
  refine ⟨rfl, rfl, fun j => ?_⟩
  change (Function.update st.open_files i file j).valid = (st.open_files j).valid
  rw [Function.update_apply]
  split_ifs with hj
  · rw [hj, hfile]
  · rfl

theorem update_took (d : ata.Disk) (file : fat32_file_t) (hfree : (st.open_files i).valid = false) :
    Took st { st with disk := d, open_files := Function.update st.open_files i file } i :=
  ⟨rfl, rfl, hfree, fun _ hj => congrArg fat32_file_t.valid (Function.update_of_ne hj file st.open_files)⟩

theorem free_handle_free (h : free_handle st.open_files = some i) : (st.open_files i).valid = false := by
  have hfound := List.find?_some h
  simpa using hfound

theorem open_handle_cases {c : ℕ} (h : open_handle fuel st path c = some (fd, st')) :
    SameTable st st' ∧ fd < 0 ∨ ∃ i, fd = i.val ∧ Took st st' i := by
  rw [open_handle] at h
  cases hfree : free_handle st.open_files with
  | none =>
    rw [hfree] at h
    cases h
    exact .inl ⟨.refl st, by decide⟩
  | some i =>
    rw [hfree] at h
    obtain ⟨found, -, hfound⟩ := Option.bind_eq_some_iff.mp h
    cases found with
    | none =>
      cases hfound
      exact .inl ⟨update_sameTable st.disk (free_handle_free hfree).symm, by decide⟩
    | some f =>
      cases hfound
      exact .inr ⟨i, rfl, update_took st.disk _ (free_handle_free hfree)⟩

theorem disk_sameTable (st : Fat32) (d : ata.Disk) : SameTable st { st with disk := d } := ⟨rfl, rfl, fun _ => rfl⟩

/-- A call of `fat32_open` takes a handle exactly if it returns one. -/
theorem open_cases {mode : UInt8} (h : fat32_open fuel st path mode = some (fd, st')) :
    SameTable st st' ∧ fd < 0 ∨ ∃ i, fd = i.val ∧ Took st st' i := by
  obtain ⟨c, -, h⟩ := Option.bind_eq_some_iff.mp h
  dsimp only at h
  split_ifs at h with hcreate hzero
  · obtain ⟨⟨rc, y, d⟩, -, h⟩ := Option.bind_eq_some_iff.mp h
    dsimp only at h
    split_ifs at h with hrc
    · cases h
      exact .inl ⟨disk_sameTable st d, by decide⟩
    · obtain ⟨hsame, hneg⟩ | ⟨i, rfl, htook⟩ := open_handle_cases h
      · exact .inl ⟨(disk_sameTable st d).trans hsame, hneg⟩
      · exact .inr ⟨i, rfl, htook.vol, htook.mounted, htook.free, htook.valid⟩
  · cases h
    exact .inl ⟨.refl st, by decide⟩
  · exact open_handle_cases h

theorem read_loop_valid (v : Volume) (d : ata.Disk) (len n : ℕ) (file : fat32_file_t) (bytes_read : ℕ) :
    (read_loop v d len n file bytes_read).1.valid = file.valid := by
  induction n generalizing file bytes_read with
  | zero => rfl
  | succ n ih =>
    rw [read_loop]
    dsimp only
    split_ifs
    · rfl
    · rfl
    · exact ih ..
    · exact ih ..
    · rfl

theorem read_sameTable (st : Fat32) (fd : Int) (len : ℕ) : SameTable st (fat32_read st fd len).2.2 := by
  rw [fat32_read]
  split
  · exact .refl st
  · dsimp only
    split_ifs
    · exact .refl st
    · exact update_sameTable st.disk (read_loop_valid ..)
    · exact update_sameTable st.disk (read_loop_valid ..)

theorem write_loop_valid (v : Volume) (n : ℕ) (d : ata.Disk) (file : fat32_file_t) (buf : ata.Sector) (bytes : List UInt8) :
    (write_loop v n d file buf bytes).2.1.valid = file.valid := by
  induction n generalizing d file buf bytes with
  | zero => rfl
  | succ n ih =>
    have hadvance : ∀ (d : ata.Disk) (file : fat32_file_t), (write_advance v d file).2.1.valid = file.valid := by
      intro d file
      rw [write_advance]
      dsimp only
      split_ifs <;> rfl
    rw [write_loop]
    dsimp only
    split_ifs
    · rfl
    · exact (ih ..).trans (hadvance _ _)
    · exact hadvance _ _

theorem write_sameTable (st : Fat32) (fd : Int) (bytes : List UInt8) : SameTable st (fat32_write st fd bytes).2 := by
  rw [fat32_write]
  split
  · exact .refl st
  · dsimp only
    split_ifs
    · exact update_sameTable _ (write_loop_valid ..)
    · exact update_sameTable _ (write_loop_valid ..)

theorem mkdir_sameTable (h : fat32_mkdir fuel st path = some (fd, st')) : SameTable st st' := by
  rw [fat32_mkdir] at h
  split at h
  · cases h
    exact .refl st
  obtain ⟨⟨parent, name, leading⟩, -, h⟩ := Option.bind_eq_some_iff.mp h
  dsimp only at h
  split at h
  · cases h
    exact .refl st
  obtain ⟨c, -, h⟩ := Option.bind_eq_some_iff.mp h
  split at h
  · cases h
    exact .refl st
  split at h
  · cases h
    exact .refl st
  obtain ⟨⟨rc, d⟩, -, h⟩ := Option.bind_eq_some_iff.mp h
  cases h
  exact disk_sameTable st d

theorem rmdir_sameTable (h : fat32_rmdir fuel st path = some (fd, st')) : SameTable st st' := by
  rw [fat32_rmdir] at h
  split_ifs at h
  · cases h
    exact .refl st
  · cases h
    exact .refl st
  obtain ⟨c, -, h⟩ := Option.bind_eq_some_iff.mp h
  split at h
  · cases h
    exact .refl st
  obtain ⟨⟨parent, name, leading⟩, -, h⟩ := Option.bind_eq_some_iff.mp h
  obtain ⟨d, -, h⟩ := Option.bind_eq_some_iff.mp h
  obtain ⟨found, -, h⟩ := Option.bind_eq_some_iff.mp h
  cases found with
  | none =>
    cases h
    exact disk_sameTable st d
  | some f =>
    cases h
    exact disk_sameTable st _

theorem unlink_sameTable (h : fat32_unlink fuel st path = some (fd, st')) : SameTable st st' := by
  rw [fat32_unlink] at h
  split at h
  · cases h
    exact .refl st
  obtain ⟨found, -, h⟩ := Option.bind_eq_some_iff.mp h
  cases found with
  | none =>
    cases h
    exact .refl st
  | some f =>
    dsimp only at h
    split at h
    · cases h
      exact .refl st
    · obtain ⟨d, -, h⟩ := Option.bind_eq_some_iff.mp h
      cases h
      exact disk_sameTable st d

theorem chdir_sameTable (h : fat32_chdir fuel st path = some (fd, st')) : SameTable st st' := by
  obtain ⟨c, -, h⟩ := Option.bind_eq_some_iff.mp h
  have hcwd : ∀ cwd cluster, SameTable st { st with fat32_cwd_path := cwd, fat32_cwd_cluster := cluster } :=
    fun _ _ => ⟨rfl, rfl, fun _ => rfl⟩
  rw [change_cwd] at h
  split_ifs at h
  · cases h
    exact .refl st
  · cases h
    exact hcwd _ _
  · cases h
    exact .refl st
  · cases h
    exact .refl st
  · split at h
    · cases h
      exact hcwd _ _
    · cases h
      exact hcwd _ _
    · cases h
  · cases h
    exact hcwd _ _
  · cases h
    exact hcwd _ _

theorem print_file_sameTable (h : print_file fuel os fd = some os') : SameTable os.fs os'.fs := by
  induction fuel generalizing os with
  | zero => cases h
  | succ fuel ih =>
    rw [print_file] at h
    dsimp only at h
    split at h
    · exact (read_sameTable os.fs fd 512).trans (ih h)
    · cases h
      exact read_sameTable os.fs fd 512

theorem ls_callbacks_fs (reports : List Report) (os : Os) : (reports.foldl ls_callback os).fs = os.fs :=
  (quiet_eq_iff.mp (ls_callbacks_quiet os reports)).1

theorem ls_sameTable {cluster : ℕ} (h : fat32_ls fuel os cluster = some os') : SameTable os.fs os'.fs := by
  obtain ⟨⟨rc, reports⟩, -, h⟩ := Option.bind_eq_some_iff.mp h
  cases h
  rw [ls_callbacks_fs]
  exact .refl os.fs

theorem fs_command_sameTable {f : Fat32 → Option (Int × Fat32)} {done failed : CStr}
    (hf : ∀ rc st', f os.fs = some (rc, st') → SameTable os.fs st') (h : fs_command f done failed os = some os') :
    SameTable os.fs os'.fs := by
  obtain ⟨⟨rc, st'⟩, hcall, h⟩ := Option.bind_eq_some_iff.mp h
  cases h
  exact hf rc st' hcall

theorem cat_sameTable {file : CStr} (h : cat_command fuel os file = some os') : SameTable os.fs os'.fs := by
  obtain ⟨⟨fd, st'⟩, hopen, h⟩ := Option.bind_eq_some_iff.mp h
  dsimp only at h
  obtain ⟨hsame, hneg⟩ | ⟨i, rfl, htook⟩ := open_cases hopen
  · rw [if_neg (not_le_of_gt hneg)] at h
    cases h
    exact hsame
  · rw [if_pos (Int.natCast_nonneg _)] at h
    obtain ⟨os₁, hprint, h⟩ := Option.bind_eq_some_iff.mp h
    cases h
    exact (htook.trans (print_file_sameTable hprint)).close

theorem touch_sameTable {file : CStr} (h : touch_command fuel os file = some os') : SameTable os.fs os'.fs := by
  obtain ⟨⟨fd, st'⟩, hopen, h⟩ := Option.bind_eq_some_iff.mp h
  dsimp only at h
  obtain ⟨hsame, hneg⟩ | ⟨i, rfl, htook⟩ := open_cases hopen
  · rw [if_neg (not_le_of_gt hneg)] at h
    cases h
    exact hsame
  · rw [if_pos (Int.natCast_nonneg _)] at h
    cases h
    exact htook.close

theorem write_sameTable_command {file text : CStr} (h : write_command fuel os file text = some os') : SameTable os.fs os'.fs := by
  obtain ⟨⟨fd, st'⟩, hopen, h⟩ := Option.bind_eq_some_iff.mp h
  dsimp only at h
  obtain ⟨hsame, hneg⟩ | ⟨i, rfl, htook⟩ := open_cases hopen
  · rw [if_neg (not_le_of_gt hneg)] at h
    cases h
    exact hsame
  · rw [if_pos (Int.natCast_nonneg _)] at h
    cases h
    exact (htook.trans (write_sameTable st' _ text)).close

theorem ctx_set_sameTable {key value : CStr} (h : agent_ctx_set fuel os key value = some os') : SameTable os.fs os'.fs := by
  obtain ⟨⟨fd, st'⟩, hopen, h⟩ := Option.bind_eq_some_iff.mp h
  dsimp only at h
  obtain ⟨hsame, hneg⟩ | ⟨i, rfl, htook⟩ := open_cases hopen
  · rw [if_neg (not_le_of_gt hneg)] at h
    cases h
    exact hsame
  · rw [if_pos (Int.natCast_nonneg _)] at h
    cases h
    exact (htook.trans (write_sameTable st' _ value)).close

theorem ctx_get_sameTable {key : CStr} (h : agent_ctx_get fuel os key = some os') : SameTable os.fs os'.fs := by
  obtain ⟨⟨fd, st'⟩, hopen, h⟩ := Option.bind_eq_some_iff.mp h
  dsimp only at h
  obtain ⟨hsame, hneg⟩ | ⟨i, rfl, htook⟩ := open_cases hopen
  · rw [if_neg (not_le_of_gt hneg)] at h
    cases h
    exact hsame
  · rw [if_pos (Int.natCast_nonneg _)] at h
    obtain ⟨os₁, hprint, h⟩ := Option.bind_eq_some_iff.mp h
    cases h
    exact (htook.trans (print_file_sameTable hprint)).close

theorem ls_command_sameTable {path : Option CStr} (h : ls_command fuel os path = some os') : SameTable os.fs os'.fs := by
  cases path with
  | none => exact ls_sameTable h
  | some path =>
    obtain ⟨cluster, -, h⟩ := Option.bind_eq_some_iff.mp h
    split at h
    · exact ls_sameTable h
    · cases h
      exact .refl os.fs

/-- Commands close what they open. -/
theorem execute_sameTable {cmd : Command} (h : execute fuel os cmd = some os') : SameTable os.fs os'.fs := by
  cases cmd with
  | ls path => exact ls_command_sameTable h
  | cd path =>
    obtain ⟨⟨rc, st'⟩, hcall, h⟩ := Option.bind_eq_some_iff.mp h
    have hfs : os'.fs = st' := by
      have hos := Option.some.inj h
      rw [← hos]
      split <;> rfl
    rw [hfs]
    exact chdir_sameTable hcall
  | cat file => exact cat_sameTable h
  | touch file => exact touch_sameTable h
  | write file text => exact write_sameTable_command h
  | rm file =>
    rw [execute] at h
    exact fs_command_sameTable (fun rc st' => unlink_sameTable) h
  | mkdir dir =>
    rw [execute] at h
    exact fs_command_sameTable (fun rc st' => mkdir_sameTable) h
  | rmdir dir =>
    rw [execute] at h
    exact fs_command_sameTable (fun rc st' => rmdir_sameTable) h
  | agent_ctx_set key value => exact ctx_set_sameTable h
  | agent_ctx_get key => exact ctx_get_sameTable h
  | _ =>
    cases h
    exact .refl os.fs

section Input

variable {input : Console → UInt8 → Option Console} (hinput : ∀ con c con', input con c = some con' → SameTable con.os.fs con'.os.fs)

include hinput

theorem foldlM_sameTable {text : CStr} (h : text.foldlM input con = some con') : SameTable con.os.fs con'.os.fs := by
  induction text generalizing con with
  | nil =>
    cases h
    exact .refl _
  | cons c text ih =>
    rw [List.foldlM_cons] at h
    obtain ⟨con₁, hchar, h⟩ := Option.bind_eq_some_iff.mp h
    exact (hinput con c con₁ hchar).trans (ih h)

theorem replay_sameTable {n i : ℕ} (h : replay input n i con = some con') : SameTable con.os.fs con'.os.fs := by
  induction n generalizing i con with
  | zero => cases h
  | succ n ih =>
    rw [replay] at h
    split at h
    · obtain ⟨con₁, hchar, h⟩ := Option.bind_eq_some_iff.mp h
      exact (hinput con _ con₁ hchar).trans (ih h)
    · cases h
      exact .refl _

theorem complete_command_sameTable {word : CStr} (h : complete_command input con word = some con') :
    SameTable con.os.fs con'.os.fs := by
  rw [complete_command] at h
  dsimp only at h
  split at h
  · obtain ⟨con₁, htyped, h⟩ := Option.bind_eq_some_iff.mp h
    have htyped := foldlM_sameTable hinput htyped
    split at h
    · exact htyped.trans (hinput con₁ space con' h)
    · cases h
      exact htyped
  · cases h
    exact .refl _

theorem complete_name_sameTable {word : CStr} (h : complete_name input fuel con word = some con') :
    SameTable con.os.fs con'.os.fs := by
  obtain ⟨⟨rc, reports⟩, -, h⟩ := Option.bind_eq_some_iff.mp h
  dsimp only at h
  rw [type_match] at h
  split at h
  · obtain ⟨con₁, hreplay, h⟩ := Option.bind_eq_some_iff.mp h
    have hreplay := replay_sameTable hinput hreplay
    split at h
    · exact hreplay.trans (hinput con₁ _ con' h)
    · cases h
      exact hreplay
  · cases h
    exact .refl _

theorem complete_sameTable (h : complete input fuel con = some con') : SameTable con.os.fs con'.os.fs := by
  rw [complete] at h
  split at h
  · exact complete_command_sameTable hinput h
  split at h
  · exact complete_name_sameTable hinput h
  · cases h
    exact .refl _

end Input

theorem shell_input_sameTable {c : UInt8} (h : shell_input fuel con c = some con') : SameTable con.os.fs con'.os.fs := by
  induction fuel generalizing con con' c with
  | zero => cases h
  | succ fuel ih =>
    rw [shell_input] at h
    split at h
    · cases h
      exact .refl con.os.fs
    split at h
    · obtain ⟨os', hexecute, h⟩ := Option.bind_eq_some_iff.mp h
      have hsame := execute_sameTable hexecute
      cases h
      exact hsame
    split at h
    · cases h
      exact .refl con.os.fs
    split at h
    · exact complete_sameTable (fun con c con' => ih) h
    · cases h
      rw [Console.type_char]
      split <;> exact .refl con.os.fs

variable {t t' : Terminal}

theorem shell_task_sameTable (h : t.shell_task fuel = some t') : SameTable t.console.os.fs t'.console.os.fs := by
  rw [Terminal.shell_task] at h
  split at h
  · cases h
    rw [Terminal.welcome]
    split <;> exact .refl _
  · split at h
    · obtain ⟨console, hinput, h⟩ := Option.bind_eq_some_iff.mp h
      cases h
      exact shell_input_sameTable hinput
    · cases h
      exact .refl _
  · cases h
    exact .refl _

theorem terminal_step_sameTable {a : Action} (h : t.step fuel a = some t') : SameTable t.console.os.fs t'.console.os.fs := by
  cases a with
  | interrupt scancode =>
    cases h
    exact .refl _
  | shell => exact shell_task_sameTable h
  | draw f =>
    cases h
    exact .refl _

/-- Whatever is typed, completed with tab or not, and whatever the commands come to: what they open they close, so that the
    volume is mounted as it was and the table of open files has as much room as it had. -/
theorem terminal_keeps_handles (fuel : ℕ) (os : Os) (as : List Action) (t : Terminal) (h : terminal fuel os as = some t) :
    SameTable os.fs t.console.os.fs := by
  induction as using List.reverseRecOn generalizing t with
  | nil =>
    cases h
    exact .refl _
  | append_singleton as a ih =>
    rw [terminal, List.foldlM_append, Option.bind_eq_bind] at h
    simp only [List.foldlM_cons, List.foldlM_nil, bind_pure] at h
    obtain ⟨t₁, hrun, hstep⟩ := Option.bind_eq_some_iff.mp h
    exact (ih t₁ hrun).trans (terminal_step_sameTable hstep)

/-- The keys of `touch a`. -/
def touch_keys : List Action :=
  [0x14, 0x18, 0x16, 0x2E, 0x23, 0x39, 0x1E, 0x1C].map Action.interrupt ++ List.replicate 40 .shell

theorem terminal_keeps_handles_touch : ∃ t, terminal 60 ⟨small_state, [], []⟩ touch_keys = some t ∧
    ascii "File created.\n" <:+: t.console.os.screen ∧ SameTable small_state t.console.os.fs := by
  have hrun : (terminal 60 ⟨small_state, [], []⟩ touch_keys).any
      (fun t => decide (ascii "File created.\n" <:+: t.console.os.screen)) = true := by decide +kernel
  obtain ⟨t, ht, hcreated⟩ := (Option.any_eq_true _ _).mp hrun
  exact ⟨t, ht, of_decide_eq_true hcreated, terminal_keeps_handles 60 ⟨small_state, [], []⟩ touch_keys t ht⟩

end os_dev.shell
