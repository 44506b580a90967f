import OsDev.Core.ContextStore

open os_dev.ata os_dev.libc os_dev.fat32 os_dev.shell link_chain fuel

namespace os_dev.agent

variable {st : Fat32} {c t : ℕ}

/-- The sets of a sequence, one after the other. -/
def set_all (fuel : ℕ) : Os → List (CStr × CStr) → Option Os
  | os, [] => some os
  | os, (key, value) :: sets => agent_ctx_set fuel os key value >>= fun os => set_all fuel os sets

/-- The value of the last set for a key. -/
def last_set (sets : List (CStr × CStr)) (key : CStr) : Option CStr :=
  (sets.reverse.find? fun set => same_key set.1 key).map Prod.snd

/-- Every set of a sequence finds its file ready. -/
def ReadyRun : Os → List (CStr × CStr) → Prop
  | _, [] => True
  | os, (key, value) :: sets => (∃ c l lr lf, Storable os.fs key value c l lr lf) ∧
    ∀ os', Returns (fun fuel => agent_ctx_set fuel os key value) os' → ReadyRun os' sets

theorem last_set_cons (key₁ value : CStr) (sets : List (CStr × CStr)) (key : CStr) : last_set ((key₁, value) :: sets) key =
    (last_set sets key).or (if same_key key₁ key then some value else none) := by
  rw [last_set, List.reverse_cons, List.find?_append, Option.map_or, last_set, List.find?_singleton, apply_ite (Option.map Prod.snd)]
  rfl

/-- A get prints the value of the last set for its key, and what it printed before if there was none. -/
theorem ready_run (sets : List (CStr × CStr)) (os : Os) (hmounted : os.fs.mounted = true) (hwf : WellFormed os.fs.vol os.fs.disk)
    (hready : ReadyRun os sets) (hkeys : ∀ set ∈ sets, ContextKey set.1) (hnul : ∀ set ∈ sets, 0 ∉ set.2) :
    ∃ os', Returns (fun fuel => set_all fuel os sets) os' ∧ ∀ key, ContextKey key →
      (∀ value, last_set sets key = some value → Gets os' key (context_text key value)) ∧
      (last_set sets key = none → ∀ text, Gets os key text → Gets os' key text) := by
  induction sets generalizing os with
  | nil => exact ⟨os, .of_forall fun _ => rfl, fun key _ => ⟨nofun, fun _ _ hgets => hgets⟩⟩
  | cons set sets ih =>
    obtain ⟨key₁, value₁⟩ := set
    obtain ⟨⟨c, l, lr, lf, hstorable⟩, hlater⟩ := hready
    obtain ⟨hkey₁, hkeys⟩ := List.forall_mem_cons.mp hkeys
    obtain ⟨hnul₁, hnul⟩ := List.forall_mem_cons.mp hnul
    obtain ⟨os₁, hset, hmounted₁, hwf₁, hvalue, hothers⟩ :=
      hstorable.set_step os.screen os.calls hmounted hwf hkey₁ hnul₁
    obtain ⟨os₂, hsets, hgets⟩ := ih os₁ hmounted₁ hwf₁ (hlater os₁ hset) hkeys hnul
    refine ⟨os₂, hset.bind hsets, fun key hkey => ?_⟩
    obtain ⟨hlast, hkept⟩ := hgets key hkey
    rw [last_set_cons]
    cases hfound : last_set sets key with
    | some value => exact ⟨fun value' heq => hlast value' (hfound.trans heq), nofun⟩
    | none =>
      rw [Option.none_or]
      by_cases hsame : same_key key₁ key = true
      · rw [if_pos hsame]
        refine ⟨fun value heq => ?_, nofun⟩
        obtain rfl := Option.some.inj heq
        exact hkept hfound _ (hvalue key hkey hsame)
      · rw [if_neg hsame]
        exact ⟨nofun, fun _ text hbefore => hkept hfound text (hothers key text hkey hsame hbefore)⟩

/-- The two calls of `agent_init`. -/
def init_ops : List Op := [.mkdir (ascii "/agent"), .mkdir (ascii "/agent/db")]

theorem agent_init_returns {fs : Fat32} (screen : CStr) (calls : List Call) (h : Returns (fun fuel => run fuel st init_ops) fs) :
    Returns (fun fuel => agent_init fuel ⟨st, screen, calls⟩) ⟨fs, screen, calls⟩ := by
  filter_upwards [h] with fuel hrun
  obtain ⟨st₁, h₁, hrest⟩ := Option.bind_eq_some_iff.mp hrun
  obtain ⟨res₁, hmkdir₁, rfl⟩ := Option.map_eq_some_iff.mp h₁
  obtain ⟨st₂, h₂, hdone⟩ := Option.bind_eq_some_iff.mp hrest
  obtain ⟨res₂, hmkdir₂, rfl⟩ := Option.map_eq_some_iff.mp h₂
  obtain rfl := Option.some.inj hdone
  simp [agent_init, hmkdir₁, hmkdir₂]

/-- The store over runs: after `agent_init`, any sequence of sets that find their files ready keeps for every key
    the value of the last set, and leaves alone what the keys show that are not set. -/
theorem context_store_runs (os : Os) (sets : List (CStr × CStr)) (hsound : Sound os.fs) (hsafe : SafeRun os.fs init_ops)
    (hkeys : ∀ set ∈ sets, ContextKey set.1) (hnul : ∀ set ∈ sets, 0 ∉ set.2) :
    ∃ os₁, Returns (fun fuel => agent_init fuel os) os₁ ∧ (ReadyRun os₁ sets →
      ∃ os₂, Returns (fun fuel => set_all fuel os₁ sets) os₂ ∧ ∀ key, ContextKey key →
        (∀ value, last_set sets key = some value → Gets os₂ key (context_text key value)) ∧
        (last_set sets key = none → ∀ text, Gets os₁ key text → Gets os₂ key text)) := by
  obtain ⟨fs, hrun, hfs⟩ := run_sound init_ops hsound hsafe
  refine ⟨⟨fs, os.screen, os.calls⟩, agent_init_returns os.screen os.calls hrun, fun hready => ?_⟩
  exact ready_run sets _ hfs.mounted hfs.wf hready hkeys hnul

/-- A walk through directories of one cluster each. -/
def single_walk (v : Volume) (d : Disk) (c : ℕ) : List CStr → Option ℕ
  | [] => some c
  | part :: rest =>
    if v.InRange c ∧ get_next_cluster v d c = FAT32_EOC then
      match lookup v d true [c] part with
      | some (k, j, i) =>
        if (slot v d k (16 * j + i)).isDirectory = true ∧ (slot v d k (16 * j + i)).first_cluster ≠ 0 then
          single_walk v d (slot v d k (16 * j + i)).first_cluster rest
        else none
      | none => none
    else none

theorem leads_of_single_walk {v : Volume} {d : Disk} {parts : List CStr} (h : single_walk v d c parts = some t) :
    Leads v d c parts t := by
  induction parts generalizing c with
  | nil =>
    obtain rfl := Option.some.inj h
    exact .done
  | cons part rest ih =>
    rw [single_walk] at h
    split at h
    case isTrue hcluster =>
      split at h
      case h_1 k j i hfound =>
        split at h
        case isTrue hdir => exact .step (.last hcluster.1 hcluster.2) hfound hdir.1 hdir.2 (ih h)
        case isFalse => cases h
      case h_2 => cases h
    case isFalse => cases h

/-- Behind a directory `/agent` the calls on `/agent/db` are safe. -/
theorem safe_db {fuel : ℕ} (hwalk : single_walk st.vol st.disk st.vol.bpb.root_cluster [ascii "agent"] = some c)
    (hresolve : fat32_resolve_path fuel st (ascii "/agent") = some c) :
    SafePath st (ascii "/agent/db") ∧ SafeParent st (ascii "/agent/db") := by
  have hleads := leads_of_single_walk hwalk
  have hcomponents : components (ascii "/agent/db") = [ascii "agent"] ++ [ascii "db"] := by decide
  have hsplit : split_last_slash (ascii "/agent/db") = some (ascii "/agent", ascii "db") := by decide
  have hstart : start_cluster st (ascii "/agent/db") = st.vol.bpb.root_cluster := rfl
  refine ⟨fun _ => ?_, ?_⟩
  · rw [hstart, hcomponents]
    exact ⟨liveDir_root, hleads.safeWalk _⟩
  · rw [SafeParent, hsplit]
    refine ⟨safePath_of_single (by decide) (by decide), fun r hr _ => ?_⟩
    obtain rfl := hr.unique ((fat32_resolve_path_stable st (ascii "/agent")).returns hresolve)
    exact hleads.liveDir liveDir_root

theorem mkdir_agent_safe (st : Fat32) : Fits st (.mkdir (ascii "/agent")) ∧ Safe st (.mkdir (ascii "/agent")) :=
  ⟨And.intro (by decide) (And.intro (by decide) (by decide)), safePath_of_single (by decide) (by decide), trivial⟩

theorem mkdir_db_safe (h : SafePath st (ascii "/agent/db") ∧ SafeParent st (ascii "/agent/db")) :
    Fits st (.mkdir (ascii "/agent/db")) ∧ Safe st (.mkdir (ascii "/agent/db")) :=
  ⟨And.intro (by decide) (And.intro (by decide) (by decide)), h⟩

theorem init_op_safe {n : ℕ} (hn : n < init_ops.length) (hdir : n = 1 →
      single_walk st.vol st.disk st.vol.bpb.root_cluster [ascii "agent"] = some 3 ∧
        fat32_resolve_path 6 st (ascii "/agent") = some 3) : Fits st init_ops[n] ∧ Safe st init_ops[n] := by
  match n, hn with
  | 0, _ => exact mkdir_agent_safe st
  | 1, _ => exact mkdir_db_safe (safe_db (hdir rfl).1 (hdir rfl).2)

/-- A volume on which the key `A` has its file in `/agent/db` and an entry of the same name in the root. -/
def kept_ops : List Op :=
  init_ops ++ [.chdir (ascii "/agent/db"), .open (ascii "A.TXT") mode_w, .close 0, .open (ascii "/A.TXT") mode_w, .close 0]

@[irreducible] def kept_state : Fat32 := (run 6 small_state kept_ops).getD small_state

theorem kept_run : Returns (fun fuel => run fuel small_state kept_ops) kept_state := by
  obtain ⟨st, hst⟩ := Option.isSome_iff_exists.mp (show (run 6 small_state kept_ops).isSome = true by decide +kernel)
  rw [kept_state, hst, Option.getD_some]
  exact (run_stable small_state kept_ops).returns hst

theorem kept_vol : kept_state.vol = small_volume := by
  obtain ⟨fuel, hrun⟩ := kept_run.exists
  exact run_vol hrun

/-- What makes the calls safe. -/
theorem kept_op_safe {n : ℕ} (hn : n < kept_ops.length)
    (hdir : n = 1 ∨ n = 2 → single_walk st.vol st.disk st.vol.bpb.root_cluster [ascii "agent"] = some 3 ∧
      fat32_resolve_path 6 st (ascii "/agent") = some 3)
    (hpath : n = 2 → st.fat32_cwd_path = [slash])
    (hcwd : n = 3 → single_walk st.vol st.disk st.vol.bpb.root_cluster [ascii "agent", ascii "db"] = some st.fat32_cwd_cluster) :
    Fits st kept_ops[n] ∧ Safe st kept_ops[n] := by
  match n, hn with
  | 0, _ => exact mkdir_agent_safe st
  | 1, _ => exact mkdir_db_safe (safe_db (hdir (.inl rfl)).1 (hdir (.inl rfl)).2)
  | 2, _ =>
    have hsafe := safe_db (hdir (.inr rfl)).1 (hdir (.inr rfl)).2
    refine ⟨And.intro (by decide) ?_, hsafe.1⟩
    rw [hpath rfl]
    decide
  | 3, _ =>
    have hlive := (leads_of_single_walk (hcwd rfl)).liveDir liveDir_root
    exact ⟨And.intro (by decide) (by decide), fun _ => ⟨hlive, fun hrest => absurd rfl hrest⟩, hlive, fun hnil => absurd hnil (by decide)⟩
  | 4, _ => exact ⟨trivial, trivial⟩
  | 5, _ => exact ⟨And.intro (by decide) (by decide), safePath_of_single (by decide) (by decide), liveDir_root, fun hnil => absurd hnil (by decide)⟩
  | 6, _ => exact ⟨trivial, trivial⟩

theorem kept_safe : SafeRun small_state kept_ops := by
  have htests : ∀ n < kept_ops.length, ((run 6 small_state (kept_ops.take n)).map fun st => decide (
      (n = 1 ∨ n = 2 → single_walk st.vol st.disk st.vol.bpb.root_cluster [ascii "agent"] = some 3 ∧
        fat32_resolve_path 6 st (ascii "/agent") = some 3) ∧
      (n = 2 → st.fat32_cwd_path = [slash]) ∧
      (n = 3 → single_walk st.vol st.disk st.vol.bpb.root_cluster [ascii "agent", ascii "db"] = some st.fat32_cwd_cluster))) =
        some true := by decide +kernel
  refine safeRun_of_prefixes 6 kept_ops fun n hn => ?_
  obtain ⟨st, hst, htest⟩ := Option.map_eq_some_iff.mp (htests n hn)
  obtain ⟨hdir, hpath, hcwd⟩ := of_decide_eq_true htest
  obtain ⟨hfits, hsafe⟩ := kept_op_safe hn hdir hpath hcwd
  exact ⟨st, hst, hfits, supplied_small (run_vol hst) _, hsafe⟩

theorem kept_sound : Sound kept_state := by
  obtain ⟨st, hret, hsound⟩ := run_sound kept_ops small_state_sound kept_safe
  rwa [kept_run.unique hret]

theorem kept_init_safe : SafeRun kept_state init_ops := by
  have htests : ∀ n < init_ops.length, ((run 6 kept_state (init_ops.take n)).map fun st => decide (
      n = 1 → single_walk st.vol st.disk st.vol.bpb.root_cluster [ascii "agent"] = some 3 ∧
        fat32_resolve_path 6 st (ascii "/agent") = some 3)) = some true := by decide +kernel
  refine safeRun_of_prefixes 6 init_ops fun n hn => ?_
  obtain ⟨st, hst, htest⟩ := Option.map_eq_some_iff.mp (htests n hn)
  obtain ⟨hfits, hsafe⟩ := init_op_safe hn (of_decide_eq_true htest)
  exact ⟨st, hst, hfits, supplied_small ((run_vol hst).trans kept_vol) _, hsafe⟩

/-- Such a volume is ready for a set of the key. -/
theorem kept_storable : ∃ fs, Returns (fun fuel => run fuel kept_state init_ops) fs ∧ Storable fs (ascii "A") (ascii "HI") 4 [4] [2] [5] := by
  obtain ⟨fs, hret, hwalk, hroot, hclusters⟩ := run_returns_of_test 6 kept_state init_ops (fun st =>
    single_walk st.vol st.disk st.vol.bpb.root_cluster [ascii "agent", ascii "db"] = some 4 ∧ st.vol.bpb.root_cluster = 2 ∧
      ∀ k ∈ ([2, 4, 5] : List ℕ), st.vol.InRange k ∧ get_next_cluster st.vol st.disk k = FAT32_EOC) (by decide +kernel)
  obtain ⟨fs₁, hret₁, hfree, hlookup, hfile, htarget⟩ := run_returns_of_test 6 kept_state init_ops (fun st =>
    free_handle st.open_files ≠ none ∧ lookup st.vol st.disk true [4] (key_file (ascii "A")) = some (4, 0, 2) ∧
      (slot st.vol st.disk 4 2).isDirectory = false ∧ target_cluster st.vol st.disk [4] (key_file (ascii "A")) = 5) (by decide +kernel)
  obtain ⟨fs₂, hret₂, hentry, hrest⟩ := run_returns_of_test 6 kept_state init_ops (fun st =>
    lookup st.vol st.disk false [2] (key_file (ascii "A")) ≠ none ∧ shown_behind (ascii "HI").length
      (delivered st.vol st.disk [5] (max (open_size st.vol st.disk [2] (key_file (ascii "A"))) (ascii "HI").length)) = []) (by decide +kernel)
  obtain rfl := hret.unique hret₁
  obtain rfl := hret.unique hret₂
  have hcells : ∀ k ∈ [2, 4, 5], Cells fs.vol fs.disk k [k] := fun k hk => .last (hclusters k hk).1 (hclusters k hk).2
  obtain ⟨fs', hret', hsound⟩ := run_sound init_ops kept_sound kept_init_safe
  rw [hret'.unique hret] at hsound
  refine ⟨fs, hret, ⟨leads_of_single_walk hwalk, hcells 4 (by decide), ?_⟩, hfree, ⟨4, 0, 2, hlookup, hfile⟩, ?_, hentry, hrest, ?_, by decide⟩
  · rw [hroot]
    exact hcells 2 (by decide)
  · rw [htarget]
    exact hcells 5 (by decide)
  · exact (hcells 5 (by decide)).roomFor_short hsound.wf.sane (by decide)

theorem key_A : ContextKey (ascii "A") := ⟨by decide, by decide, by simp [ascii, Alnum]⟩

theorem context_store_runs_kept : Sound kept_state ∧ SafeRun kept_state init_ops ∧
    ∃ os₁ os₂, Returns (fun fuel => agent_init fuel ⟨kept_state, [], []⟩) os₁ ∧ ReadyRun os₁ [(ascii "A", ascii "HI")] ∧
      Returns (fun fuel => set_all fuel os₁ [(ascii "A", ascii "HI")]) os₂ ∧
      Gets os₂ (ascii "A") (context_text (ascii "A") (ascii "HI")) := by
  obtain ⟨os₁, hinit, hsets⟩ := context_store_runs ⟨kept_state, [], []⟩ [(ascii "A", ascii "HI")] kept_sound kept_init_safe
    (List.forall_mem_singleton.mpr key_A) (by decide)
  obtain ⟨fs, hret, hstorable⟩ := kept_storable
  have hready : ReadyRun os₁ [(ascii "A", ascii "HI")] := by
    rw [hinit.unique (agent_init_returns [] [] hret)]
    exact ⟨⟨4, [4], [2], [5], hstorable⟩, fun _ _ => trivial⟩
  obtain ⟨os₂, hset, hgets⟩ := hsets hready
  exact ⟨kept_sound, kept_init_safe, os₁, os₂, hinit, hready, hset, (hgets _ key_A).1 _ (by decide)⟩

theorem agent_ctx_set_stable (os : Os) (key value : CStr) : Stable fun fuel => agent_ctx_set fuel os key value :=
  (fat32_open_stable os.fs (ctx_path key).str mode_w).bind fun _ => .const _

/-- On an empty volume the first set for a key puts its file into the root, where a get does not look for it. -/
theorem context_is_lost : Sound small_state ∧ SafeRun small_state init_ops ∧
    ∃ os₁ os₂, Returns (fun fuel => agent_init fuel ⟨small_state, [], []⟩) os₁ ∧
      Returns (fun fuel => set_all fuel os₁ [(ascii "A", ascii "HI")]) os₂ ∧
      Gets os₂ (ascii "A") (missing_text (ascii "A")) ∧ ¬ Gets os₂ (ascii "A") (context_text (ascii "A") (ascii "HI")) := by
  have hinit : SafeRun small_state init_ops := SafeRun.left (show SafeRun small_state (init_ops ++ _) from kept_safe)
  obtain ⟨fs, hrun, hrest⟩ := Option.bind_eq_some_iff.mp (show ((run 6 small_state init_ops).bind fun fs =>
    (agent_ctx_set 6 ⟨fs, [], []⟩ (ascii "A") (ascii "HI")).bind fun os =>
      (fat32_open 6 os.fs (ctx_path (ascii "A")).str mode_r).map fun res => decide (res.1 = -1)) = some true by decide +kernel)
  obtain ⟨os₂, hset, hopen⟩ := Option.bind_eq_some_iff.mp hrest
  obtain ⟨⟨rc, fs'⟩, hopen, htest⟩ := Option.map_eq_some_iff.mp hopen
  obtain rfl : rc = -1 := of_decide_eq_true htest
  have hreturns := (agent_ctx_set_stable ⟨fs, [], []⟩ (ascii "A") (ascii "HI")).returns hset
  have hgets : Gets os₂ (ascii "A") (missing_text (ascii "A")) :=
    gets_missing ((fat32_open_stable os₂.fs (ctx_path (ascii "A")).str mode_r).returns hopen)
  refine ⟨small_state_sound, hinit, ⟨fs, [], []⟩, os₂, agent_init_returns [] [] ((run_stable small_state init_ops).returns hrun),
    hreturns.bind (.of_forall fun _ => rfl), hgets, fun hvalue => ?_⟩
  exact absurd (hgets.unique hvalue) (by decide)

end os_dev.agent
