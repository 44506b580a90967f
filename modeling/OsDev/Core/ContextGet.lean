import OsDev.Core.WriteCat
import OsDev.Fat32.PathAgreement

open os_dev.libc os_dev.fat32 os_dev.shell char_array fuel

namespace os_dev.agent

variable {key text : CStr} {st : Fat32} {screen : CStr} {calls : List Call} {c : ℕ} {l lr : List ℕ}

/-- A letter or a digit. -/
def Alnum (c : UInt8) : Prop := (0x30 ≤ c ∧ c ≤ 0x39) ∨ (0x41 ≤ c ∧ c ≤ 0x5A) ∨ (0x61 ≤ c ∧ c ≤ 0x7A)

/-- A key of the context store: one to eight letters or digits. -/
structure ContextKey (key : CStr) : Prop where
  nonempty : key ≠ []
  le : key.length ≤ 8
  chars : ∀ c ∈ key, Alnum c

/-- Keys that differ at most in the case of their letters. -/
def same_key (key other : CStr) : Bool := key.map to_upper = other.map to_upper

/-- The name of the file for a key. -/
def key_file (key : CStr) : CStr := key ++ ascii ".txt"

theorem Alnum.nameChar {c : UInt8} (h : Alnum c) : NameChar c := by
  simp only [Alnum, NameChar, dot, slash, UInt8.le_iff_toNat_le, UInt8.lt_iff_toNat_lt, ne_eq, ← UInt8.toNat_inj] at h ⊢
  simp only [UInt8.reduceToNat] at h ⊢
  omega

theorem ctx_path_str (key : CStr) : (ctx_path key).str = ascii "/agent/db" ++ slash :: key_file key := by
  have hdir : ascii "/agent/db/" = ascii "/agent/db" ++ [slash] := by decide
  simp only [ctx_path, CharArray.strcat, CharArray.strcpy, hdir, key_file, List.append_assoc, List.cons_append, List.nil_append]

section Key

variable (h : ContextKey key)

include h

theorem ContextKey.shortName : ShortName (key_file key) key (ascii "txt") := by
  refine ⟨rfl, h.nonempty, h.le, by decide, fun c hc => ?_⟩
  obtain hbase | hext := List.mem_append.mp hc
  · exact (h.chars c hbase).nameChar
  · obtain rfl | rfl : c = 0x74 ∨ c = 0x78 := by
      have hcases : c = 0x74 ∨ c = 0x78 ∨ c = 0x74 := by simpa [ascii] using hext
      tauto
    · exact ⟨by decide, by decide, by decide, by decide⟩
    · exact ⟨by decide, by decide, by decide, by decide⟩

theorem ContextKey.components : components (ctx_path key).str = [ascii "agent", ascii "db"] ++ [key_file key] := by
  have hfile := h.shortName.valid
  have hdir : ascii "/agent/db" = slash :: (ascii "agent" ++ slash :: ascii "db") := by decide
  have hagent : path_parts [] (ascii "agent" ++ slash :: ascii "db") = [ascii "agent", ascii "db"] := by decide
  rw [ctx_path_str, fat32.components, hdir, List.cons_append, if_pos List.head?_cons, List.tail_cons,
    path_parts_append (fun hnil => absurd hnil (by decide)) (by decide), hagent, path_parts_single hfile.no_slash hfile.nonempty]

theorem ContextKey.base_name : base_name (ctx_path key).str = key_file key := by
  rw [ctx_path_str, base_name_append h.shortName.valid.no_slash]

end Key

/-- What `agent_ctx_get` prints for a value, and without one. -/
def context_text (key value : CStr) : CStr := ascii "Agent DB Context [" ++ key ++ ascii "]:\n" ++ value ++ ascii "\n"

def missing_text (key : CStr) : CStr := ascii "Agent DB ERROR: Context '" ++ key ++ ascii "' not found.\n"

/-- Getting `key` prints `text`. -/
def Gets (os : Os) (key text : CStr) : Prop :=
  ∃ os', Returns (fun fuel => agent_ctx_get fuel os key) os' ∧ os'.screen = os.screen ++ text

/-- `/agent/db` is the directory `c` with the clusters `l`; the root has the clusters `lr`. -/
structure StoreDir (st : Fat32) (c : ℕ) (l lr : List ℕ) : Prop where
  leads : Leads st.vol st.disk st.vol.bpb.root_cluster [ascii "agent", ascii "db"] c
  cells : Cells st.vol st.disk c l
  root : Cells st.vol st.disk st.vol.bpb.root_cluster lr

/-- What there is to print: the clusters come from the entry in `/agent/db` and the size from the one in the root. -/
def Shows (st : Fat32) (l lr : List ℕ) (key text : CStr) : Prop :=
  if free_handle st.open_files = none ∨ target_cluster st.vol st.disk l (key_file key) = 0 ∨
      lookup st.vol st.disk false lr (key_file key) = none then text = missing_text key
  else ∃ lf, Cells st.vol st.disk (target_cluster st.vol st.disk l (key_file key)) lf ∧
    text = context_text key (shown (delivered st.vol st.disk lf (open_size st.vol st.disk lr (key_file key))))

theorem Gets.unique {os : Os} {other : CStr} (h : Gets os key text) (h' : Gets os key other) : text = other := by
  obtain ⟨os₁, hret₁, hscreen₁⟩ := h
  obtain ⟨os₂, hret₂, hscreen₂⟩ := h'
  obtain rfl := hret₁.unique hret₂
  exact List.append_cancel_left (hscreen₁.symm.trans hscreen₂)

theorem head_ctx_path (key : CStr) : (ctx_path key).str.head? = some slash := by
  rw [ctx_path_str]
  rfl

theorem guessed_parent_ctx (st : Fat32) (key : CStr) : guessed_parent st (ctx_path key).str = st.vol.bpb.root_cluster :=
  if_pos (head_ctx_path key)

/-- A get that cannot open the file. -/
theorem gets_missing {st' : Fat32} (hopen : Returns (fun fuel => fat32_open fuel st (ctx_path key).str mode_r) (-1, st')) :
    Gets ⟨st, screen, calls⟩ key (missing_text key) := by
  refine ⟨⟨st', screen ++ missing_text key, calls⟩, ?_, rfl⟩
  filter_upwards [hopen] with fuel h
  simp [agent_ctx_get, h, Os.print_string, missing_text, List.append_assoc]

section Store

variable (hmounted : st.mounted = true) (hwf : WellFormed st.vol st.disk) (hstore : StoreDir st c l lr) (hkey : ContextKey key)

include hstore

theorem StoreDir.live : LiveDir st.vol st.disk c := hstore.leads.liveDir liveDir_root

include hkey

theorem StoreDir.names : Names st (ctx_path key).str [ascii "agent", ascii "db"] (key_file key) c l := by
  have hstart : start_cluster st (ctx_path key).str = st.vol.bpb.root_cluster := if_pos (head_ctx_path key)
  refine ⟨hkey.components, ?_, ?_, hstore.cells⟩
  · rw [hstart]
    exact liveDir_root
  · rw [hstart]
    exact hstore.leads

include hmounted hwf

theorem StoreDir.resolves : Returns (fun fuel => fat32_resolve_path fuel st (ctx_path key).str)
    (target_cluster st.vol st.disk l (key_file key)) :=
  (hstore.names hkey).resolve hwf hmounted

theorem StoreDir.open_existing (hne : target_cluster st.vol st.disk l (key_file key) ≠ 0) (mode : UInt8) :
    Returns (fun fuel => fat32_open fuel st (ctx_path key).str mode)
      (opened st (ctx_path key).str (target_cluster st.vol st.disk l (key_file key)) lr) := by
  have hopen := open_handle_returns st (ctx_path key).str hwf.sane (by rw [guessed_parent_ctx]; exact hstore.root)
    (target_cluster st.vol st.disk l (key_file key))
  filter_upwards [hstore.resolves hmounted hwf hkey, hopen] with fuel h₁ h₂
  simp [fat32_open, h₁, h₂, hne]

theorem StoreDir.open_absent (hzero : target_cluster st.vol st.disk l (key_file key) = 0) :
    Returns (fun fuel => fat32_open fuel st (ctx_path key).str mode_r) (-1, st) := by
  filter_upwards [hstore.resolves hmounted hwf hkey] with fuel h
  simp [fat32_open, h, hzero, mode_r, mode_w]

/-- A get prints what there is to print. -/
theorem gets_of_shows (h : Shows st l lr key text) : Gets ⟨st, screen, calls⟩ key text := by
  have hbase := hkey.base_name
  unfold Shows at h
  split at h
  case isTrue hwhy =>
    subst h
    by_cases hzero : target_cluster st.vol st.disk l (key_file key) = 0
    · exact gets_missing (hstore.open_absent hmounted hwf hkey hzero)
    · have hopen := hstore.open_existing hmounted hwf hkey hzero mode_r
      cases hfree : free_handle st.open_files with
      | none =>
        rw [opened_none hfree] at hopen
        exact gets_missing hopen
      | some fd =>
        have hnone := (hwhy.resolve_left (by rw [hfree]; exact Option.some_ne_none fd)).resolve_left hzero
        rw [opened, hfree] at hopen
        simp only [hbase, hnone] at hopen
        exact gets_missing hopen
  case isFalse hfound =>
    rw [not_or, not_or] at hfound
    obtain ⟨lf, hlf, rfl⟩ := h
    obtain ⟨fd, hfd⟩ := Option.ne_none_iff_exists'.mp hfound.1
    obtain ⟨⟨k, j, i⟩, hlookup⟩ := Option.ne_none_iff_exists'.mp hfound.2.2
    have hopen := hstore.open_existing hmounted hwf hkey hfound.2.1 mode_r
    rw [opened_eq hfd (by rw [hbase]; exact hlookup)] at hopen
    have hsize : open_size st.vol st.disk lr (key_file key) = (slot st.vol st.disk k (16 * j + i)).file_size := by
      rw [open_size, hlookup]
    obtain ⟨file, hprint⟩ := print_opened_returns hwf.sane hlf (screen ++ ascii "Agent DB Context [" ++ key ++ ascii "]:\n")
      (ctx_path key).str calls fd k (16 * j + i)
    rw [hsize]
    refine ⟨⟨fat32_close { st with open_files := Function.update st.open_files fd file } (fd.val : Int),
      screen ++ context_text key (shown (delivered st.vol st.disk lf (slot st.vol st.disk k (16 * j + i)).file_size)), calls⟩, ?_, rfl⟩
    filter_upwards [hopen, hprint] with fuel h₁ h₂
    simp only [agent_ctx_get, h₁, Os.print_string, Option.bind_eq_bind, Option.bind_some, if_pos (Int.natCast_nonneg fd.val), h₂]
    simp [context_text, List.append_assoc]

omit hmounted hkey in
/-- There is always one thing to print. -/
theorem exists_shows : ∃ text, Shows st l lr key text := by
  unfold Shows
  split
  case isTrue => exact ⟨_, rfl⟩
  case isFalse hfound =>
    rw [not_or, not_or] at hfound
    cases hlookup : lookup st.vol st.disk true l (key_file key) with
    | none => exact absurd (by rw [target_cluster, hlookup]) hfound.2.1
    | some pos =>
      obtain ⟨k, j, i⟩ := pos
      have hne := hfound.2.1
      rw [target_cluster_eq hlookup] at hne ⊢
      obtain ⟨-, -, -, -, -, hlfn, -⟩ := lookup_some hlookup
      obtain ⟨lf, hlf⟩ := hwf.entry_cells ⟨_, lookup_lists hstore.live hstore.cells hlookup (hlfn rfl) hne⟩
      exact ⟨_, lf, hlf, rfl⟩

theorem gets_iff_shows : Gets ⟨st, screen, calls⟩ key text ↔ Shows st l lr key text := by
  constructor
  · intro hgets
    obtain ⟨text', hshows⟩ := exists_shows hwf hstore
    obtain rfl := hgets.unique (gets_of_shows hmounted hwf hstore hkey hshows)
    exact hshows
  · exact gets_of_shows hmounted hwf hstore hkey

end Store

end os_dev.agent
