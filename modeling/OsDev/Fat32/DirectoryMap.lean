import OsDev.Fat32.Listing
import OsDev.Fat32.OpSpecs
import OsDev.Fat32.FileIo
import OsDev.Fat32.Stability
import OsDev.Fat32.Blank

open os_dev.ata os_dev.libc little_endian forest link_chain fuel

namespace os_dev.fat32

variable {v : Volume} {d d' : Disk} {c : ℕ} {l : List ℕ} {st : Fat32}

/-- The 11 bytes that searches compare. -/
def fat32_dir_entry_t.key (e : fat32_dir_entry_t) : List UInt8 × List UInt8 := (e.name, e.ext)

/-- What a directory is for: a finite map from 8.3 names to entries. -/
abbrev DirMap := List UInt8 × List UInt8 → Option fat32_dir_entry_t

/-- The taken slots of a chain hold the entries of the map. -/
def Represents (v : Volume) (d : Disk) (l : List ℕ) (m : DirMap) : Prop :=
  ∀ key e, m key = some e ↔ ∃ s, Taken v d l s ∧ slot v d s.1 s.2 = e ∧ e.key = key

theorem Represents.of_none {m : DirMap} {name : CStr} (h : Represents v d l m) (hkey : m (standardize_name name) = none)
    {s : ℕ × ℕ} (hs : Taken v d l s) : ¬ ((slot v d s.1 s.2).name = standardize_base name ∧
      (slot v d s.1 s.2).ext = standardize_ext name) := by
  rintro ⟨hname, hext⟩
  have hsome := (h (standardize_name name) _).mpr ⟨s, hs, rfl, Prod.ext hname hext⟩
  rw [hkey] at hsome
  cases hsome

/-- A search in a directory looks its key up in the map. -/
theorem Represents.lookup_eq {m : DirMap} (h : Represents v d l m) (hdir : Directory v d c l) (skip_lfn : Bool)
    (name : CStr) :
    match lookup v d skip_lfn l name with
    | none => m (standardize_name name) = none
    | some (k, j, i) => Taken v d l (k, 16 * j + i) ∧ m (standardize_name name) = some (slot v d k (16 * j + i)) := by
  cases hfound : lookup v d skip_lfn l name with
  | none =>
    simp only
    cases hkey : m (standardize_name name) with
    | none => rfl
    | some e =>
      obtain ⟨s, hs, rfl, heq⟩ := (h _ e).mp hkey
      obtain ⟨hname, hext⟩ := Prod.mk.inj heq
      rw [hdir.lookup_of_taken hs hname hext] at hfound
      cases hfound
  | some pos =>
    obtain ⟨k, j, i⟩ := pos
    obtain ⟨htaken, hname, hext⟩ := hdir.lookup_taken hfound
    exact ⟨htaken, (h _ _).mpr ⟨_, htaken, rfl, Prod.ext hname hext⟩⟩

/-- Entering a new name adds it to the map. -/
theorem Entered.represents {m : DirMap} {l' : List ℕ} {k i : ℕ} {e : fat32_dir_entry_t}
    (h : Entered v d d' c l l' k i e) (hm : Represents v d l m) (hkey : m e.key = none) :
    Represents v d' l' (Function.update m e.key (some e)) := by
  intro key e'
  by_cases heq : key = e.key
  · subst heq
    rw [Function.update_self]
    constructor
    · intro hsome
      cases hsome
      exact ⟨(k, i), (h.taken _).mpr (.inr rfl), h.entry, rfl⟩
    · rintro ⟨s, hs, rfl, hname⟩
      rcases (h.taken s).mp hs with hs | rfl
      · rw [h.slots s hs] at hname
        rw [(hm _ _).mpr ⟨s, hs, rfl, hname⟩] at hkey
        cases hkey
      · exact congrArg some h.entry.symm
  · rw [Function.update_of_ne heq, hm key e']
    constructor
    · rintro ⟨s, hs, rfl, hname⟩
      exact ⟨s, (h.taken s).mpr (.inl hs), h.slots s hs, hname⟩
    · rintro ⟨s, hs, rfl, hname⟩
      rcases (h.taken s).mp hs with hs | rfl
      · exact ⟨s, hs, (h.slots s hs).symm, hname⟩
      · rw [h.entry] at hname
        exact absurd hname.symm heq

/-- Giving up a slot takes its name out of the map. -/
theorem Represents.delete {m : DirMap} {n : ℕ × ℕ} (hm : Represents v d l m) (hdir : Directory v d c l)
    (hn : Taken v d l n) (htaken : ∀ s, Taken v d' l s ↔ Taken v d l s ∧ s ≠ n)
    (hslots : ∀ s, Taken v d' l s → slot v d' s.1 s.2 = slot v d s.1 s.2) :
    Represents v d' l (Function.update m (slot v d n.1 n.2).key none) := by
  intro key e
  by_cases heq : key = (slot v d n.1 n.2).key
  · subst heq
    rw [Function.update_self]
    refine ⟨fun hnone => absurd hnone (by simp), ?_⟩
    rintro ⟨s, hs, rfl, hname⟩
    rw [hslots s hs] at hname
    obtain ⟨hs', hne⟩ := (htaken s).mp hs
    exact absurd (hdir.unique s n hs' hn (Prod.mk.inj hname).1 (Prod.mk.inj hname).2) hne
  · rw [Function.update_of_ne heq, hm key e]
    constructor
    · rintro ⟨s, hs, rfl, hname⟩
      have hs' : Taken v d' l s := by
        refine (htaken s).mpr ⟨hs, ?_⟩
        rintro rfl
        exact heq hname.symm
      exact ⟨s, hs', hslots s hs', hname⟩
    · rintro ⟨s, hs, rfl, hname⟩
      exact ⟨s, ((htaken s).mp hs).1, (hslots s hs).symm, hname⟩

/-- Listing a directory enumerates the map. -/
theorem Represents.enumerates {m : DirMap} (hm : Represents v d l m) (hdir : Directory v d c l) :
    (((taken_slots v d l).map fun s => slot v d s.1 s.2).map fat32_dir_entry_t.key).Nodup ∧
      ∀ key e, m key = some e ↔ e ∈ (taken_slots v d l).map (fun s => slot v d s.1 s.2) ∧ e.key = key := by
  constructor
  · rw [List.map_map]
    refine List.Nodup.map_on ?_ (taken_slots_nodup (Chain.nodup (not_inRange_eoc (v := v)) hdir.cells))
    intro s hs t ht heq
    obtain ⟨hname, hext⟩ := Prod.mk.inj heq
    exact hdir.unique s t (mem_taken_slots.mp hs) (mem_taken_slots.mp ht) hname hext
  · intro key e
    rw [hm key e]
    simp only [List.mem_map, mem_taken_slots]
    constructor
    · rintro ⟨s, hs, heq, hkey⟩
      exact ⟨⟨s, hs, heq⟩, hkey⟩
    · rintro ⟨⟨s, hs, heq⟩, hkey⟩
      exact ⟨s, hs, heq, hkey⟩

/-- A call on the current directory. -/
inductive DirOp where
  | create (n : CStr)
  | unlink (n : CStr)
  | resolve (n : CStr)
  | list

/-- What a call answers. -/
inductive Answer where
  | code (rc : Int)
  | cluster (r : ℕ)
  | listing (rc : Int) (calls : List Report)

/-- A creation is an open for writing followed by a close. -/
def dir_step (fuel : ℕ) (st : Fat32) : DirOp → Option (Answer × Fat32)
  | .create n => do
    let (fd, st) ← fat32_open fuel st n mode_w
    return (.code fd, fat32_close st fd)
  | .unlink n => do
    let (rc, st) ← fat32_unlink fuel st n
    return (.code rc, st)
  | .resolve n => do
    return (.cluster (← fat32_resolve_path fuel st n), st)
  | .list => do
    let (rc, calls) ← fat32_list_dir fuel st 0
    return (.listing rc calls, st)

def dir_run (fuel : ℕ) : Fat32 → List DirOp → Option (List Answer × Fat32)
  | st, [] => some ([], st)
  | st, op :: ops => do
    let (answer, st) ← dir_step fuel st op
    let (answers, st) ← dir_run fuel st ops
    return (answer :: answers, st)

/-- What a call is to do with the map, and to answer. -/
inductive Behaves (m : DirMap) : DirOp → Answer → DirMap → Prop where
  | created (n : CStr) (fd : Int) (y : ℕ) (hfd : 0 ≤ fd) (hy : y ≠ 0) (hkey : m (standardize_name n) = none) :
      Behaves m (.create n) (.code fd) (Function.update m (standardize_name n)
        (some (made_entry (standardize_base n) (standardize_ext n) FAT_ATTR_ARCHIVE y 0)))
  | present (n : CStr) (fd : Int) (e : fat32_dir_entry_t) (hfd : 0 ≤ fd) (hkey : m (standardize_name n) = some e) :
      Behaves m (.create n) (.code fd) m
  | unlinked (n : CStr) (e : fat32_dir_entry_t) (hkey : m (standardize_name n) = some e)
      (hfile : e.isDirectory = false) :
      Behaves m (.unlink n) (.code 0) (Function.update m (standardize_name n) none)
  | refused (n : CStr) (hkey : ∀ e, m (standardize_name n) = some e → e.isDirectory = true) :
      Behaves m (.unlink n) (.code (-1)) m
  | found (n : CStr) (e : fat32_dir_entry_t) (hkey : m (standardize_name n) = some e) (hne : e.first_cluster ≠ 0) :
      Behaves m (.resolve n) (.cluster e.first_cluster) m
  | absent (n : CStr) (hkey : m (standardize_name n) = none) : Behaves m (.resolve n) (.cluster 0) m
  | listed (es : List fat32_dir_entry_t) (hnodup : (es.map fat32_dir_entry_t.key).Nodup)
      (hmem : ∀ key e, m key = some e ↔ e ∈ es ∧ e.key = key) :
      Behaves m .list (.listing 0 (es.map report)) m

/-- The same over a sequence of calls. -/
inductive BehavesRun : DirMap → List DirOp → List Answer → DirMap → Prop where
  | nil {m : DirMap} : BehavesRun m [] [] m
  | cons {m m₁ m₂ : DirMap} {op : DirOp} {ops : List DirOp} {a : Answer} {as : List Answer}
      (first : Behaves m op a m₁) (rest : BehavesRun m₁ ops as m₂) : BehavesRun m (op :: ops) (a :: as) m₂

/-- A name of one component that fits the interface and does not start like a deleted entry. -/
structure ValidName (n : CStr) : Prop where
  nonempty : n ≠ []
  short : n.length ≤ 255
  no_slash : slash ∉ n
  no_zero : 0 ∉ n
  no_mark : n.head? ≠ some 0xE5

def DirOp.Valid : DirOp → Prop
  | .create n => ValidName n
  | .unlink n => ValidName n
  | .resolve n => ValidName n
  | .list => True

/-- The clusters a call may take: one for the file and one for the directory. -/
def DirOp.cost : DirOp → ℕ
  | .create _ => 2
  | _ => 0

/-- The current directory is a folder that represents the map, and a handle is free. -/
structure FolderState (st : Fat32) (l : List ℕ) (m : DirMap) : Prop where
  mounted : st.mounted = true
  folder : Folder st.vol st.disk st.fat32_cwd_cluster l
  map : Represents st.vol st.disk l m
  handle : free_handle st.open_files ≠ none

section Names

variable {n : CStr} (hn : ValidName n)

include hn

theorem ValidName.guessed_parent : guessed_parent st n = st.fat32_cwd_cluster := if_neg (head_of_no_slash hn.no_slash)

theorem ValidName.standardize_ne : (standardize_base n).headD 0 ≠ 0 ∧ (standardize_base n).headD 0 ≠ 0xE5 :=
  ⟨standardize_base_ne_zero hn.no_zero, standardize_base_ne_deleted hn.no_mark⟩

end Names

theorem free_handle_ne_none {open_files : Fin 8 → fat32_file_t} {fd : Fin 8} (h : (open_files fd).valid = false) :
    free_handle open_files ≠ none := by
  intro hnone
  have hmem : ∀ fd : Fin 8, fd ∈ ([0, 1, 2, 3, 4, 5, 6, 7] : List (Fin 8)) := by decide
  have hvalid := List.find?_eq_none.mp hnone fd (hmem fd)
  simp [h] at hvalid

theorem fat32_close_fd (st : Fat32) (fd : Fin 8) :
    fat32_close st (fd.val : Int) =
      { st with open_files := Function.update st.open_files fd { st.open_files fd with valid := false } } := by
  have hrange : 0 ≤ (fd.val : Int) ∧ (fd.val : Int) < 8 := by omega
  simp [fat32_close, hrange]

variable {m : DirMap}

/-- What a call that behaves does to the current directory. -/
def StepOk (st : Fat32) (m : DirMap) (op : DirOp) : Prop :=
  ∃ a st' l' m', Returns (fun fuel => dir_step fuel st op) (a, st') ∧ Behaves m op a m' ∧ FolderState st' l' m' ∧
    (spare st.vol st.disk).card ≤ (spare st'.vol st'.disk).card + op.cost

/-- An entry under the 8.3 form of a name is no dot entry, so it has clusters. -/
theorem Represents.first_cluster_ne_zero {name : CStr} {e : fat32_dir_entry_t} (hm : Represents v d l m)
    (hdir : Directory v d c l) (hkey : m (standardize_name name) = some e) : e.first_cluster ≠ 0 := by
  obtain ⟨s, hs, rfl, hname⟩ := (hm _ e).mp hkey
  refine hdir.nonzero s hs ?_
  unfold fat32_dir_entry_t.name0
  rw [(Prod.mk.inj hname).1]
  exact standardize_base_ne_dot name

theorem FolderState.resolve_step (h : FolderState st l m) {n : CStr} (hn : ValidName n) : StepOk st m (.resolve n) := by
  have hdir := h.folder.dir
  have hret := resolve_component hn.no_slash hdir.sane h.mounted hn.nonempty hdir.cells
  have hlookup := h.map.lookup_eq hdir true n
  have hstep : ∀ r, Returns (fun fuel => fat32_resolve_path fuel st n) r →
      Returns (fun fuel => dir_step fuel st (.resolve n)) (.cluster r, st) := by
    intro r hr
    filter_upwards [hr] with fuel hfuel
    simp [dir_step, hfuel]
  cases hfound : lookup st.vol st.disk true l n with
  | none =>
    rw [hfound] at hret hlookup
    exact ⟨_, st, l, m, hstep _ hret, .absent n hlookup, h, Nat.le_add_right _ _⟩
  | some pos =>
    obtain ⟨k, j, i⟩ := pos
    rw [hfound] at hret hlookup
    exact ⟨_, st, l, m, hstep _ hret, .found n _ hlookup.2 (h.map.first_cluster_ne_zero hdir hlookup.2), h,
      Nat.le_add_right _ _⟩

theorem FolderState.list_step (h : FolderState st l m) : StepOk st m .list := by
  have hdir := h.folder.dir
  obtain ⟨hnodup, hmem⟩ := h.map.enumerates hdir
  have hcwd : st.fat32_cwd_cluster ≠ 0 := (hdir.cells.inRange hdir.cells.head_mem).ne_zero
  have hret : Returns (fun fuel => dir_step fuel st .list)
      (.listing 0 (((taken_slots st.vol st.disk l).map fun s => slot st.vol st.disk s.1 s.2).map report), st) := by
    refine .of_gt l.length fun fuel hfuel => ?_
    have hloop := hdir.sane.list_loop_eq hdir.cells hdir.tail hfuel st.vol.uninit
    simp [dir_step, fat32_list_dir, h.mounted, hcwd, hloop, reports]
  exact ⟨_, st, l, m, hret, .listed _ hnodup hmem, h, Nat.le_add_right _ _⟩

theorem FolderState.unlink_step (h : FolderState st l m) {n : CStr} (hn : ValidName n) : StepOk st m (.unlink n) := by
  have hdir := h.folder.dir
  have hfind := hdir.sane.find_name_returns hdir.cells false n
  have hlookup := h.map.lookup_eq hdir false n
  cases hfound : lookup st.vol st.disk false l n with
  | none =>
    rw [hfound] at hlookup hfind
    have hret : Returns (fun fuel => dir_step fuel st (.unlink n)) (.code (-1), st) := by
      filter_upwards [hfind] with fuel hfuel
      simp [dir_step, fat32_unlink, h.mounted, hn.guessed_parent, hfuel]
    exact ⟨_, st, l, m, hret, .refused n fun e he => absurd (hlookup.symm.trans he) (by simp), h, Nat.le_add_right _ _⟩
  | some pos =>
    obtain ⟨k, j, i⟩ := pos
    rw [hfound] at hlookup hfind
    obtain ⟨htaken, hkey⟩ := hlookup
    obtain ⟨hk, hj, hi, _⟩ := lookup_some hfound
    obtain ⟨_, hname, hext⟩ := hdir.lookup_taken hfound
    have hentry := found_at_entry (v := st.vol) (d := st.disk) (k := k) (j := j) hi
    cases hisdir : (slot st.vol st.disk k (16 * j + i)).isDirectory with
    | true =>
      have hret : Returns (fun fuel => dir_step fuel st (.unlink n)) (.code (-1), st) := by
        filter_upwards [hfind] with fuel hfuel
        simp [dir_step, fat32_unlink, h.mounted, hn.guessed_parent, hfuel, hentry, hisdir]
      refine ⟨_, st, l, m, hret, .refused n fun e he => ?_, h, Nat.le_add_right _ _⟩
      rw [hkey] at he
      cases he
      exact hisdir
    | false =>
      have hin := hdir.cells.inRange hk
      have hfile : FileSlot st.vol st.disk l (k, 16 * j + i) := by
        refine ⟨htaken, ?_, hisdir⟩
        unfold fat32_dir_entry_t.name0
        rw [hname]
        exact standardize_base_ne_dot n
      obtain ⟨lf, hlf⟩ := h.folder.files.chain _ hfile
      -- the entry is marked first, then the chain is freed
      have hdelete := hdir.sane.delete_found_eq (i := i) hin hj st.disk
      generalize hd₁ : Function.update st.disk (data_sector st.vol k j) (mark_deleted (st.disk (data_sector st.vol k j)) i) =
        d₁ at hdelete
      have hword₁ : ∀ x, st.vol.InTable x → fat_word st.vol d₁ x = fat_word st.vol st.disk x := by
        intro x hx
        rw [← hd₁]
        exact fat_word_update_data hdir.sane hx
      have hlf₁ : Cells st.vol d₁ (slot st.vol st.disk k (16 * j + i)).first_cluster lf :=
        hlf.congr_words hdir.sane fun x hx => hword₁ x (hlf.inRange hx).inTable
      obtain ⟨d₂, hfree, hsame, hclear⟩ := hdir.sane.free_chain_spec hlf₁ (Nat.lt_succ_self _)
      have hstable : Returns (fun fuel => free_chain st.vol fuel d₁ (slot st.vol st.disk k (16 * j + i)).first_cluster) d₂ :=
        (free_chain_stable d₁ _).returns hfree
      have hret : Returns (fun fuel => dir_step fuel st (.unlink n)) (.code 0, { st with disk := d₂ }) := by
        filter_upwards [hfind, hstable] with fuel h₁ h₂
        simp [dir_step, fat32_unlink, h.mounted, hn.guessed_parent, h₁, hentry, hisdir, hdelete, h₂]
      obtain ⟨hfolder, htaken', hslots'⟩ := h.folder.delete hfile hlf
        (by rw [hsame.slot, ← hd₁]; exact slot_delete_same hi)
        (fun k' hk' i' hi' hne => by
          rw [hsame.slot, ← hd₁]
          exact slot_delete_other hin.1 (hdir.cells.inRange hk').1 hj hi' hne)
        fun x hx hmem => (hsame.word x hx hmem).trans (hword₁ x hx)
      have hmap := h.map.delete hdir htaken htaken' hslots'
      have hnamekey : (slot st.vol st.disk k (16 * j + i)).key = standardize_name n := Prod.ext hname hext
      simp only [hnamekey] at hmap
      refine ⟨_, _, l, _, hret, .unlinked n _ hkey hisdir, ⟨h.mounted, hfolder, hmap, h.handle⟩, ?_⟩
      refine Nat.le_add_right_of_le (Finset.card_le_card fun x hx => ?_)
      obtain ⟨hxin, hxfree⟩ := mem_spare.mp hx
      refine mem_spare.mpr ⟨hxin, ?_⟩
      by_cases hmem : x ∈ lf
      · unfold IsFree
        rw [hclear x hmem]
        rfl
      · rwa [isFree_congr ((hsame.word x hxin.inTable hmem).trans (hword₁ x hxin.inTable))]

/-- A change that left the taken slots alone can be put in front. -/
theorem Entered.of_same {d₁ : Disk} {l₁ l' : List ℕ} {k i : ℕ} {e : fat32_dir_entry_t}
    (h : Entered v d₁ d' c l₁ l' k i e) (htaken : ∀ s, Taken v d₁ l₁ s ↔ Taken v d l s)
    (hslots : ∀ s, Taken v d l s → slot v d₁ s.1 s.2 = slot v d s.1 s.2) : Entered v d d' c l l' k i e where
  folder := h.folder
  entry := h.entry
  taken := fun s => by rw [h.taken s, htaken s]
  slots := fun s hs => (h.slots s ((htaken s).mpr hs)).trans (hslots s hs)
  fresh := fun hs => h.fresh ((htaken _).mpr hs)

/-- `create_entry` for a new file in a directory that does not hold the name. -/
theorem Folder.create (h : Folder v d c l) {n : CStr} (hn : ValidName n)
    (hvacant : ∀ s, Taken v d l s → ¬ ((slot v d s.1 s.2).name = standardize_base n ∧
      (slot v d s.1 s.2).ext = standardize_ext n)) {y : ℕ} (hy : Spare v d l y)
    (hroom : 0 < (spare v d).card) :
    ∃ l' k i d', Returns (fun fuel => create_entry fuel v d c n FAT_ATTR_ARCHIVE y 0) (0, d') ∧
      Entered v d d' c l l' k i (made_entry (standardize_base n) (standardize_ext n) FAT_ATTR_ARCHIVE y 0) ∧
      (spare v d).card ≤ (spare v d').card + 1 := by
  have hdir := h.dir
  obtain ⟨hzero, hdeleted⟩ := hn.standardize_ne
  have hnext := hdir.sane.find_free_of_spare hroom
  have hcases := fun fuel (hfuel : l.length + 1 < fuel) =>
    hdir.sane.create_entry_cases (fun _ _ => hnext.2.1) hdir.cells hfuel n FAT_ATTR_ARCHIVE y 0
  cases hhit : chain_hit v d free_scan l with
  | some pos =>
    obtain ⟨k, j, i⟩ := pos
    refine ⟨l, k, 16 * j + i, _, .of_gt (l.length + 1) fun fuel hfuel => ?_,
      h.fill hhit hzero hdeleted hvacant hy, ?_⟩
    · rcases hcases fuel hfuel with ⟨pos, hpos, heq⟩ | ⟨hnone, _⟩ | ⟨_, _, hnone, _⟩
      · rw [hhit] at hpos
        cases hpos
        exact heq
      · rw [hhit] at hnone
        cases hnone
      · rw [hhit] at hnone
        cases hnone
    · exact card_spare_le 0 fun x hx _ hfree => (isFree_congr (fat_word_fill hdir.sane hx.inTable)).mpr hfree
  | none =>
    obtain ⟨hne, hin, hfree⟩ := hnext
    obtain ⟨x, hx, hlast⟩ := hdir.cells.exists_last
    obtain ⟨hfolder, hgrown, hspare⟩ := h.grow hx hlast hin hfree
    have hfirst : chain_hit v (append_cluster v d x (find_free_cluster v d)) free_scan (l ++ [find_free_cluster v d]) =
        some (find_free_cluster v d, 0, 0) := by
      refine chain_hit_append_cleared hdir.sane.cluster_pos ?_
        (hdir.sane.append_cluster_cleared hin hdir.sane.cluster_pos)
      refine (chain_hit_congr fun k hk j hj => ?_).trans hhit
      refine hdir.sane.append_cluster_data (hdir.cells.inRange hx) hin (hdir.cells.inRange hk) ?_ hj
      rintro rfl
      exact h.not_free hk hfree
    have hvacant' : ∀ s, Taken v (append_cluster v d x (find_free_cluster v d)) (l ++ [find_free_cluster v d]) s →
        ¬ ((slot v (append_cluster v d x (find_free_cluster v d)) s.1 s.2).name = standardize_base n ∧
          (slot v (append_cluster v d x (find_free_cluster v d)) s.1 s.2).ext = standardize_ext n) := by
      intro s hs
      rw [hgrown.taken_iff] at hs
      rw [hgrown.slot_eq hs]
      exact hvacant s hs
    have hfilled := hfolder.fill hfirst hzero hdeleted hvacant' (hspare y hy)
    refine ⟨_, _, _, _, .of_gt (l.length + 1) fun fuel hfuel => ?_,
      hfilled.of_same hgrown.taken_iff fun s hs => hgrown.slot_eq hs, ?_⟩
    · rcases hcases fuel hfuel with ⟨pos, hpos, _⟩ | ⟨_, hz, _⟩ | ⟨x', hx', _, hlast', _, _, _, heq⟩
      · rw [hhit] at hpos
        cases hpos
      · exact absurd hz hne
      · rw [Chain.last_unique (not_inRange_eoc (v := v)) hdir.cells hx hlast hx' hlast']
        exact heq
    · refine card_spare_le (find_free_cluster v d) fun z hz hzy hzfree => ?_
      refine (isFree_congr ((fat_word_fill hdir.sane hz.inTable).trans ?_)).mpr hzfree
      rw [hdir.sane.fat_word_append (hdir.cells.inRange hx) hin hz.inTable, if_neg hzy, if_neg]
      rintro rfl
      exact h.not_free hx hzfree

/-- A handle for a name that the current directory holds. -/
theorem Directory.open_handle_found (hdir : Directory st.vol st.disk st.fat32_cwd_cluster l) {n : CStr}
    (hn : ValidName n) {s : ℕ × ℕ} (hs : Taken st.vol st.disk l s)
    (hname : (slot st.vol st.disk s.1 s.2).name = standardize_base n)
    (hext : (slot st.vol st.disk s.1 s.2).ext = standardize_ext n) {fd : Fin 8}
    (hfd : free_handle st.open_files = some fd) (t : ℕ) :
    ∃ file, Returns (fun fuel => open_handle fuel st n t)
      ((fd.val : Int), { st with open_files := Function.update st.open_files fd file }) := by
  have hopen := open_handle_returns st n hdir.sane (by rw [hn.guessed_parent]; exact hdir.cells) t
  rw [opened, hfd, base_name_of_no_slash hn.no_slash, hdir.lookup_of_taken hs hname hext] at hopen
  exact ⟨_, hopen⟩

theorem FolderState.create_step (h : FolderState st l m) {n : CStr} (hn : ValidName n)
    (hroom : 2 ≤ (spare st.vol st.disk).card) : StepOk st m (.create n) := by
  have hdir := h.folder.dir
  have hbase : base_name n = n := base_name_of_no_slash hn.no_slash
  have hresolve := resolve_component hn.no_slash hdir.sane h.mounted hn.nonempty hdir.cells
  have hlookup := h.map.lookup_eq hdir true n
  obtain ⟨fd, hfd⟩ := Option.ne_none_iff_exists'.mp h.handle
  -- whatever the handle was filled with, closing it leaves it free
  have hclosed : ∀ d l' m' file, Folder st.vol d st.fat32_cwd_cluster l' → Represents st.vol d l' m' →
      FolderState (fat32_close { st with disk := d, open_files := Function.update st.open_files fd file } fd.val) l' m' ∧
        (fat32_close { st with disk := d, open_files := Function.update st.open_files fd file } fd.val).vol = st.vol ∧
        (fat32_close { st with disk := d, open_files := Function.update st.open_files fd file } fd.val).disk = d := by
    intro d l' m' file hfolder hmap
    rw [fat32_close_fd]
    exact ⟨⟨h.mounted, hfolder, hmap, @free_handle_ne_none _ fd (by simp)⟩, rfl, rfl⟩
  cases hfound : lookup st.vol st.disk true l n with
  | some pos =>
    obtain ⟨k, j, i⟩ := pos
    rw [hfound] at hresolve hlookup
    obtain ⟨htaken, hkey⟩ := hlookup
    obtain ⟨_, hname, hext⟩ := hdir.lookup_taken hfound
    have hne := h.map.first_cluster_ne_zero hdir hkey
    obtain ⟨file, hopen⟩ := hdir.open_handle_found hn htaken hname hext hfd
      (slot st.vol st.disk k (16 * j + i)).first_cluster
    obtain ⟨hstate, hvol, hdisk⟩ := hclosed st.disk l m file h.folder h.map
    refine ⟨.code fd.val, _, l, m, ?_, .present n _ _ (Int.natCast_nonneg _) hkey, hstate, ?_⟩
    · filter_upwards [hresolve, hopen] with fuel h₁ h₂
      simp [dir_step, fat32_open, h₁, hne, h₂]
    · rw [hvol, hdisk]
      exact Nat.le_add_right _ _
  | none =>
    rw [hfound] at hresolve hlookup
    obtain ⟨hfull, hin, hfree⟩ := hdir.sane.find_free_of_spare (show 0 < (spare st.vol st.disk).card by omega)
    generalize hy : find_free_cluster st.vol st.disk = y at hin hfree hfull
    have halloc := hdir.sane.allocated_zero hin st.disk
    generalize hd : zero_sectors st.vol (cluster_to_lba st.vol y) st.vol.bpb.sectors_per_cluster 0
      (set_next_cluster st.vol st.disk y FAT32_EOC) = d at halloc
    obtain ⟨hfolder, hspare, htaken, hslots⟩ := h.folder.allocated halloc hfree
    have hslots' : ∀ s, Taken st.vol st.disk l s → slot st.vol d s.1 s.2 = slot st.vol st.disk s.1 s.2 :=
      fun s hs => hslots s.1 hs.1 s.2 hs.2.1
    have hcard : (spare st.vol st.disk).card ≤ (spare st.vol d).card + 1 :=
      card_spare_le y fun x hx hxy hxfree =>
        (isFree_congr (by rw [halloc.word x hx.inTable, if_neg hxy])).mpr hxfree
    obtain ⟨l', k, i, d', hcreate, hentered, hcard'⟩ := hfolder.create hn (fun s hs => by
      rw [htaken] at hs
      rw [hslots' s hs]
      exact h.map.of_none hlookup hs) hspare (by omega)
    have hentered' := hentered.of_same htaken hslots'
    obtain ⟨file, hopen⟩ := @Directory.open_handle_found _ { st with disk := d' } hentered.folder.dir _ hn (k, i)
      ((hentered.taken (k, i)).mpr (.inr rfl)) (by simp only [hentered.entry]; rfl) (by simp only [hentered.entry]; rfl)
      fd hfd y
    obtain ⟨hstate, hvol, hdisk⟩ := hclosed d' l' _ file hentered.folder (hentered'.represents h.map hlookup)
    refine ⟨.code fd.val, _, l', _, ?_, .created n _ y (Int.natCast_nonneg _) hfull hlookup, hstate, ?_⟩
    · filter_upwards [hresolve, hcreate, hopen] with fuel h₁ h₂ h₃
      simp [dir_step, fat32_open, create_file, h₁, hy, hfull, hd, hn.guessed_parent, hbase, h₂, h₃]
    · rw [hvol, hdisk]
      simp only [DirOp.cost]
      omega

theorem FolderState.step (h : FolderState st l m) {op : DirOp} (hvalid : op.Valid)
    (hroom : op.cost ≤ (spare st.vol st.disk).card) : StepOk st m op := by
  cases op with
  | create n => exact h.create_step hvalid hroom
  | unlink n => exact h.unlink_step hvalid
  | resolve n => exact h.resolve_step hvalid
  | list => exact h.list_step

/-- The current directory refines a finite map over every sequence of calls for which
    there are enough free clusters. -/
theorem directory_refines_map (st : Fat32) (l : List ℕ) (m : DirMap) (ops : List DirOp) (h : FolderState st l m)
    (hvalid : ∀ op ∈ ops, op.Valid) (hroom : (ops.map DirOp.cost).sum ≤ (spare st.vol st.disk).card) :
    ∃ answers st' l' m', Returns (fun fuel => dir_run fuel st ops) (answers, st') ∧
      BehavesRun m ops answers m' ∧ FolderState st' l' m' := by
  induction ops generalizing st l m with
  | nil => exact ⟨[], st, l, m, .of_forall fun _ => rfl, .nil, h⟩
  | cons op ops ih =>
    rw [List.map_cons, List.sum_cons] at hroom
    obtain ⟨a, st₁, l₁, m₁, hret, hbehaves, h₁, hcard⟩ := h.step (hvalid op (by simp)) (by omega)
    obtain ⟨as, st₂, l₂, m₂, hret₂, hrest, h₂⟩ := ih st₁ l₁ m₁ h₁ (fun op hop => hvalid op (by simp [hop])) (by omega)
    refine ⟨a :: as, st₂, l₂, m₂, ?_, .cons hbehaves hrest, h₂⟩
    filter_upwards [hret, hret₂] with fuel hf hf₂
    simp [dir_run, hf, hf₂]

/-- Every directory is some map. -/
theorem Directory.exists_map (h : Directory v d c l) : ∃ m, Represents v d l m := by
  classical
  refine ⟨fun key => if hs : ∃ s, Taken v d l s ∧ (slot v d s.1 s.2).key = key then
    some (slot v d hs.choose.1 hs.choose.2) else none, fun key e => ?_⟩
  simp only
  constructor
  · intro heq
    split at heq
    case isTrue hs =>
      cases heq
      exact ⟨hs.choose, hs.choose_spec.1, rfl, hs.choose_spec.2⟩
    case isFalse => cases heq
  · rintro ⟨s, hs, rfl, rfl⟩
    have hsome : ∃ t, Taken v d l t ∧ (slot v d t.1 t.2).key = (slot v d s.1 s.2).key := ⟨s, hs, rfl⟩
    obtain ⟨ht, hkey⟩ := hsome.choose_spec
    obtain ⟨hname, hext⟩ := Prod.mk.inj hkey
    rw [dif_pos hsome, h.unique _ s ht hs hname hext]

/-- A directory with proper entries whose files have chains of their own behaves as a
    finite map over every sequence of calls, and stays such a directory. -/
theorem directory_behaves_as_map (st : Fat32) (l : List ℕ) (ops : List DirOp) (hmounted : st.mounted = true)
    (hfolder : Folder st.vol st.disk st.fat32_cwd_cluster l) (hhandle : free_handle st.open_files ≠ none)
    (hvalid : ∀ op ∈ ops, op.Valid) (hroom : (ops.map DirOp.cost).sum ≤ (spare st.vol st.disk).card) :
    ∃ m answers st' l' m', Represents st.vol st.disk l m ∧ Returns (fun fuel => dir_run fuel st ops) (answers, st') ∧
      BehavesRun m ops answers m' ∧ FolderState st' l' m' := by
  obtain ⟨m, hm⟩ := hfolder.dir.exists_map
  obtain ⟨answers, st', l', m', hrun⟩ := directory_refines_map st l m ops ⟨hmounted, hfolder, hm, hhandle⟩ hvalid hroom
  exact ⟨m, answers, st', l', m', hm, hrun⟩

theorem small_root_folder : Folder small_volume small_state.disk 2 [2] := by
  have hblank := blank_slots small_volume_sane small_root_inRange
  have hnone : ∀ s, ¬ Taken small_volume small_state.disk [2] s := fun s hs => hs.2.2.1 (hblank s.1 s.2)
  exact {
    dir := {
      sane := small_volume_sane
      cells := blank_root_cells small_volume_sane small_root_inRange
      no_lfn := fun k _ i _ hzero => absurd (hblank k i) hzero
      unique := fun s _ hs => absurd hs (hnone s)
      nonzero := fun s hs => absurd hs (hnone s)
      tail := ⟨fun k _ _ i' _ _ _ => hblank k i', List.pairwise_singleton _ _⟩ }
    files := {
      chain := fun s hs => absurd hs.1 (hnone s)
      outside := fun _ ⟨s, _, hs, _⟩ => absurd hs.1 (hnone s)
      apart := fun s _ _ _ _ hs => absurd hs.1 (hnone s) } }

theorem small_free : 2 ≤ (spare small_volume small_state.disk).card :=
  two_le_card_spare (show 3 ≠ 4 by decide) (by decide +kernel) (by decide +kernel)

/-- A file is made and removed again. -/
theorem directory_behaves_as_map_small :
    ∃ m answers st' l' m', Represents small_state.vol small_state.disk [2] m ∧
      Returns (fun fuel => dir_run fuel small_state [.create (ascii "A"), .list, .unlink (ascii "A"), .resolve (ascii "A")])
        (answers, st') ∧
      BehavesRun m [.create (ascii "A"), .list, .unlink (ascii "A"), .resolve (ascii "A")] answers m' ∧
      FolderState st' l' m' := by
  have hname : ValidName (ascii "A") := ⟨by decide, by decide, by decide, by decide, by decide⟩
  refine directory_behaves_as_map small_state [2] _ rfl small_root_folder (by decide) ?_ small_free
  intro op hop
  simp only [List.mem_cons, List.not_mem_nil, or_false] at hop
  obtain rfl | rfl | rfl | rfl := hop
  · exact hname
  · trivial
  · exact hname
  · exact hname

/-- The root holds a file that starts at the root's own cluster. -/
def crossed_state : Fat32 :=
  { small_state with disk := fill_slot small_volume small_state.disk (2, 0, 0) (ascii "A") FAT_ATTR_ARCHIVE 2 0 }

theorem crossed_slots (i : ℕ) (hi : i < slots_per_cluster small_volume) :
    slot small_volume crossed_state.disk 2 i = made_entry (standardize_base (ascii "A")) (standardize_ext (ascii "A"))
        FAT_ATTR_ARCHIVE 2 0 ∧ i = 0 ∨
      (slot small_volume crossed_state.disk 2 i).name0 = 0 ∧ i ≠ 0 := by
  by_cases hzero : i = 0
  · subst hzero
    exact .inl ⟨slot_fill_same (by decide) (by decide), rfl⟩
  · refine .inr ⟨?_, hzero⟩
    have hother : slot small_volume crossed_state.disk 2 i = slot small_volume small_state.disk 2 i :=
      slot_fill_other (by decide) (by decide) (by decide) hi (by simpa using hzero)
    rw [hother]
    exact blank_slots small_volume_sane small_root_inRange 2 i

theorem crossed_taken (s : ℕ × ℕ) (hs : Taken small_volume crossed_state.disk [2] s) :
    s = (2, 0) ∧ slot small_volume crossed_state.disk s.1 s.2 =
      made_entry (standardize_base (ascii "A")) (standardize_ext (ascii "A")) FAT_ATTR_ARCHIVE 2 0 := by
  obtain ⟨k, i⟩ := s
  obtain ⟨hk, hi, hocc⟩ := hs
  obtain rfl := List.mem_singleton.mp hk
  obtain ⟨hslot, rfl⟩ | ⟨hmark, _⟩ := crossed_slots i hi
  · exact ⟨rfl, hslot⟩
  · exact absurd hmark hocc.1

theorem crossed_directory : Directory small_volume crossed_state.disk 2 [2] where
  sane := small_volume_sane
  cells := .last small_root_inRange (by decide +kernel)
  no_lfn := by
    intro k hk i hi hname _
    obtain rfl := List.mem_singleton.mp hk
    obtain ⟨hslot, _⟩ | ⟨hmark, _⟩ := crossed_slots i hi
    · rw [hslot]
      decide
    · exact absurd hmark hname
  unique := fun s t hs ht _ _ => (crossed_taken s hs).1.trans (crossed_taken t ht).1.symm
  nonzero := by
    intro s hs _
    rw [(crossed_taken s hs).2]
    decide
  tail := by
    refine ⟨fun k hk i i' hlt hi' _ => ?_, List.pairwise_singleton _ _⟩
    obtain rfl := List.mem_singleton.mp hk
    obtain ⟨_, rfl⟩ | ⟨hmark, _⟩ := crossed_slots i' hi'
    · omega
    · exact hmark

/-- Such a directory is proper by itself, but removing the file frees the directory. -/
theorem crossed_unlink_frees_directory :
    Directory crossed_state.vol crossed_state.disk crossed_state.fat32_cwd_cluster [2] ∧ crossed_state.mounted = true ∧
      2 ≤ (spare crossed_state.vol crossed_state.disk).card ∧ free_handle crossed_state.open_files ≠ none ∧
      ValidName (ascii "A") ∧
      ∃ st', Returns (fun fuel => fat32_unlink fuel crossed_state (ascii "A")) (0, st') ∧
        ∀ l', ¬ Directory st'.vol st'.disk st'.fat32_cwd_cluster l' := by
  have hfree : 2 ≤ (spare small_volume crossed_state.disk).card := by
    refine Nat.le_trans small_free (Finset.card_le_card fun x hx => ?_)
    obtain ⟨hin, hfree⟩ := mem_spare.mp hx
    exact mem_spare.mpr ⟨hin, (isFree_congr (fat_word_fill small_volume_sane hin.inTable)).mpr hfree⟩
  refine ⟨crossed_directory, rfl, hfree, by decide, ⟨by decide, by decide, by decide, by decide, by decide⟩, ?_⟩
  obtain ⟨res, hres, htest⟩ := Option.map_eq_some_iff.mp
    (show (fat32_unlink 5 crossed_state (ascii "A")).map (fun res => decide (res.1 = 0 ∧ res.2.fat32_cwd_cluster = 2 ∧
      get_next_cluster res.2.vol res.2.disk 2 = 0)) = some true by decide +kernel)
  obtain ⟨hrc, hcwd, hnext⟩ := of_decide_eq_true htest
  obtain ⟨rc, st'⟩ := res
  simp only at hrc hcwd hnext
  subst hrc
  refine ⟨st', (fat32_unlink_stable _ _).returns hres, fun l' hdir => ?_⟩
  have hl' := hdir.cells
  rw [hcwd] at hl'
  exact hl'.next_ne hl'.head_mem not_inRange_zero (by simp [view, FAT32_EOC]) hnext

end os_dev.fat32
