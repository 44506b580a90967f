import OsDev.Fat32.ExactRemoval
import OsDev.Fat32.PathAgreement

open os_dev.ata os_dev.libc little_endian forest link_chain fuel

namespace os_dev.fat32

variable {v : Volume} {d d₁ : Disk} {st : Fat32} {p : CStr}

/-- How the components of a path relate to those of the part in front of its last
    slash: one more, two more after a doubled slash, none after a trailing one. -/
theorem components_split {front back : CStr} (hsplit : split_last_slash p = some (front, back)) (hp : p ≠ [slash]) :
    components p = components front ++ [back] ∨ components p = components front ++ [[], back] ∨
      back = [] ∧ components p = components front := by
  obtain ⟨rfl, hback⟩ := split_last_slash_some hsplit
  have htail : back ≠ [] → path_parts [] back = [back] := fun hne => path_parts_single hback hne
  -- the part in front of the slash, without a slash at its head
  have hbody : ∀ body : CStr, path_parts [] (body ++ slash :: back) = path_parts [] body ++ [back] ∨
      path_parts [] (body ++ slash :: back) = path_parts [] body ++ [[], back] ∨
      back = [] ∧ path_parts [] (body ++ slash :: back) = path_parts [] body := by
    intro body
    by_cases hblank : body = [] ∨ body.getLast? = some slash
    · rw [path_parts_append_blank (hblank.imp_left fun heq => ⟨heq, rfl⟩)]
      by_cases hne : back = []
      · exact .inl (by simp [hne, path_parts])
      · exact .inr (.inl (by rw [htail hne]))
    · obtain ⟨hbody, hlast⟩ := not_or.mp hblank
      rw [path_parts_append (fun heq => absurd heq hbody) hlast]
      by_cases hne : back = []
      · exact .inr (.inr ⟨hne, by simp [hne, path_parts]⟩)
      · exact .inl (by rw [htail hne])
  cases front with
  | nil =>
    have hne : back ≠ [] := by
      rintro rfl
      exact hp rfl
    exact .inl (by simp [components, path_parts, htail hne])
  | cons c cs =>
    by_cases hc : c = slash
    · simpa [components, hc] using hbody cs
    · simpa [components, hc] using hbody (c :: cs)

/-- A walk along two lists of components is one walk after the other. -/
theorem Leads.split {c r : ℕ} {parts rest : List CStr} (h : Leads v d c (parts ++ rest) r) :
    ∃ m, Leads v d c parts m ∧ Leads v d m rest r := by
  induction parts generalizing c with
  | nil => exact ⟨c, .done, h⟩
  | cons part parts ih =>
    cases h with
    | step hl hfound hdir hne tail =>
      obtain ⟨m, hfirst, hlast⟩ := ih tail
      exact ⟨m, .step hl hfound hdir hne hfirst, hlast⟩

/-- The walk along the part in front of the last slash ends in the directory that
    `fat32_mkdir` and `fat32_rmdir` take for the parent. -/
theorem parent_and_name_of_leads (h : WellFormed st.vol st.disk) (hmounted : st.mounted = true) {front back : CStr} {c' : ℕ}
    (hsplit : split_last_slash p = some (front, back))
    (hleads : Leads st.vol st.disk (start_cluster st p) (components front) c') :
    ∃ leading, Returns (fun fuel => parent_and_name fuel st p) (c', back, leading) := by
  cases front with
  | nil =>
    obtain ⟨rfl, _⟩ := split_last_slash_some hsplit
    obtain rfl : st.vol.bpb.root_cluster = c' := by
      have hroot : start_cluster st (slash :: back) = st.vol.bpb.root_cluster := by simp [start_cluster]
      rw [List.nil_append, hroot] at hleads
      cases hleads
      rfl
    rw [List.nil_append] at hsplit
    refine ⟨true, .of_forall fun fuel => ?_⟩
    simp [parent_and_name, hsplit]
  | cons a as =>
    have hstart : start_cluster st (a :: as) = start_cluster st p := by
      unfold start_cluster
      rw [split_last_slash_head hsplit (List.cons_ne_nil a as)]
    refine ⟨false, ?_⟩
    filter_upwards [hleads.resolves.returns h.sane] with fuel hfuel
    simp [parent_and_name, hsplit, fat32_resolve_path, hmounted, hstart, hfuel]

/-- The path names a directory below the root: its walk passes through directories,
    and its last component is the directory entry in slot `16 * j + i` of cluster `k`. -/
structure NamesDir (st : Fat32) (p : CStr) (parts : List CStr) (name : CStr) (c : ℕ) (l : List ℕ) (k j i : ℕ) : Prop
    extends Names st p parts name c l where
  found : lookup st.vol st.disk true l name = some (k, j, i)
  directory : (slot st.vol st.disk k (16 * j + i)).isDirectory = true
  clusters : (slot st.vol st.disk k (16 * j + i)).first_cluster ≠ 0

section NamesDir

variable {parts : List CStr} {name : CStr} {c : ℕ} {l : List ℕ} {k j i : ℕ} (hname : NamesDir st p parts name c l k j i)

include hname

theorem NamesDir.ne_slash : p ≠ [slash] := by
  rintro rfl
  have hsplit := hname.split
  simp [components, path_parts] at hsplit

theorem NamesDir.lists : Lists st.vol st.disk c k (16 * j + i) true (slot st.vol st.disk k (16 * j + i)).first_cluster :=
  lookup_dir_lists hname.live hname.cells hname.found hname.directory hname.clusters

theorem NamesDir.liveDir : LiveDir st.vol st.disk (slot st.vol st.disk k (16 * j + i)).first_cluster :=
  LiveEntry.liveDir ⟨c, hname.lists⟩

theorem NamesDir.resolves (h : WellFormed st.vol st.disk) (hmounted : st.mounted = true) :
    Returns (fun fuel => fat32_resolve_path fuel st p) (slot st.vol st.disk k (16 * j + i)).first_cluster := by
  have hret := hname.resolve h hmounted
  rwa [hname.found] at hret

end NamesDir

/-- A path names at most one directory, in one way. -/
theorem NamesDir.unique {parts parts' : List CStr} {name name' : CStr} {c c' : ℕ} {l l' : List ℕ} {k k' j j' i i' : ℕ}
    (hname : NamesDir st p parts name c l k j i) (hname' : NamesDir st p parts' name' c' l' k' j' i') :
    (parts, name, l, k, j, i) = (parts', name', l', k', j', i') := by
  obtain ⟨rfl, hlast⟩ := List.append_inj' (hname.split.symm.trans hname'.split) rfl
  obtain rfl : name = name' := by simpa using hlast
  obtain rfl := hname.leads.resolves.unique hname'.leads.resolves
  obtain rfl := Cells.unique hname.cells hname'.cells
  cases hname.found.symm.trans hname'.found
  rfl

/-- The volume with one regular file, mounted. -/
def file_state : Fat32 := { small_state with disk := file_disk }

end os_dev.fat32
