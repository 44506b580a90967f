import OsDev.Core.ContextGet

open os_dev.ata os_dev.libc os_dev.fat32 os_dev.shell char_array forest link_chain fuel

namespace os_dev.agent

variable {key other value text : CStr} {st : Fat32} {screen : CStr} {calls : List Call} {c : ℕ} {l lr lf : List ℕ}

/-- The key has a regular file in `/agent/db` and an entry in the root, there is a free handle and room for the value,
    and behind the value nothing of the older content shows. -/
structure Storable (st : Fat32) (key value : CStr) (c : ℕ) (l lr lf : List ℕ) : Prop where
  dir : StoreDir st c l lr
  handle : free_handle st.open_files ≠ none
  file : ∃ k j i, lookup st.vol st.disk true l (key_file key) = some (k, j, i) ∧ (slot st.vol st.disk k (16 * j + i)).isDirectory = false
  cells : Cells st.vol st.disk (target_cluster st.vol st.disk l (key_file key)) lf
  root_entry : lookup st.vol st.disk false lr (key_file key) ≠ none
  rest : shown_behind value.length
    (delivered st.vol st.disk lf (max (open_size st.vol st.disk lr (key_file key)) value.length)) = []
  room : RoomFor st.vol st.disk lf 0 value.length
  fits : value.length < 2 ^ 32

/-- Files of different keys have different names. -/
theorem standardize_key_iff (h : ContextKey key) (h' : ContextKey other) :
    standardize_name (key_file key) = standardize_name (key_file other) ↔ same_key key other = true := by
  rw [h.shortName.standardize_inj h'.shortName, key_file, key_file, List.map_append, List.map_append, List.append_left_inj,
    same_key, decide_eq_true_iff]

/-- Entries of different names are different entries. -/
theorem lookup_slot_ne {v : Volume} {d : Disk} {skip skip' : Bool} {l l' : List ℕ} {n n' : CStr} {k j i k' j' i' : ℕ}
    (h : lookup v d skip l n = some (k, j, i)) (h' : lookup v d skip' l' n' = some (k', j', i'))
    (hne : standardize_name n ≠ standardize_name n') : (k', 16 * j' + i') ≠ (k, 16 * j + i) := by
  intro heq
  obtain ⟨-, -, -, -, -, -, hname, hext⟩ := lookup_some h
  obtain ⟨-, -, -, -, -, -, hname', hext'⟩ := lookup_some h'
  obtain ⟨rfl, hslot⟩ := Prod.mk.inj heq
  rw [hslot] at hname' hext'
  exact hne (Prod.ext (hname.symm.trans hname') (hext.symm.trans hext'))

section Set

variable (h : Storable st key value c l lr lf) (hmounted : st.mounted = true) (hwf : WellFormed st.vol st.disk) (hkey : ContextKey key)

include h

theorem Storable.lists : ∃ k j i, lookup st.vol st.disk true l (key_file key) = some (k, j, i) ∧
    Lists st.vol st.disk c k (16 * j + i) false (target_cluster st.vol st.disk l (key_file key)) := by
  obtain ⟨k, j, i, hlookup, hfile⟩ := h.file
  have hcells := h.cells
  obtain ⟨-, -, -, -, -, hlfn, -⟩ := lookup_some hlookup
  refine ⟨k, j, i, hlookup, ?_⟩
  rw [target_cluster_eq hlookup] at hcells ⊢
  rw [← hfile]
  exact lookup_lists h.dir.live h.dir.cells hlookup (hlfn rfl) (hcells.inRange hcells.head_mem).ne_zero

include hmounted hwf hkey

variable (screen calls) in
/-- What a set does: it writes to the file in `/agent/db` and puts the size into the entry in the root. -/
theorem Storable.set_rewrites : ∃ d' new fd file k j i, lookup st.vol st.disk false lr (key_file key) = some (k, j, i) ∧
    Returns (fun fuel => agent_ctx_set fuel ⟨st, screen, calls⟩ key value)
      ⟨{ st with disk := d', open_files := Function.update st.open_files fd file },
        screen ++ ascii "Agent DB: Set '" ++ key ++ ascii "' successfully.\n", calls⟩ ∧
    file.valid = false ∧ Rewrites st.vol st.disk d' (target_cluster st.vol st.disk l (key_file key)) lf new k (16 * j + i)
      (max (open_size st.vol st.disk lr (key_file key)) value.length) value := by
  obtain ⟨k₀, j₀, i₀, -, hlists⟩ := h.lists
  obtain ⟨fd, hfd⟩ := Option.ne_none_iff_exists'.mp h.handle
  obtain ⟨⟨k, j, i⟩, hlookup⟩ := Option.ne_none_iff_exists'.mp h.root_entry
  obtain ⟨hk, hj, hi, -⟩ := lookup_some hlookup
  have hopen := h.dir.open_existing hmounted hwf hkey (h.cells.inRange h.cells.head_mem).ne_zero mode_w
  rw [opened_eq hfd (by rw [hkey.base_name]; exact hlookup)] at hopen
  obtain ⟨d', new, file, hwrite, hvalid, hrewrites⟩ := @with_opened_write st (ctx_path key).str lf _ k fd value hwf h.cells (16 * j + i)
    ⟨_, _, _, hlists⟩ ⟨_, lr, liveDir_root, h.dir.root, hk⟩ (slot_index_lt hj hi) h.fits h.room
  have hsize : open_size st.vol st.disk lr (key_file key) = (slot st.vol st.disk k (16 * j + i)).file_size := by
    rw [open_size, hlookup]
  rw [hsize]
  refine ⟨d', new, fd, file, k, j, i, hlookup, ?_, hvalid, hrewrites⟩
  filter_upwards [hopen] with fuel h₁
  simp [agent_ctx_set, h₁, Os.print_string, hwrite]

end Set

section Effects

variable {d' : Disk} {new : List ℕ} {k j i : ℕ} {open_files : Fin 8 → fat32_file_t} (h : Storable st key value c l lr lf)
  (hwf : WellFormed st.vol st.disk) (hlookup : lookup st.vol st.disk false lr (key_file key) = some (k, j, i))
  (hrewrites : Rewrites st.vol st.disk d' (target_cluster st.vol st.disk l (key_file key)) lf new k (16 * j + i)
    (max (open_size st.vol st.disk lr (key_file key)) value.length) value)
  (hfree : free_handle open_files ≠ none)

include h hrewrites

theorem Storable.target_kept (name : CStr) : target_cluster st.vol d' l name = target_cluster st.vol st.disk l name := by
  rw [target_cluster, target_cluster, hrewrites.lookup h.dir.live h.dir.cells]
  cases hfound : lookup st.vol st.disk true l name with
  | none => rfl
  | some pos =>
    obtain ⟨hk, hj, hi, -⟩ := lookup_some hfound
    exact (hrewrites.entry ⟨_, l, h.dir.live, h.dir.cells, hk⟩ (slot_index_lt hj hi)).1

include hwf

theorem Storable.dir_kept : StoreDir { st with disk := d', open_files := open_files } c l lr where
  leads := hrewrites.leads hwf liveDir_root h.dir.leads
  cells := hrewrites.dir_cells hwf h.dir.live h.dir.cells
  root := hrewrites.dir_cells hwf liveDir_root h.dir.root

include hlookup hfree

omit hwf in
/-- The value shows under the key, in whichever case it is written. -/
theorem Storable.shows_value (hkey : ContextKey key) (hother : ContextKey other) (hsame : same_key key other = true) (hnul : 0 ∉ value) :
    Shows { st with disk := d', open_files := open_files } l lr other (context_text other value) := by
  obtain ⟨hk, hj, hi, -⟩ := lookup_some hlookup
  have hname := (standardize_key_iff hkey hother).mpr hsame
  have htarget : target_cluster st.vol d' l (key_file other) = target_cluster st.vol st.disk l (key_file key) := by
    rw [h.target_kept hrewrites, target_cluster, target_cluster, lookup_name_congr hname.symm]
  have hroot : lookup st.vol d' false lr (key_file other) = some (k, j, i) := by
    rw [hrewrites.lookup liveDir_root h.dir.root, lookup_name_congr hname.symm, hlookup]
  have hsize : open_size st.vol d' lr (key_file other) = max (open_size st.vol st.disk lr (key_file key)) value.length := by
    simp only [open_size, hroot]
    rw [hrewrites.slots k _ ⟨_, lr, liveDir_root, h.dir.root, hk⟩ (slot_index_lt hj hi), if_pos rfl, open_size]
  have hexists := (h.cells.inRange h.cells.head_mem).ne_zero
  obtain ⟨m, hdelivered⟩ := hrewrites.delivered_eq (le_max_right (open_size st.vol st.disk lr (key_file key)) value.length)
  unfold Shows
  simp only [htarget, hroot, hsize]
  rw [if_neg (by simp [hfree, hexists])]
  refine ⟨lf ++ new, hrewrites.cells, ?_⟩
  rw [hdelivered, shown_rewritten hnul, shown_behind_append_zeros, h.rest, List.append_nil]

/-- What shows under another key stays. -/
theorem Storable.shows_kept (hkey : ContextKey key) (hother : ContextKey other) (hdiff : ¬ same_key key other = true)
    (hshows : Shows st l lr other text) : Shows { st with disk := d', open_files := open_files } l lr other text := by
  have hname : standardize_name (key_file key) ≠ standardize_name (key_file other) := fun heq =>
    hdiff ((standardize_key_iff hkey hother).mp heq)
  have htarget := h.target_kept hrewrites (key_file other)
  have hroot := hrewrites.lookup liveDir_root h.dir.root false (key_file other)
  have hsize : open_size st.vol d' lr (key_file other) = open_size st.vol st.disk lr (key_file other) := by
    rw [open_size, open_size, hroot]
    cases hfound : lookup st.vol st.disk false lr (key_file other) with
    | none => rfl
    | some pos =>
      obtain ⟨k', j', i'⟩ := pos
      obtain ⟨hk', hj', hi', -⟩ := lookup_some hfound
      simp only [hrewrites.slots k' _ ⟨_, lr, liveDir_root, h.dir.root, hk'⟩ (slot_index_lt hj' hi'),
        if_neg (lookup_slot_ne hlookup hfound hname)]
  unfold Shows at hshows ⊢
  simp only [htarget, hroot, hsize, hfree, h.handle, false_or] at hshows ⊢
  split at hshows
  case isTrue hwhy => rwa [if_pos hwhy]
  case isFalse hfound =>
    rw [if_neg hfound]
    obtain ⟨lf₂, hlf₂, rfl⟩ := hshows
    refine ⟨lf₂, ?_⟩
    obtain ⟨k₀, j₀, i₀, hlookup₀, hlists⟩ := h.lists
    cases hlookup₂ : lookup st.vol st.disk true l (key_file other) with
    | none => exact absurd (by rw [target_cluster, hlookup₂]) (not_or.mp hfound).1
    | some pos =>
      obtain ⟨k₂, j₂, i₂⟩ := pos
      obtain ⟨-, -, -, -, -, hlfn, -⟩ := lookup_some hlookup₂
      have hne := (not_or.mp hfound).1
      rw [target_cluster_eq hlookup₂] at hne hlf₂ ⊢
      have hlists₂ := lookup_lists h.dir.live h.dir.cells hlookup₂ (hlfn rfl) hne
      -- the two files and the root share no cluster
      have hfile : (slot st.vol st.disk k₂ (16 * j₂ + i₂)).first_cluster ≠ target_cluster st.vol st.disk l (key_file key) := by
        intro heq
        have hslots := lookup_slot_ne hlookup₀ hlookup₂ hname
        rw [heq] at hlf₂ hlists₂
        exact hwf.tidy.2.disjoint hlists₂.owns hlf₂ hlists.owns h.cells (fun heq => hslots (Option.some.inj heq)) _ hlf₂.head_mem
          h.cells.head_mem
      have hout : k ∉ lf₂ := fun hmem =>
        hwf.tidy.2.disjoint (o := none) rfl h.dir.root hlists₂.owns hlf₂ (by simp) k (lookup_some hlookup).1 hmem
      obtain ⟨hcells, hdata⟩ := hrewrites.others _ _ _ hlists₂.owns hfile hlf₂
      refine ⟨hcells, ?_⟩
      rw [delivered, delivered, file_content, file_content, hdata hout]

end Effects

variable (screen calls) in
/-- A set and a get agree on the value, and the other keys keep theirs. -/
theorem Storable.set_step (h : Storable st key value c l lr lf) (hmounted : st.mounted = true) (hwf : WellFormed st.vol st.disk)
    (hkey : ContextKey key) (hnul : 0 ∉ value) : ∃ os', Returns (fun fuel => agent_ctx_set fuel ⟨st, screen, calls⟩ key value) os' ∧
      os'.fs.mounted = true ∧ WellFormed os'.fs.vol os'.fs.disk ∧
      (∀ other, ContextKey other → same_key key other = true → Gets os' other (context_text other value)) ∧
      ∀ other text, ContextKey other → ¬ same_key key other = true → Gets ⟨st, screen, calls⟩ other text → Gets os' other text := by
  obtain ⟨d', new, fd, file, k, j, i, hlookup, hset, hvalid, hrewrites⟩ := h.set_rewrites screen calls hmounted hwf hkey
  have hfree : free_handle (Function.update st.open_files fd file) ≠ none :=
    @free_handle_ne_none _ fd (by rwa [Function.update_self])
  have hwf' := hrewrites.tree.wf
  have hdir := @Storable.dir_kept _ _ _ _ _ _ _ _ _ _ _ _ (Function.update st.open_files fd file) h hwf hrewrites
  refine ⟨_, hset, hmounted, hwf', fun other hother hsame => ?_, fun other text hother hdiff hgets => ?_⟩
  · exact gets_of_shows hmounted hwf' hdir hother (h.shows_value hlookup hrewrites hfree hkey hother hsame hnul)
  · have hshows := (gets_iff_shows hmounted hwf h.dir hother).mp hgets
    exact gets_of_shows hmounted hwf' hdir hother (h.shows_kept hwf hlookup hrewrites hfree hkey hother hdiff hshows)

end os_dev.agent
