import OsDev.Fat32.Device
import OsDev.Fat32.Handles
import OsDev.Fat32.Stability
import OsDev.Fat32.Blank

open os_dev.ata os_dev.libc little_endian forest link_chain fuel

namespace os_dev.fat32

variable {v : Volume} {d d' : Disk} {st st' : Fat32}

/-- A call of the file interface. -/
inductive Op where
  | open (path : CStr) (mode : UInt8)
  | read (fd : Int) (len : ℕ)
  | write (fd : Int) (bytes : List UInt8)
  | seek (fd : Int) (pos : ℕ)
  | close (fd : Int)
  | mkdir (path : CStr)
  | unlink (path : CStr)
  | rmdir (path : CStr)
  | chdir (path : CStr)

/-- The state after a call. -/
def step (fuel : ℕ) (st : Fat32) : Op → Option Fat32
  | .open path mode => (fat32_open fuel st path mode).map Prod.snd
  | .read fd len => some (fat32_read st fd len).2.2
  | .write fd bytes => some (fat32_write st fd bytes).2
  | .seek fd pos => (fat32_seek st fd pos).map Prod.snd
  | .close fd => some (fat32_close st fd)
  | .mkdir path => (fat32_mkdir fuel st path).map Prod.snd
  | .unlink path => (fat32_unlink fuel st path).map Prod.snd
  | .rmdir path => (fat32_rmdir fuel st path).map Prod.snd
  | .chdir path => (fat32_chdir fuel st path).map Prod.snd

/-- The state after a sequence of calls. -/
def run (fuel : ℕ) : Fat32 → List Op → Option Fat32
  | st, [] => some st
  | st, op :: ops => step fuel st op >>= fun st => run fuel st ops

/-- The object at `c` belongs to the subtree that slot `s` names. -/
def InSubtree (v : Volume) (d : Disk) (s : ℕ × ℕ) (c : ℕ) : Prop :=
  ∃ o, (view v d).Below (LiveDir v d) s o ∧ Owns v d (some o) c

/-- The inputs on which a call keeps to the files it is about: paths lead through
    directories only, a relative path starts from a live directory, nothing is
    deleted under an open handle, `fat32_rmdir` deletes the directory entry it
    resolves, and a handle that is written to stands inside a regular file. -/
def Safe (st : Fat32) : Op → Prop
  | .open path _ => SafePath st path ∧ LiveDir st.vol st.disk (guessed_parent st path) ∧
    (components path = [] → ∀ l, Cells st.vol st.disk (guessed_parent st path) l →
      lookup st.vol st.disk false l (base_name path) = none)
  | .write fd bytes => ∀ i, handle st fd = some i → bytes ≠ [] →
    (∃ p k j, Lists st.vol st.disk p k j false (st.open_files i).first_cluster) ∧
      (st.open_files i).current_cluster ≠ FAT32_EOC ∧ (st.open_files i).cluster_offset < cluster_size st.vol
  | .mkdir path => SafePath st path ∧ SafeParent st path
  | .unlink path => LiveDir st.vol st.disk (guessed_parent st path) ∧
    ∀ l k j i, Cells st.vol st.disk (guessed_parent st path) l →
      lookup st.vol st.disk false l path = some (k, j, i) →
      (slot st.vol st.disk k (16 * j + i)).isDirectory = false →
      (slot st.vol st.disk k (16 * j + i)).attributes ≠ FAT_ATTR_LFN ∧
        ∀ fd, (st.open_files fd).valid = true →
          (st.open_files fd).first_cluster ≠ (slot st.vol st.disk k (16 * j + i)).first_cluster
  | .rmdir path => path = [slash] ∨ (SafePath st path ∧
    ∀ r, Returns (fun fuel => fat32_resolve_path fuel st path) r → r ≠ 0 →
      ∃ p name l k j i, SafeRmdir st path p name l k j i ∧
        ∀ fd, (st.open_files fd).valid = true →
          ¬ InSubtree st.vol st.disk (k, 16 * j + i) (st.open_files fd).first_cluster)
  | .chdir path => SafePath st path
  | _ => True

/-- The path of a call is a C string whose copies fit the driver's buffers. -/
def Fits (st : Fat32) : Op → Prop
  | .open path _ => 0 ∉ path ∧ path.length < FAT32_MAX_PATH
  | .mkdir path => 0 ∉ path ∧ path.length < FAT32_MAX_PATH ∧ (base_name path).length < FAT32_MAX_FILENAME
  | .unlink path => 0 ∉ path
  | .rmdir path => 0 ∉ path ∧ path.length < FAT32_MAX_PATH ∧ (base_name path).length < FAT32_MAX_FILENAME
  | .chdir path => 0 ∉ path ∧ st.fat32_cwd_path.length + 1 + path.length < FAT32_MAX_PATH
  | _ => True

/-- Every cluster that a call takes from the table is a cluster of the drive. -/
def Supplied (st : Fat32) : Op → Prop
  | .open path mode => OpenSupply st path mode
  | .write fd bytes => ∀ i, handle st fd = some i → WriteSupply st.vol st.disk (st.open_files i) bytes.length
  | .mkdir path => MkdirSupply st path
  | _ => True

/-- A mounted, well-formed volume whose valid handles stand for live entries. -/
structure Sound (st : Fat32) : Prop where
  mounted : st.mounted = true
  wf : WellFormed st.vol st.disk
  handles : HandlesOk st.vol st.disk st.open_files
  cwd_path : st.fat32_cwd_path.head? = some slash

theorem HandlesOk.mono {open_files : Fin 8 → fat32_file_t} (h : HandlesOk v d open_files)
    (hmono : ∀ i, (open_files i).valid = true → HandleOk v d (open_files i) → HandleOk v d' (open_files i)) :
    HandlesOk v d' open_files := fun i hi => hmono i hi (h i hi)

theorem Claimed.sameTree (hwf : WellFormed v d) {y : ℕ} (h : Claimed v d d' y) : SameTree v d d' :=
  (h.keeps hwf).sameTree hwf

theorem Placed.handleOk {p k i : ℕ} {e : fat32_dir_entry_t} (h : Placed v d d' p k i e) {file : fat32_file_t}
    (hfile : HandleOk v d file) : HandleOk v d' file := by
  obtain ⟨p', k', i', isDir, hlists⟩ := hfile.entry
  obtain ⟨l, hl, hcur⟩ := hfile.position
  refine ⟨⟨p', k', i', isDir, (h.lists p' k' i' isDir _).mpr (.inl hlists)⟩, ?_, hfile.dir_cluster,
    hfile.dir_entry_index⟩
  rcases h.cells _ _ _ hlists.owns hl with hsame | ⟨_, hgrown⟩
  · exact ⟨l, hsame, hcur⟩
  · exact ⟨_, hgrown, hcur.imp (fun hmem => by simp [hmem]) id⟩

theorem Removed.handleOk {k i : ℕ} (h : Removed v d d' k i) {file : fat32_file_t} (hfile : HandleOk v d file)
    (hout : ¬ InSubtree v d (k, i) file.first_cluster) : HandleOk v d' file := by
  obtain ⟨p', k', i', isDir, hlists⟩ := hfile.entry
  obtain ⟨l, hl, hcur⟩ := hfile.position
  have hbelow : ¬ (view v d).Below (LiveDir v d) (k, i) (k', i') :=
    fun hbelow => hout ⟨(k', i'), hbelow, hlists.owns⟩
  refine ⟨⟨p', k', i', isDir, (h.lists p' k' i' isDir _).mpr ⟨hlists, hbelow⟩⟩, ⟨l, ?_, hcur⟩, hfile.dir_cluster,
    hfile.dir_entry_index⟩
  refine h.cells _ _ _ hlists.owns hl ?_
  rintro s hs
  cases hs
  exact hbelow

/-- An entry of a name that a search has found is live, so the object it names counts. -/
theorem made_entry_named {skip_lfn : Bool} {l : List ℕ} {name : CStr} {pos : ℕ × ℕ × ℕ} {y : ℕ}
    (hfound : lookup v d skip_lfn l name = some pos) (attr : UInt8) (hattr : attr ≠ FAT_ATTR_LFN) (hy : v.InRange y) :
    named_object (made_entry (standardize_base name) (standardize_ext name) attr y 0) =
      some (attr &&& FAT_ATTR_DIRECTORY != 0, y) := by
  obtain ⟨k, j, i⟩ := pos
  obtain ⟨_, _, _, hzero, hdeleted, _, hname, _⟩ := lookup_some hfound
  unfold fat32_dir_entry_t.name0 at hzero hdeleted
  rw [hname] at hzero hdeleted
  have hlt : y < 2 ^ 32 := by
    have := hy.lt_eoc
    omega
  have hlive : (made_entry (standardize_base name) (standardize_ext name) attr y 0).isLive = true := by
    have hdot := standardize_base_ne_dot name
    simp [fat32_dir_entry_t.isLive, fat32_dir_entry_t.name0, made_entry] at hzero hdeleted hdot ⊢
    exact ⟨⟨⟨hzero, hdeleted⟩, hdot⟩, hattr⟩
  rw [named_object, if_pos ⟨hlive, by rw [made_entry_first_cluster hlt]; exact hy.ne_zero⟩,
    made_entry_first_cluster hlt]
  rfl

theorem opened_sound {path : CStr} {t : ℕ} {l : List ℕ} (h : Sound st)
    (hl : Cells st.vol st.disk (guessed_parent st path) l)
    (ht : ∀ pos, lookup st.vol st.disk false l (base_name path) = some pos →
      ∃ p k i isDir, Lists st.vol st.disk p k i isDir t) : Sound (opened st path t l).2 := by
  unfold opened
  cases free_handle st.open_files with
  | none => exact h
  | some fd =>
    cases hfound : lookup st.vol st.disk false l (base_name path) with
    | none => exact ⟨h.mounted, h.wf, h.handles.update (by simp), h.cwd_path⟩
    | some pos =>
      obtain ⟨k, j, i⟩ := pos
      obtain ⟨hk, hj, hi, _⟩ := lookup_some hfound
      obtain ⟨p, k', i', isDir, hlists⟩ := ht _ hfound
      obtain ⟨lt, hlt⟩ := h.wf.tidy.2.chain hlists.owns
      refine ⟨h.mounted, h.wf, h.handles.update fun _ => ?_, h.cwd_path⟩
      refine ⟨⟨p, k', i', isDir, hlists⟩, ⟨lt, hlt, .inl hlt.head_mem⟩, hl.inRange hk, ?_⟩
      have := slot_index_lt (v := st.vol) hj hi
      simp only
      omega

theorem open_sound {path : CStr} {mode : UInt8} {res : Int × Fat32} (h : Sound st)
    (hsafe : Safe st (.open path mode)) (hcase : OpenCase st path mode res) : Sound res.2 := by
  obtain ⟨hpath, hguess, hroot⟩ := hsafe
  cases hcase with
  | absent => exact h
  | existing r l hr hne hl =>
    apply opened_sound h hl
    intro pos hfound
    obtain ⟨r', hr', htarget⟩ := h.wf.resolve_path h.mounted hpath
    obtain rfl := hr.unique hr'
    cases htarget with
    | start hparts _ =>
      rw [hroot hparts l hl] at hfound
      cases hfound
    | nothing _ hzero => exact absurd hzero hne
    | entry _ p k i isDir hlists => exact ⟨p, k, i, isDir, hlists⟩
  | leaked y d _ _ _ _ hclaimed =>
    have htree := hclaimed.sameTree h.wf
    exact ⟨h.mounted, htree.wf, h.handles.mono fun i _ => htree.handleOk, h.cwd_path⟩
  | created y d d' k i l _ _ _ _ _ hclaimed hplaced hl =>
    have htree := hclaimed.sameTree h.wf
    have hsound : Sound { st with disk := d' } :=
      ⟨h.mounted, hplaced.wf,
        h.handles.mono fun i _ hok => hplaced.handleOk (htree.handleOk hok), h.cwd_path⟩
    apply opened_sound hsound hl
    intro pos hfound
    have hnamed := made_entry_named hfound FAT_ATTR_ARCHIVE (by decide) hclaimed.inRange
    exact ⟨guessed_parent st path, k, i, _, (hplaced.lists _ _ _ _ _).mpr (.inr ⟨rfl, rfl, rfl, hnamed⟩)⟩

theorem mkdir_sound {path : CStr} {res : Int × Fat32} (h : Sound st) (hcase : MkdirCase st path res) :
    Sound res.2 := by
  cases hcase with
  | refused => exact h
  | leaked p name leading y d _ _ _ _ hclaimed =>
    have htree := hclaimed.sameTree h.wf
    exact ⟨h.mounted, htree.wf, h.handles.mono fun i _ => htree.handleOk, h.cwd_path⟩
  | made p name leading y parent d d' k i _ _ _ _ hclaimed hplaced =>
    have htree := hclaimed.sameTree h.wf
    exact ⟨h.mounted, hplaced.wf,
      h.handles.mono fun i _ hok => hplaced.handleOk (htree.handleOk hok), h.cwd_path⟩

/-- A file's slot has nothing below it but the file. -/
theorem inSubtree_of_file {k i c : ℕ} (hfile : (slot v d k i).isDirectory = false)
    (h : InSubtree v d (k, i) c) : c = (slot v d k i).first_cluster := by
  obtain ⟨o, hbelow, p, isDir, _, _, hent⟩ := h
  rcases hbelow with rfl | ⟨y, _, _, _, hdir, _, _⟩
  · exact (named_object_some (view_ent_some hent).2).2.2.2.symm
  · have hdir' := (named_object_some (view_ent_some hdir).2).2.2.1
    rw [hfile] at hdir'
    cases hdir'

theorem unlink_sound {path : CStr} {res : Int × Fat32} {l : List ℕ} (h : Sound st)
    (hsafe : Safe st (.unlink path)) (hl : Cells st.vol st.disk (guessed_parent st path) l)
    (hcase : UnlinkCase st path l res) : Sound res.2 := by
  cases hcase with
  | absent => exact h
  | directory => exact h
  | removed k j i d hlookup hfile hremoved =>
    obtain ⟨_, hhandles⟩ := hsafe.2 l k j i hl hlookup hfile
    refine ⟨h.mounted, hremoved.wf, h.handles.mono fun fd hvalid hok => ?_, h.cwd_path⟩
    exact hremoved.handleOk hok fun hin => hhandles fd hvalid (inSubtree_of_file hfile hin)

theorem seek_sound (fd : Int) (pos : ℕ) (h : Sound st) :
    ∃ res, fat32_seek st fd pos = some res ∧ Sound res.2 := by
  have hsize : cluster_size st.vol ≠ 0 := by
    have := h.wf.sane.cluster_pos
    unfold cluster_size
    omega
  unfold fat32_seek
  cases hfd : handle st fd with
  | none => exact ⟨_, rfl, h⟩
  | some i =>
    simp only [if_neg hsize]
    refine ⟨_, rfl, h.mounted, h.wf, h.handles.update fun hvalid => ?_, h.cwd_path⟩
    refine (h.handles i hvalid).moved ⟨rfl, rfl, rfl, rfl⟩ fun l hl _ => ?_
    exact seek_walk_mem hl _ (.inl hl.head_mem)

theorem read_sound {fd : Int} {len : ℕ} (h : Sound st) : Sound (fat32_read st fd len).2.2 := by
  unfold fat32_read
  cases hfd : handle st fd with
  | none => exact h
  | some i =>
    simp only
    split
    · exact h
    · refine ⟨h.mounted, h.wf, h.handles.update fun hvalid => ?_, h.cwd_path⟩
      have hok := h.handles i (handle_valid hfd)
      obtain ⟨l, hl, hcur⟩ := hok.position
      refine hok.moved (read_loop_spec hl _ _ 0 hcur).1 fun l' hl' hcur' => ?_
      exact (read_loop_spec hl' _ _ 0 hcur').2

theorem close_sound {fd : Int} (h : Sound st) : Sound (fat32_close st fd) := by
  unfold fat32_close
  split
  case isTrue => exact ⟨h.mounted, h.wf, h.handles.update (by simp), h.cwd_path⟩
  case isFalse => exact h

theorem write_sound {fd : Int} {bytes : List UInt8} (h : Sound st) (hsupply : Supplied st (.write fd bytes))
    (hsafe : Safe st (.write fd bytes)) : Sound (fat32_write st fd bytes).2 := by
  unfold fat32_write
  cases hfd : handle st fd with
  | none => exact h
  | some i =>
    have hok := h.handles i (handle_valid hfd)
    by_cases hbytes : bytes = []
    · subst hbytes
      have hself : Function.update st.open_files i (st.open_files i) = st.open_files := Function.update_eq_self _ _
      simpa [write_loop, hself] using h
    · obtain ⟨⟨p, k, j, hlists⟩, hcur, hoffset⟩ := hsafe i hfd hbytes
      obtain ⟨l, hl, hmem⟩ := hok.position
      have hfile : Writable st.vol st.disk k j (st.open_files i) :=
        ⟨⟨p, hlists⟩, ⟨l, hl, hmem.resolve_right hcur⟩, hoffset⟩
      obtain ⟨hothers, hsame, l', hl', hcur'⟩ :=
        write_loop_spec h.wf hfile (hsupply i hfd) bytes.length st.vol.uninit
      have htree := hothers.toSameTree
      simp only
      generalize write_loop st.vol bytes.length st.disk (st.open_files i) st.vol.uninit bytes = res
        at htree hsame hl' hcur' ⊢
      obtain ⟨d, file, n⟩ := res
      have hnew : HandleOk st.vol d file := by
        refine ⟨⟨p, k, j, false, ?_⟩, ⟨l', ?_, .inl hcur'⟩, ?_, ?_⟩
        · rw [hsame.first_cluster]
          exact (htree.lists p k j false _).mpr hlists
        · rw [hsame.first_cluster]
          exact hl'
        · rw [hsame.dir_cluster]
          exact hok.dir_cluster
        · rw [hsame.dir_entry_index]
          exact hok.dir_entry_index
      have hold := h.handles.mono fun _ _ hok => htree.handleOk hok
      split
      case isTrue =>
        have hsized : HandleOk st.vol d { file with file_size := file.position } :=
          ⟨hnew.entry, hnew.position, hnew.dir_cluster, hnew.dir_entry_index⟩
        have hback := htree.wf.write_size { file with file_size := file.position } hnew.dir_cluster
          hnew.dir_entry_index
        refine ⟨h.mounted, hback.wf, ?_, h.cwd_path⟩
        exact (hold.mono fun fd _ => hback.handleOk).update fun _ => hback.handleOk hsized
      case isFalse => exact ⟨h.mounted, htree.wf, hold.update fun _ => hnew, h.cwd_path⟩

theorem split_last_slash_head {path front back : CStr} (h : split_last_slash path = some (front, back))
    (hfront : front ≠ []) : front.head? = path.head? := by
  obtain ⟨rfl, _⟩ := split_last_slash_some h
  cases front with
  | nil => exact absurd rfl hfront
  | cons c cs => rfl

theorem split_last_slash_of_head {path : CStr} (h : path.head? = some slash) :
    ∃ front back, split_last_slash path = some (front, back) := by
  cases hsplit : split_last_slash path with
  | some pair => exact ⟨pair.1, pair.2, rfl⟩
  | none =>
    have hmem := split_last_slash_eq_none.mp hsplit
    exact absurd (List.mem_of_mem_head? h) hmem

theorem change_cwd_sound (h : Sound st) (path : CStr) (cluster : ℕ) :
    ∃ res, change_cwd st path cluster = some res ∧ Sound res.2 := by
  have hcwd : ∀ p c, p.head? = some slash → Sound { st with fat32_cwd_path := p, fat32_cwd_cluster := c } :=
    fun p c hp => ⟨h.mounted, h.wf, h.handles, hp⟩
  unfold change_cwd
  split
  case isTrue => exact ⟨_, rfl, h⟩
  split
  case isTrue habs =>
    refine ⟨_, rfl, hcwd _ _ ?_⟩
    cases path with
    | nil => cases habs
    | cons c cs => simpa [FAT32_MAX_PATH] using habs
  split
  case isTrue => exact ⟨_, rfl, h⟩
  split
  case isTrue =>
    split
    case isTrue => exact ⟨_, rfl, h⟩
    case isFalse =>
      obtain ⟨front, back, hsplit⟩ := split_last_slash_of_head h.cwd_path
      rw [hsplit]
      cases front with
      | nil => exact ⟨_, rfl, hcwd _ _ rfl⟩
      | cons c cs => exact ⟨_, rfl, hcwd _ _ ((split_last_slash_head hsplit (by simp)).trans h.cwd_path)⟩
  case isFalse =>
    refine ⟨_, rfl, hcwd _ _ ?_⟩
    have hhead := h.cwd_path
    cases hpath : st.fat32_cwd_path with
    | nil =>
      rw [hpath] at hhead
      cases hhead
    | cons c cs =>
      rw [hpath] at hhead
      simpa using hhead

theorem chdir_returns {path : CStr} {r : ℕ} {res : Int × Fat32}
    (hr : Returns (fun fuel => fat32_resolve_path fuel st path) r) (hres : change_cwd st path r = some res) :
    Returns (fun fuel => fat32_chdir fuel st path) res := by
  filter_upwards [hr] with fuel h₁
  simp [fat32_chdir, h₁, hres]

theorem rmdir_sound {path : CStr} (h : Sound st) (hsafe : Safe st (.rmdir path)) :
    ∃ res, Returns (fun fuel => fat32_rmdir fuel st path) res ∧ Sound res.2 := by
  rcases hsafe with rfl | ⟨hpath, hentry⟩
  · refine ⟨(-1, st), .of_forall fun fuel => ?_, h⟩
    simp [fat32_rmdir, h.mounted]
  by_cases hroot : path = [slash]
  · refine ⟨(-1, st), .of_forall fun fuel => ?_, h⟩
    simp [fat32_rmdir, h.mounted, hroot]
  obtain ⟨r, hr, _⟩ := h.wf.resolve_path h.mounted hpath
  by_cases hzero : r = 0
  · refine ⟨(-1, st), ?_, h⟩
    filter_upwards [hr] with fuel h₁
    simp [fat32_rmdir, h.mounted, hroot, h₁, hzero]
  obtain ⟨p, name, l, k, j, i, hsafe, hhandles⟩ := hentry r hr hzero
  have hfc := hr.unique hsafe.target
  obtain ⟨d, hret, hremoved⟩ := h.wf.rmdir_spec h.mounted hroot hsafe (by rwa [← hfc])
  refine ⟨_, hret, h.mounted, hremoved.wf, ?_, h.cwd_path⟩
  exact h.handles.mono fun fd hvalid hok => hremoved.handleOk hok (hhandles fd hvalid)

/-- Every safe call ends and keeps the state sound. -/
theorem step_sound {op : Op} (h : Sound st) (hsupply : Supplied st op) (hsafe : Safe st op) :
    ∃ st', Returns (fun fuel => step fuel st op) st' ∧ Sound st' := by
  cases op with
  | «open» path mode =>
    obtain ⟨res, hret, hcase⟩ := h.wf.open_spec hsupply h.mounted hsafe.1 hsafe.2.1
    exact ⟨_, hret.map Prod.snd, open_sound h hsafe hcase⟩
  | read fd len => exact ⟨_, .of_forall fun _ => rfl, read_sound h⟩
  | write fd bytes => exact ⟨_, .of_forall fun _ => rfl, write_sound h hsupply hsafe⟩
  | seek fd pos =>
    obtain ⟨res, hres, hsound⟩ := seek_sound fd pos h
    exact ⟨res.2, .of_forall fun _ => by simp [step, hres], hsound⟩
  | close fd => exact ⟨_, .of_forall fun _ => rfl, close_sound h⟩
  | mkdir path =>
    obtain ⟨res, hret, hcase⟩ := h.wf.mkdir_spec hsupply h.mounted hsafe.1 hsafe.2
    exact ⟨_, hret.map Prod.snd, mkdir_sound h hcase⟩
  | unlink path =>
    obtain ⟨l, hl⟩ := h.wf.dir_cells hsafe.1
    obtain ⟨res, hret, hcase⟩ := h.wf.unlink_spec h.mounted hsafe.1 hl fun k j i hlookup => by
      cases hdir : (slot st.vol st.disk k (16 * j + i)).isDirectory with
      | false => exact (hsafe.2 l k j i hl hlookup hdir).1
      | true =>
        intro hlfn
        rw [fat32_dir_entry_t.isDirectory, hlfn] at hdir
        exact absurd hdir (by decide)
    exact ⟨_, hret.map Prod.snd, unlink_sound h hsafe hl hcase⟩
  | rmdir path =>
    obtain ⟨res, hret, hsound⟩ := rmdir_sound h hsafe
    exact ⟨_, hret.map Prod.snd, hsound⟩
  | chdir path =>
    obtain ⟨r, hr, _⟩ := h.wf.resolve_path h.mounted hsafe
    obtain ⟨res, hres, hsound⟩ := change_cwd_sound h path r
    exact ⟨_, (chdir_returns hr hres).map Prod.snd, hsound⟩

theorem step_keeps_sound (h : Sound st) (op : Op) (hsupply : Supplied st op) (hsafe : Safe st op)
    (hret : Returns (fun fuel => step fuel st op) st') : Sound st' := by
  obtain ⟨st₁, hst₁, hsound⟩ := step_sound h hsupply hsafe
  rwa [hret.unique hst₁]

/-- Every call of a run fits, is supplied and is safe in the state it is made in. -/
def SafeRun : Fat32 → List Op → Prop
  | _, [] => True
  | st, op :: ops => (Fits st op ∧ Supplied st op ∧ Safe st op) ∧
    ∀ st', Returns (fun fuel => step fuel st op) st' → SafeRun st' ops

theorem run_sound (ops : List Op) (h : Sound st) (hsafe : SafeRun st ops) :
    ∃ st', Returns (fun fuel => run fuel st ops) st' ∧ Sound st' := by
  induction ops generalizing st with
  | nil => exact ⟨st, .of_forall fun _ => rfl, h⟩
  | cons op ops ih =>
    obtain ⟨st₁, hret, hsound⟩ := step_sound h hsafe.1.2.1 hsafe.1.2.2
    obtain ⟨st₂, hret₂, hsound₂⟩ := ih hsound (hsafe.2 st₁ hret)
    exact ⟨st₂, hret.bind hret₂, hsound₂⟩

theorem SafeRun.left {ops ops' : List Op} (h : SafeRun st (ops ++ ops')) : SafeRun st ops := by
  induction ops generalizing st with
  | nil => trivial
  | cons op ops ih => exact ⟨h.1, fun st' hret => ih (h.2 st' hret)⟩

theorem step_stable (st : Fat32) (op : Op) : Stable fun fuel => step fuel st op := by
  cases op with
  | «open» path mode => exact (fat32_open_stable st path mode).map _
  | read fd len => exact .const _
  | write fd bytes => exact .const _
  | seek fd pos => exact .const _
  | close fd => exact .const _
  | mkdir path => exact (fat32_mkdir_stable st path).map _
  | unlink path => exact (fat32_unlink_stable st path).map _
  | rmdir path => exact (fat32_rmdir_stable st path).map _
  | chdir path => exact (fat32_chdir_stable st path).map _

theorem run_stable (st : Fat32) (ops : List Op) : Stable fun fuel => run fuel st ops := by
  induction ops generalizing st with
  | nil => exact .const _
  | cons op ops ih => exact (step_stable st op).bind ih

/-- No call changes the parameters of the volume. -/
theorem step_vol {op : Op} (hret : Returns (fun fuel => step fuel st op) st') : st'.vol = st.vol := by
  obtain ⟨fuel, hstep⟩ := hret.exists
  cases op with
  | «open» path mode =>
    obtain ⟨res, hopen, rfl⟩ := Option.map_eq_some_iff.mp hstep
    exact open_vol hopen
  | read fd len =>
    cases hstep
    exact (read_device st fd len).1
  | write fd bytes =>
    cases hstep
    exact write_vol st fd bytes
  | seek fd pos =>
    obtain ⟨res, hseek, rfl⟩ := Option.map_eq_some_iff.mp hstep
    exact (seek_device hseek).1
  | close fd =>
    cases hstep
    exact (close_device st fd).1
  | mkdir path =>
    obtain ⟨res, hmkdir, rfl⟩ := Option.map_eq_some_iff.mp hstep
    exact mkdir_vol hmkdir
  | unlink path =>
    obtain ⟨res, hunlink, rfl⟩ := Option.map_eq_some_iff.mp hstep
    exact unlink_vol hunlink
  | rmdir path =>
    obtain ⟨res, hrmdir, rfl⟩ := Option.map_eq_some_iff.mp hstep
    exact rmdir_vol hrmdir
  | chdir path =>
    obtain ⟨res, hchdir, rfl⟩ := Option.map_eq_some_iff.mp hstep
    obtain ⟨r, -, hcwd⟩ := Option.bind_eq_some_iff.mp hchdir
    exact (change_cwd_device hcwd).1

theorem run_vol {fuel : ℕ} {ops : List Op} (hrun : run fuel st ops = some st') : st'.vol = st.vol := by
  induction ops generalizing st with
  | nil =>
    cases hrun
    rfl
  | cons op ops ih =>
    obtain ⟨st₁, hstep, hrest⟩ := Option.bind_eq_some_iff.mp hrun
    exact (ih hrest).trans (step_vol ((step_stable st op).returns hstep))

/-- Where every word of the table stands for a cluster of the drive, all calls are supplied. -/
theorem supplied_of_table (hv : st.vol.Sane) (htable : ∀ c, 2 ≤ c → st.vol.InTable c → st.vol.InRange c) (op : Op) :
    Supplied st op := by
  have htakes := takesInRange_of_table (d := st.disk) htable
  cases op with
  | «open» path mode => exact fun _ _ => entrySupply_of_takes hv (htakes 2) _
  | write fd bytes => exact fun i _ l _ => htakes _
  | mkdir path => exact fun _ p name leading _ _ => entrySupply_of_takes hv (htakes 2) p
  | read | seek | close | unlink | rmdir | chdir => trivial

theorem supplied_small (hvol : st.vol = small_volume) (op : Op) : Supplied st op := by
  refine supplied_of_table ?_ ?_ op
  · rw [hvol]
    exact small_volume_sane
  · rw [hvol]
    exact small_volume_table

/-- A run that has ended within some fuel ends, with what a test of its last state showed. -/
theorem run_returns_of_test (fuel : ℕ) (st : Fat32) (ops : List Op) (P : Fat32 → Prop) [DecidablePred P]
    (h : (run fuel st ops).map (fun st' => decide (P st')) = some true) :
    ∃ st', Returns (fun fuel => run fuel st ops) st' ∧ P st' := by
  obtain ⟨st', hst', htest⟩ := Option.map_eq_some_iff.mp h
  exact ⟨st', (run_stable st ops).returns hst', of_decide_eq_true htest⟩

/-- What a test of a run's last state shows of the state that the run returns. -/
theorem run_test {ops : List Op} (hret : Returns (fun fuel => run fuel st ops) st') (fuel : ℕ) (P : Fat32 → Prop)
    [DecidablePred P] (h : (run fuel st ops).map (fun st' => decide (P st')) = some true) : P st' := by
  obtain ⟨st₁, hst₁, hP⟩ := run_returns_of_test fuel st ops P h
  rwa [hret.unique hst₁]

/-- Whether a run is safe can be looked up in the states that its prefixes lead to. -/
theorem safeRun_of_prefixes (fuel : ℕ) (ops : List Op) (h : ∀ n (hn : n < ops.length),
    ∃ st', run fuel st (ops.take n) = some st' ∧ Fits st' ops[n] ∧ Supplied st' ops[n] ∧ Safe st' ops[n]) :
    SafeRun st ops := by
  induction ops generalizing st with
  | nil => trivial
  | cons op ops ih =>
    obtain ⟨st₀, hst₀, hsafe⟩ := h 0 (Nat.zero_lt_succ _)
    obtain rfl := Option.some.inj hst₀
    refine ⟨hsafe, fun st₁ hst₁ => ih fun n hn => ?_⟩
    obtain ⟨st', hrun, hsafe'⟩ := h (n + 1) (Nat.succ_lt_succ hn)
    obtain ⟨st₂, hstep, hrest⟩ := Option.bind_eq_some_iff.mp hrun
    obtain rfl := hst₁.unique ((step_stable st op).returns hstep)
    exact ⟨st', hrest, hsafe'⟩

/-- What a successful mount sets besides the volume. -/
theorem mount_state {lba_start : ℕ} {st' : Fat32} (hmount : fat32_mount st lba_start = (0, st')) :
    st'.mounted = true ∧ st'.fat32_cwd_path = [slash] ∧ st'.fat32_cwd_cluster = st'.vol.bpb.root_cluster ∧
      ∀ i, (st'.open_files i).valid = false := by
  unfold fat32_mount at hmount
  simp only at hmount
  split at hmount
  · cases hmount
  · split at hmount
    · cases hmount
    · cases hmount
      exact ⟨rfl, rfl, rfl, fun _ => rfl⟩

/-- A successful mount of a well-formed volume gives a sound state. -/
theorem mount_sound {lba_start : ℕ} {st' : Fat32} (hmount : fat32_mount st lba_start = (0, st'))
    (hwf : WellFormed st'.vol st'.disk) : Sound st' := by
  obtain ⟨hmounted, hpath, -, hclosed⟩ := mount_state hmount
  refine ⟨hmounted, hwf, fun i hvalid => ?_, by simp [hpath]⟩
  rw [hclosed i] at hvalid
  cases hvalid

theorem small_state_sound : Sound small_state where
  mounted := rfl
  wf := (blank_shape small_volume_sane small_root_inRange).1
  handles := fun _ hvalid => by cases hvalid
  cwd_path := rfl

/-- Absolute paths of one component are safe in every state. -/
theorem safePath_of_single {path : CStr} (hparts : (components path).length ≤ 1) (habs : path.head? = some slash) :
    SafePath st path := by
  intro _
  have hstart : start_cluster st path = st.vol.bpb.root_cluster := if_pos habs
  rw [hstart]
  refine ⟨liveDir_root, ?_⟩
  match hcomp : components path, hparts with
  | [], _ => trivial
  | [part], _ => exact fun hrest => absurd rfl hrest

end os_dev.fat32
