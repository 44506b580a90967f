import OsDev.Fat32.FileIo

open os_dev.ata os_dev.libc

namespace os_dev.fat32

variable {st : Fat32} {fuel : ℕ} {path : CStr} {res : Int × Fat32}

theorem open_handle_device {t : ℕ} (h : open_handle fuel st path t = some res) :
    res.2.vol = st.vol ∧ res.2.disk = st.disk := by
  unfold open_handle at h
  split at h
  · cases h
    exact ⟨rfl, rfl⟩
  · obtain ⟨found, -, hres⟩ := Option.bind_eq_some_iff.mp h
    cases found with
    | none =>
      cases hres
      exact ⟨rfl, rfl⟩
    | some f =>
      cases hres
      exact ⟨rfl, rfl⟩

/-- What a call of `fat32_open` has done when it ends: it has found nothing to open, taken a
    handle for what it found, or made an entry and, where that went well, taken a handle for it. -/
theorem open_cases {mode : UInt8} (h : fat32_open fuel st path mode = some res) :
    (fat32_resolve_path fuel st path = some 0 ∧ (mode ≠ mode_w ∨ find_free_cluster st.vol st.disk = 0) ∧
        res = (-1, st)) ∨
      (∃ t, t ≠ 0 ∧ fat32_resolve_path fuel st path = some t ∧ open_handle fuel st path t = some res) ∨
      (mode = mode_w ∧ fat32_resolve_path fuel st path = some 0 ∧ find_free_cluster st.vol st.disk ≠ 0) ∧ ∃ rc d,
        create_entry fuel st.vol (zero_sectors st.vol (cluster_to_lba st.vol (find_free_cluster st.vol st.disk))
            st.vol.bpb.sectors_per_cluster 0 (set_next_cluster st.vol st.disk (find_free_cluster st.vol st.disk) FAT32_EOC))
          (guessed_parent st path) (base_name path) FAT_ATTR_ARCHIVE (find_free_cluster st.vol st.disk) 0 = some (rc, d) ∧
        ((rc ≠ 0 ∧ res = (-1, { st with disk := d })) ∨
          rc = 0 ∧ open_handle fuel { st with disk := d } path (find_free_cluster st.vol st.disk) = some res) := by
  obtain ⟨t, hresolve, h⟩ := Option.bind_eq_some_iff.mp h
  split at h
  case isTrue hcreates =>
    obtain ⟨rfl, hmode⟩ := hcreates
    obtain ⟨⟨rc, t, d⟩, hcreate, hopen⟩ := Option.bind_eq_some_iff.mp h
    dsimp only at hopen
    simp only [create_file] at hcreate
    split at hcreate
    case isTrue hfull =>
      cases hcreate
      cases hopen
      exact .inl ⟨hresolve, .inr hfull, rfl⟩
    case isFalse hfree =>
      obtain ⟨⟨rc', d'⟩, hentry, heq⟩ := Option.bind_eq_some_iff.mp hcreate
      cases heq
      refine .inr (.inr ⟨⟨hmode, hresolve, hfree⟩, rc', d', hentry, ?_⟩)
      split at hopen
      case isTrue hrc =>
        cases hopen
        exact .inl ⟨hrc, rfl⟩
      case isFalse hrc => exact .inr ⟨not_not.mp hrc, hopen⟩
  case isFalse hnot =>
    split at h
    case isTrue hzero =>
      cases h
      subst hzero
      exact .inl ⟨hresolve, .inl fun hmode => hnot ⟨rfl, hmode⟩, rfl⟩
    case isFalse hne => exact .inr (.inl ⟨t, hne, hresolve, h⟩)

theorem open_vol {mode : UInt8} (h : fat32_open fuel st path mode = some res) : res.2.vol = st.vol := by
  obtain ⟨-, -, rfl⟩ | ⟨t, -, -, hopen⟩ | ⟨-, rc, d, -, ⟨-, rfl⟩ | ⟨-, hopen⟩⟩ := open_cases h
  · rfl
  · exact (open_handle_device hopen).1
  · rfl
  · exact (open_handle_device hopen).1

/-- The device after a call of `fat32_open`: the old one, or what `create_entry` has left. -/
theorem open_disk {mode : UInt8} (h : fat32_open fuel st path mode = some res) :
    res.2.disk = st.disk ∨ (mode = mode_w ∧ fat32_resolve_path fuel st path = some 0 ∧
        find_free_cluster st.vol st.disk ≠ 0) ∧
      ∃ rc, create_entry fuel st.vol (zero_sectors st.vol (cluster_to_lba st.vol (find_free_cluster st.vol st.disk))
          st.vol.bpb.sectors_per_cluster 0 (set_next_cluster st.vol st.disk (find_free_cluster st.vol st.disk) FAT32_EOC))
        (guessed_parent st path) (base_name path) FAT_ATTR_ARCHIVE (find_free_cluster st.vol st.disk) 0 =
          some (rc, res.2.disk) := by
  obtain ⟨-, -, rfl⟩ | ⟨t, -, -, hopen⟩ | ⟨hmade, rc, d, hcreate, ⟨-, rfl⟩ | ⟨-, hopen⟩⟩ := open_cases h
  · exact .inl rfl
  · exact .inl (open_handle_device hopen).2
  · exact .inr ⟨hmade, rc, hcreate⟩
  · refine .inr ⟨hmade, rc, ?_⟩
    rw [(open_handle_device hopen).2]
    exact hcreate

/-- What a call of `fat32_mkdir` has done when it ends: it has refused, or set up a directory
    and made an entry for it. -/
theorem mkdir_cases (h : fat32_mkdir fuel st path = some res) :
    res = (-1, st) ∨ (fat32_resolve_path fuel st path = some 0 ∧ find_free_cluster st.vol st.disk ≠ 0) ∧
      ∃ p name leading parent rc d, parent_and_name fuel st path = some (p, name, leading) ∧
        ¬ (p = 0 ∧ leading = false) ∧
        create_entry fuel st.vol (init_directory st.vol
            (set_next_cluster st.vol st.disk (find_free_cluster st.vol st.disk) FAT32_EOC) (find_free_cluster st.vol st.disk)
              parent)
          (if p = 0 then st.vol.bpb.root_cluster else p) name FAT_ATTR_DIRECTORY (find_free_cluster st.vol st.disk) 0 =
            some (rc, d) ∧
        res = (if rc ≠ 0 then -1 else 0, { st with disk := d }) := by
  unfold fat32_mkdir at h
  split at h
  · cases h
    exact .inl rfl
  obtain ⟨⟨p, name, leading⟩, hparent, h⟩ := Option.bind_eq_some_iff.mp h
  dsimp only at h
  split at h
  · cases h
    exact .inl rfl
  rename_i hfollowed
  obtain ⟨r, hresolve, h⟩ := Option.bind_eq_some_iff.mp h
  split at h
  · cases h
    exact .inl rfl
  rename_i hmissing
  rw [not_not.mp hmissing] at hresolve
  split at h
  · cases h
    exact .inl rfl
  rename_i hne
  obtain ⟨⟨rc, d⟩, hentry, heq⟩ := Option.bind_eq_some_iff.mp h
  cases heq
  exact .inr ⟨⟨hresolve, hne⟩, p, name, leading, _, rc, d, hparent, hfollowed, hentry, rfl⟩

theorem mkdir_vol (h : fat32_mkdir fuel st path = some res) : res.2.vol = st.vol := by
  obtain rfl | ⟨-, p, name, leading, parent, rc, d, -, -, -, rfl⟩ := mkdir_cases h
  · rfl
  · rfl

theorem unlink_vol (h : fat32_unlink fuel st path = some res) : res.2.vol = st.vol := by
  unfold fat32_unlink at h
  split at h
  case isTrue =>
    cases h
    rfl
  case isFalse =>
    obtain ⟨found, -, h⟩ := Option.bind_eq_some_iff.mp h
    cases found with
    | none =>
      cases h
      rfl
    | some f =>
      dsimp only at h
      split at h
      · cases h
        rfl
      · obtain ⟨d, -, h⟩ := Option.bind_eq_some_iff.mp h
        cases h
        rfl

/-- The device after a call of `fat32_unlink`: the old one, or what is left of the chain's table words behind the mark. -/
theorem unlink_disk (h : fat32_unlink fuel st path = some res) :
    res.2.disk = st.disk ∨ ∃ f, find_name st.vol st.disk false fuel (guessed_parent st path) path = some (some f) ∧
      free_chain st.vol fuel (delete_found st.vol st.disk f) f.entry.first_cluster = some res.2.disk := by
  unfold fat32_unlink at h
  split at h
  · cases h
    exact .inl rfl
  · obtain ⟨found, hfind, h⟩ := Option.bind_eq_some_iff.mp h
    cases found with
    | none =>
      cases h
      exact .inl rfl
    | some f =>
      dsimp only at h
      split at h
      · cases h
        exact .inl rfl
      · obtain ⟨d, hchain, heq⟩ := Option.bind_eq_some_iff.mp h
        cases heq
        exact .inr ⟨f, hfind, hchain⟩

theorem rmdir_vol (h : fat32_rmdir fuel st path = some res) : res.2.vol = st.vol := by
  unfold fat32_rmdir at h
  split at h
  · cases h
    rfl
  · split at h
    · cases h
      rfl
    · obtain ⟨cluster, -, h⟩ := Option.bind_eq_some_iff.mp h
      split at h
      · cases h
        rfl
      · obtain ⟨⟨p, name, leading⟩, -, h⟩ := Option.bind_eq_some_iff.mp h
        obtain ⟨d, -, h⟩ := Option.bind_eq_some_iff.mp h
        obtain ⟨found, -, h⟩ := Option.bind_eq_some_iff.mp h
        cases found with
        | none =>
          cases h
          rfl
        | some f =>
          cases h
          rfl

theorem write_vol (st : Fat32) (fd : Int) (bytes : List UInt8) : (fat32_write st fd bytes).2.vol = st.vol := by
  unfold fat32_write
  cases handle st fd with
  | none => rfl
  | some i =>
    dsimp only
    split <;> rfl

theorem read_device (st : Fat32) (fd : Int) (len : ℕ) :
    (fat32_read st fd len).2.2.vol = st.vol ∧ (fat32_read st fd len).2.2.disk = st.disk := by
  unfold fat32_read
  split
  · exact ⟨rfl, rfl⟩
  · dsimp only
    split
    · exact ⟨rfl, rfl⟩
    · exact ⟨rfl, rfl⟩

theorem seek_device {fd : Int} {pos : ℕ} (h : fat32_seek st fd pos = some res) :
    res.2.vol = st.vol ∧ res.2.disk = st.disk := by
  unfold fat32_seek at h
  split at h
  · cases h
    exact ⟨rfl, rfl⟩
  · dsimp only at h
    split at h
    · cases h
    · cases h
      exact ⟨rfl, rfl⟩

theorem close_device (st : Fat32) (fd : Int) : (fat32_close st fd).vol = st.vol ∧ (fat32_close st fd).disk = st.disk := by
  unfold fat32_close
  split
  · exact ⟨rfl, rfl⟩
  · exact ⟨rfl, rfl⟩

theorem change_cwd_device {r : ℕ} (h : change_cwd st path r = some res) :
    res.2.vol = st.vol ∧ res.2.disk = st.disk := by
  unfold change_cwd at h
  repeat' split at h
  all_goals cases h
  all_goals exact ⟨rfl, rfl⟩

end os_dev.fat32
