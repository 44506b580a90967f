import OsDev.Fat32.DirectoryMap
import OsDev.Fat32.Rewriting

open os_dev.ata os_dev.libc link_chain fuel

namespace os_dev.fat32

variable {st : Fat32} {path : CStr} {l lf : List ℕ} {t k j i : ℕ} {fd : Fin 8} {bytes : List UInt8}

/-- The handle `fd`, open at the start of the file `t` with the size in slot `s` of cluster `k`. -/
def opened_file (st : Fat32) (path : CStr) (t : ℕ) (fd : Fin 8) (k s : ℕ) : fat32_file_t :=
  { fresh_handle (st.open_files fd) path t with
    file_size := (slot st.vol st.disk k s).file_size
    dir_cluster := k
    dir_entry_index := s }

/-- The state in which `fat32_open` leaves the handle. -/
def with_opened (st : Fat32) (path : CStr) (t : ℕ) (fd : Fin 8) (k s : ℕ) : Fat32 :=
  { st with open_files := Function.update st.open_files fd (opened_file st path t fd k s) }

theorem with_opened_self (s : ℕ) : (with_opened st path t fd k s).open_files fd = opened_file st path t fd k s :=
  Function.update_self _ _ _

theorem with_opened_handle (s : ℕ) : handle (with_opened st path t fd k s) (fd.val : Int) = some fd := by
  have hrange : 0 ≤ (fd.val : Int) ∧ (fd.val : Int) < 8 := by omega
  simp [handle, hrange, with_opened, opened_file, fresh_handle]

theorem opened_eq (hfree : free_handle st.open_files = some fd)
    (hlookup : lookup st.vol st.disk false l (base_name path) = some (k, j, i)) :
    opened st path t l = ((fd.val : Int), with_opened st path t fd k (16 * j + i)) := by
  rw [opened, hfree]
  simp only [hlookup, with_opened, opened_file, Nat.mul_comm j 16]

theorem opened_none (hfree : free_handle st.open_files = none) : opened st path t l = (-1, st) := by
  rw [opened, hfree]

/-- The handle stands at the first byte of what reads of 512 bytes deliver. -/
theorem with_opened_readTo (hlf : Cells st.vol st.disk t lf) (s : ℕ) : ReadTo st.vol lf (slot st.vol st.disk k s).file_size 0 ∧
    AtPlace st.vol lf ((with_opened st path t fd k s).open_files fd) 0 := by
  rw [with_opened_self]
  refine ⟨⟨Nat.zero_le _, fun _ => Nat.zero_mod _⟩, rfl, ?_, (Nat.zero_mod _).symm⟩
  rw [cluster_at, Nat.zero_div]
  exact (Chain.getD_zero hlf).symm

/-- The first cluster of the entry that a name resolves to, or 0. -/
def target_cluster (v : Volume) (d : Disk) (l : List ℕ) (name : CStr) : ℕ :=
  match lookup v d true l name with
  | none => 0
  | some (k, j, i) => (slot v d k (16 * j + i)).first_cluster

theorem target_cluster_eq (h : lookup st.vol st.disk true l path = some (k, j, i)) :
    target_cluster st.vol st.disk l path = (slot st.vol st.disk k (16 * j + i)).first_cluster := by
  rw [target_cluster, h]

section Name

variable (hv : st.vol.Sane) (hmounted : st.mounted = true) (hl : Cells st.vol st.disk st.fat32_cwd_cluster l) (hn : ValidName path)

include hv hmounted hl hn

theorem ValidName.resolves : Returns (fun fuel => fat32_resolve_path fuel st path) (target_cluster st.vol st.disk l path) :=
  resolve_component hn.no_slash hv hmounted hn.nonempty hl

/-- A name that resolves to a cluster is opened in either mode. -/
theorem ValidName.open_existing (hne : target_cluster st.vol st.disk l path ≠ 0) (mode : UInt8) :
    Returns (fun fuel => fat32_open fuel st path mode) (opened st path (target_cluster st.vol st.disk l path) l) := by
  have hguess : Cells st.vol st.disk (fat32.guessed_parent st path) l := by rwa [hn.guessed_parent]
  have hopen := open_handle_returns st path hv hguess (target_cluster st.vol st.disk l path)
  filter_upwards [hn.resolves hv hmounted hl, hopen] with fuel h₁ h₂
  simp [fat32_open, h₁, h₂, hne]

theorem ValidName.open_absent (hzero : target_cluster st.vol st.disk l path = 0) :
    Returns (fun fuel => fat32_open fuel st path mode_r) (-1, st) := by
  filter_upwards [hn.resolves hv hmounted hl] with fuel h
  simp [fat32_open, h, hzero, mode_r, mode_w]

end Name

section File

variable (hwf : WellFormed st.vol st.disk) (hlf : Cells st.vol st.disk t lf) (s : ℕ)

include hwf hlf

theorem with_opened_positioned (hlists : ∃ p k₀ s₀, Lists st.vol st.disk p k₀ s₀ false t) :
    Positioned (with_opened st path t fd k s).vol (with_opened st path t fd k s).disk
      ((with_opened st path t fd k s).open_files fd) lf 0 := by
  rw [with_opened_self]
  have hinside : 0 < lf.length * cluster_size st.vol :=
    Nat.mul_pos (List.length_pos_of_mem hlf.head_mem) (cluster_size_pos hwf.sane.cluster_pos)
  refine ⟨hwf, hlists, hlf, ⟨rfl, ?_, (Nat.zero_mod _).symm⟩, hinside⟩
  rw [cluster_at, Nat.zero_div]
  exact (Chain.getD_zero hlf).symm

/-- A text is written through the handle, and the handle is closed. -/
theorem with_opened_write (hlists : ∃ p k₀ s₀, Lists st.vol st.disk p k₀ s₀ false t) (hdir : DirCluster st.vol st.disk k)
    (hs : s < slots_per_cluster st.vol) (hwrap : bytes.length < 2 ^ 32) (hroom : RoomFor st.vol st.disk lf 0 bytes.length) :
    ∃ d' new file, fat32_close (fat32_write (with_opened st path t fd k s) (fd.val : Int) bytes).2 (fd.val : Int) =
        { st with disk := d', open_files := Function.update st.open_files fd file } ∧ file.valid = false ∧
      Rewrites st.vol st.disk d' t lf new k s (max (slot st.vol st.disk k s).file_size bytes.length) bytes := by
  have hself : (with_opened st path t fd k s).open_files fd = opened_file st path t fd k s := with_opened_self s
  obtain ⟨d', new, file, hwrite, hrewrites⟩ := rewrite_file (with_opened_handle s : handle (with_opened st path t fd k s) _ = _)
    (with_opened_positioned hwf hlf s hlists) hdir hs (by rw [hself]; rfl) (by rw [hself]; rfl) (by rw [hself]; rfl) hwrap hroom
  rw [hself] at hrewrites
  refine ⟨d', new, { file with valid := false }, ?_, rfl, hrewrites⟩
  rw [hwrite, fat32_close_fd]
  simp only [with_opened, Function.update_idem, Function.update_self]

end File

end os_dev.fat32
