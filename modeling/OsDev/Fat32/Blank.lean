import OsDev.Fat32.Shape
import OsDev.Fat32.Ops
import Mathlib.Data.Finset.Lattice.Fold

open os_dev.ata os_dev.libc little_endian forest link_chain

namespace os_dev.fat32

variable {v : Volume} {d : Disk}

theorem cells_last {c : ℕ} (hc : v.InRange c) (hend : get_next_cluster v d c = FAT32_EOC) : Cells v d c [c] :=
  .last hc hend

theorem cells_step {c c' : ℕ} {l : List ℕ} (hc : v.InRange c) (hnext : get_next_cluster v d c = c') (hl : Cells v d c' l) :
    Cells v d c (c :: l) :=
  .step hc hnext hl

/-- A volume whose root directory has one cluster and names regular files only, with
    clusters of their own, is well formed, with the root as its only directory. -/
theorem wellFormed_of_flat_root (hv : v.Sane) (hroot : v.InRange v.bpb.root_cluster)
    (hend : get_next_cluster v d v.bpb.root_cluster = FAT32_EOC) (chain : ℕ → List ℕ)
    (hfiles : ∀ i < slots_per_cluster v, ∀ isDir c, named_object (slot v d v.bpb.root_cluster i) = some (isDir, c) →
      isDir = false ∧ Cells v d c (chain i) ∧ v.bpb.root_cluster ∉ chain i)
    (hdisjoint : ∀ i j, i ≠ j → ∀ x ∈ chain i, x ∉ chain j) :
    WellFormed v d ∧ ∀ c, LiveDir v d c ↔ c = v.bpb.root_cluster := by
  have hcells : Cells v d v.bpb.root_cluster [v.bpb.root_cluster] := .last hroot hend
  have hlists : ∀ {c k i isDir c'}, (view v d).Lists (· = v.bpb.root_cluster) c k i isDir c' →
      k = v.bpb.root_cluster ∧ isDir = false ∧ Cells v d c' (chain i) ∧ v.bpb.root_cluster ∉ chain i := by
    rintro c k i isDir c' ⟨rfl, ⟨l, hl, hk⟩, hent⟩
    rw [Cells.unique hl hcells, List.mem_singleton] at hk
    subst hk
    obtain ⟨hi, hobj⟩ := view_ent_some hent
    exact ⟨rfl, hfiles i hi isDir c' hobj⟩
  have howns : ∀ {o c l}, (view v d).Owns (· = v.bpb.root_cluster) o c → Cells v d c l →
      (o = none ∧ l = [v.bpb.root_cluster]) ∨
        ∃ i, o = some (v.bpb.root_cluster, i) ∧ l = chain i ∧ v.bpb.root_cluster ∉ chain i := by
    intro o c l ho hl
    cases o with
    | none =>
      obtain rfl : c = v.bpb.root_cluster := ho
      exact .inl ⟨rfl, hl.unique hcells⟩
    | some s =>
      obtain ⟨p, isDir, hlist⟩ := ho
      obtain ⟨hk, -, hchain, hout⟩ := hlists hlist
      exact .inr ⟨s.2, by rw [← hk], hl.unique hchain, hout⟩
  have hforest : (view v d).Forest (· = v.bpb.root_cluster) fun _ => 0 := by
    refine ⟨not_inRange_eoc, ⟨?_, ?_⟩, rfl, fun hl => ?_, fun hc => .inl hc, ⟨0, by simp⟩⟩
    · intro o c ho
      cases o with
      | none => exact ⟨_, (show c = v.bpb.root_cluster from ho) ▸ hcells⟩
      | some s =>
        obtain ⟨p, isDir, hlist⟩ := ho
        exact ⟨_, (hlists hlist).2.2.1⟩
    · intro o c l o' c' l' ho hl ho' hl' hne x hx hx'
      obtain ⟨rfl, rfl⟩ | ⟨i, rfl, rfl, hout⟩ := howns ho hl
      · obtain ⟨rfl, -⟩ | ⟨j, rfl, rfl, hout'⟩ := howns ho' hl'
        · exact hne rfl
        · rw [List.mem_singleton.mp hx] at hx'
          exact hout' hx'
      · obtain ⟨rfl, rfl⟩ | ⟨j, rfl, rfl, -⟩ := howns ho' hl'
        · rw [List.mem_singleton.mp hx'] at hx
          exact hout hx
        · refine hdisjoint i j (fun heq => hne ?_) x hx hx'
          rw [heq]
    · cases (hlists hl).2.1
  exact wellFormed_of_forest hv hforest

/-- A root directory that names nothing. -/
theorem wellFormed_of_bare_root (hv : v.Sane) (hroot : v.InRange v.bpb.root_cluster)
    (hend : get_next_cluster v d v.bpb.root_cluster = FAT32_EOC)
    (hslots : ∀ i < slots_per_cluster v, named_object (slot v d v.bpb.root_cluster i) = none) :
    WellFormed v d ∧ ∀ c, LiveDir v d c ↔ c = v.bpb.root_cluster := by
  refine wellFormed_of_flat_root hv hroot hend (fun _ => []) (fun i hi isDir c hobj => ?_) fun _ _ _ x hx => ?_
  · rw [hslots i hi] at hobj
    cases hobj
  · cases hx

/-- The same for a root directory whose first slot names its only file. -/
theorem wellFormed_of_one_file (hv : v.Sane) (hroot : v.InRange v.bpb.root_cluster)
    (hend : get_next_cluster v d v.bpb.root_cluster = FAT32_EOC) {c : ℕ} {l : List ℕ} (hl : Cells v d c l)
    (hslots : ∀ i < slots_per_cluster v, named_object (slot v d v.bpb.root_cluster i) =
      if i = 0 then some (false, c) else none) (hout : v.bpb.root_cluster ∉ l) :
    WellFormed v d ∧ ∀ c, LiveDir v d c ↔ c = v.bpb.root_cluster := by
  refine wellFormed_of_flat_root hv hroot hend (fun i => if i = 0 then l else []) (fun i hi isDir c' hobj => ?_)
    fun i j hne x hx => ?_
  · rw [hslots i hi] at hobj
    split at hobj
    case isTrue hzero =>
      cases hobj
      rw [if_pos hzero]
      exact ⟨rfl, hl, hout⟩
    case isFalse => cases hobj
  · split at hx
    case isTrue hzero =>
      rw [if_neg (by omega)]
      exact List.not_mem_nil
    case isFalse => cases hx

/-- A volume whose directories have one cluster each and name objects of one cluster, each in
    one slot only, is well formed, with these as its directories. -/
theorem wellFormed_of_tree (hv : v.Sane) {dirs : List ℕ} (depth : ℕ → ℕ) (home : ℕ → ℕ × ℕ)
    (hroot : v.bpb.root_cluster ∈ dirs) (hdirs : ∀ c ∈ dirs, Cells v d c [c])
    (hents : ∀ k ∈ dirs, ∀ i < slots_per_cluster v, ∀ isDir c, named_object (slot v d k i) = some (isDir, c) →
      Cells v d c [c] ∧ c ≠ v.bpb.root_cluster ∧ home c = (k, i) ∧
        (isDir = true → c ∈ dirs ∧ depth c = depth k + 1))
    (howned : ∀ c ∈ dirs, c = v.bpb.root_cluster ∨ ∃ k ∈ dirs, ∃ i < slots_per_cluster v,
      named_object (slot v d k i) = some (true, c)) :
    WellFormed v d ∧ ∀ c, LiveDir v d c ↔ c ∈ dirs := by
  have hlists : ∀ {p k i isDir c}, (view v d).Lists (· ∈ dirs) p k i isDir c →
      Cells v d c [c] ∧ c ≠ v.bpb.root_cluster ∧ home c = (k, i) ∧
        (isDir = true → c ∈ dirs ∧ depth c = depth p + 1) := by
    rintro p k i isDir c ⟨hp, ⟨l, hl, hk⟩, hent⟩
    obtain rfl := Cells.unique hl (hdirs p hp)
    obtain rfl := List.mem_singleton.mp hk
    obtain ⟨hi, hobj⟩ := view_ent_some hent
    exact hents k hp i hi isDir c hobj
  have howns : ∀ {o c}, (view v d).Owns (· ∈ dirs) o c → Cells v d c [c] := by
    intro o c ho
    cases o with
    | none => exact (show c = v.bpb.root_cluster from ho) ▸ hdirs _ hroot
    | some s =>
      obtain ⟨p, isDir, hlist⟩ := ho
      exact (hlists hlist).1
  -- an object is told by its first cluster
  have hone : ∀ {o o' c}, (view v d).Owns (· ∈ dirs) o c → (view v d).Owns (· ∈ dirs) o' c → o = o' := by
    intro o o' c ho ho'
    cases o with
    | none =>
      cases o' with
      | none => rfl
      | some s' =>
        obtain ⟨p', isDir', hlist'⟩ := ho'
        exact absurd ho (hlists hlist').2.1
    | some s =>
      obtain ⟨p, isDir, hlist⟩ := ho
      obtain ⟨-, hne, hhome, -⟩ := hlists hlist
      cases o' with
      | none => exact absurd ho' hne
      | some s' =>
        obtain ⟨p', isDir', hlist'⟩ := ho'
        exact congrArg some (hhome.symm.trans (hlists hlist').2.2.1)
  have hforest : (view v d).Forest (· ∈ dirs) depth := by
    refine ⟨not_inRange_eoc, ⟨fun ho => ⟨_, howns ho⟩, ?_⟩, hroot, fun hl => (hlists hl).2.2.2 rfl, fun hc => ?_,
      ⟨dirs.toFinset.sup depth, fun c hc => Finset.le_sup (List.mem_toFinset.mpr hc)⟩⟩
    · intro o c l o' c' l' ho hl ho' hl' hne x hx hx'
      obtain rfl := Cells.unique hl (howns ho)
      obtain rfl := Cells.unique hl' (howns ho')
      obtain rfl := List.mem_singleton.mp hx
      obtain rfl := List.mem_singleton.mp hx'
      exact hne (hone ho ho')
    · refine (howned _ hc).imp_right ?_
      rintro ⟨k, hk, i, hi, hobj⟩
      exact ⟨k, k, i, hk, ⟨[k], hdirs k hk, List.mem_cons_self⟩, (view_ent_of_lt hi).trans hobj⟩
  exact wellFormed_of_forest hv hforest

/-- A freshly formatted device: an empty root directory of one cluster. -/
def blank_disk (v : Volume) : Disk := set_next_cluster v (fun _ => zero_buf) v.bpb.root_cluster FAT32_EOC

theorem blank_root_cells (hv : v.Sane) (hroot : v.InRange v.bpb.root_cluster) :
    Cells v (blank_disk v) v.bpb.root_cluster [v.bpb.root_cluster] := by
  refine .last hroot ?_
  unfold blank_disk
  exact (hv.link_set_next_self hroot.inTable (by decide) _).trans link_of_word_eoc

theorem blank_slots (hv : v.Sane) (hroot : v.InRange v.bpb.root_cluster) (k i : ℕ) :
    (slot v (blank_disk v) k i).name0 = 0 := by
  unfold slot blank_disk
  rw [hv.set_next_cluster_data hroot.inTable _ _ (data_lba_le_data_sector _ _)]
  exact dir_entry_zero_name0 _

theorem blank_shape (hv : v.Sane) (hroot : v.InRange v.bpb.root_cluster) :
    WellFormed v (blank_disk v) ∧ ∀ c, LiveDir v (blank_disk v) c ↔ c = v.bpb.root_cluster := by
  refine wellFormed_of_bare_root hv hroot ?_ fun i _ => named_object_of_free (.inl (blank_slots hv hroot _ i))
  unfold blank_disk
  exact (hv.link_set_next_self hroot.inTable (by decide) _).trans link_of_word_eoc

/-- On a drive that holds every cluster of the table, the allocator stays on the drive. -/
theorem takesInRange_of_table (htable : ∀ c, 2 ≤ c → v.InTable c → v.InRange c) (n : ℕ) : TakesInRange v d n :=
  .inr fun c htwo hin _ => htable c htwo hin

/-- The boot sector of a small volume. -/
def boot_sector : Sector := Sector.ofFn fun i =>
  if i = 0x0C then 2 else if i ∈ [0x0D, 0x0E, 0x10, 0x24] then 1 else if i = 0x2C then 2 else 0

/-- A small volume: one sector of table in front of a data area of one-sector clusters. -/
def small_volume : Volume where
  drive := ⟨true, 512 * 136⟩
  bpb := ⟨512, 1, 1, 1, 1, 2, (List.range 90).map boot_sector.byte⟩
  fat_lba := 1
  data_lba := 2
  uninit := zero_buf

theorem small_volume_sane : small_volume.Sane where
  present := rfl
  addressable := by decide
  cluster_pos := by decide
  cluster_byte := by decide
  table_small := by decide
  table_before_data := by decide
  table_on_drive := by decide

theorem small_volume_table (c : ℕ) (htwo : 2 ≤ c) (hin : small_volume.InTable c) : small_volume.InRange c := by
  have hlt : c < 128 := hin
  refine ⟨htwo, ?_, hin, ?_⟩
  · unfold FAT32_BAD
    omega
  · change 2 + (c - 1) * 1 ≤ 136
    omega

/-- The state after mounting the freshly formatted small volume. -/
def small_state : Fat32 where
  vol := small_volume
  disk := blank_disk small_volume
  partition_lba := 0
  mounted := true
  open_files := fun _ => ⟨false, 0, 0, 0, 0, 0, 0, 0, []⟩
  fat32_cwd_cluster := 2
  fat32_cwd_path := [slash]

theorem small_root_inRange : small_volume.InRange small_volume.bpb.root_cluster := by decide

/-- A drive of eight sectors with a boot sector, one sector of allocation table and six
    clusters of one sector. -/
def tight_volume : Volume where
  drive := ⟨true, 4096⟩
  bpb := ⟨512, 1, 1, 1, 1, 2, (List.range 90).map fun i => if i = 0x20 then 8 else 0⟩
  fat_lba := 1
  data_lba := 2
  uninit := zero_buf

/-- The small volume with its boot sector, mounted. -/
def booted_state : Fat32 := { small_state with disk := Function.update small_state.disk 0 boot_sector }

theorem mount_boot :
    fat32_mount { booted_state with mounted := false } 0 = (0, booted_state) := by
  have hread : ata_read_sectors small_volume.drive booted_state.disk 0 small_volume.uninit = (0, boot_sector) := by
    rw [read_of_holds (by decide)]
    rfl
  have hbpb : bpb_of_sector boot_sector = small_volume.bpb := by decide +kernel
  have hvol : booted_state.vol = small_volume := rfl
  simp only [fat32_mount, hvol, hread, hbpb]
  rfl

theorem booted_slots (k i : ℕ) : (slot small_volume booted_state.disk k i).name0 = 0 := by
  have hdata : 0 < data_sector small_volume k (i / 16) := by
    have := data_lba_le_data_sector (v := small_volume) k (i / 16)
    exact lt_of_lt_of_le (by decide) this
  unfold slot
  rw [show booted_state.disk = Function.update small_state.disk 0 boot_sector from rfl,
    Function.update_of_ne hdata.ne']
  exact blank_slots small_volume_sane small_root_inRange k i

theorem booted_shape :
    WellFormed small_volume booted_state.disk ∧ ∀ c, LiveDir small_volume booted_state.disk c ↔ c = 2 :=
  wellFormed_of_bare_root small_volume_sane small_root_inRange (by decide +kernel)
    fun i _ => named_object_of_free (.inl (booted_slots _ i))

end os_dev.fat32
