import OsDev.Fat32.OpSpecs
import OsDev.Fat32.Content

open os_dev.ata os_dev.libc little_endian forest link_chain fuel

namespace os_dev.fat32

variable {v : Volume} {d d' d'' : Disk} {st : Fat32}

/-- The same tree of entries, with perhaps more clusters behind some of them. -/
structure SameTree (v : Volume) (d d' : Disk) : Prop where
  wf : WellFormed v d'
  dirs : ∀ c, LiveDir v d' c ↔ LiveDir v d c
  lists : ∀ p k i isDir c, Lists v d' p k i isDir c ↔ Lists v d p k i isDir c
  cells : ∀ o c l, Owns v d o c → Cells v d c l → ∃ l', Cells v d' c (l ++ l')

theorem SameTree.refl (h : WellFormed v d) : SameTree v d d :=
  ⟨h, fun _ => Iff.rfl, fun _ _ _ _ _ => Iff.rfl, fun _ _ l _ hl => ⟨[], by rwa [List.append_nil]⟩⟩

theorem SameTree.trans (h₁ : SameTree v d d') (h₂ : SameTree v d' d'') : SameTree v d d'' := by
  refine ⟨h₂.wf, fun c => (h₂.dirs c).trans (h₁.dirs c),
    fun p k i b c => (h₂.lists p k i b c).trans (h₁.lists p k i b c), ?_⟩
  intro o c l ho hl
  obtain ⟨l₁, hl₁⟩ := h₁.cells o c l ho hl
  obtain ⟨l₂, hl₂⟩ := h₂.cells o c _ ((owns_congr h₁.lists o c).mpr ho) hl₁
  exact ⟨l₁ ++ l₂, by rwa [← List.append_assoc]⟩

theorem Keeps.sameTree (h : WellFormed v d) (hkeep : Keeps v d d') : SameTree v d d' := by
  obtain ⟨hwf, hdirs⟩ := hkeep.shape h
  refine ⟨hwf, hdirs, hkeep.lists_iff h, fun o c l ho hl => ⟨[], ?_⟩⟩
  rw [List.append_nil]
  exact hkeep.cells h ho hl

theorem append_sameTree (h : WellFormed v d) {x y : ℕ} (hx : InUse v d x)
    (hlast : get_next_cluster v d x = FAT32_EOC) (hy : v.InRange y) (hfree : IsFree v d y) :
    SameTree v d (append_cluster v d x y) := by
  obtain ⟨hwf, hdirs⟩ := append_shape h hx hlast hy hfree
  refine ⟨hwf, hdirs, append_lists_iff h hx hlast hy hfree, ?_⟩
  intro o c l ho hl
  have hcells := append_cells h hx hlast hy hfree ho hl
  split at hcells
  · exact ⟨_, hcells⟩
  · exact ⟨[], by rwa [List.append_nil]⟩

/-- Writing a data sector of a regular file. -/
theorem WellFormed.write_data (h : WellFormed v d) {p k i c x j : ℕ} {l : List ℕ} {buf : Sector}
    (hlists : Lists v d p k i false c) (hl : Cells v d c l) (hx : x ∈ l) (hj : j < v.bpb.sectors_per_cluster) :
    SameTree v d (Function.update d (data_sector v x j) buf) := by
  have hword : ∀ z, v.InTable z → fat_word v (Function.update d (data_sector v x j) buf) z = fat_word v d z :=
    fun z hz => fat_word_update_data h.sane hz
  refine Keeps.sameTree h ⟨fun z hz => hword z hz.inRange.inTable, fun k' hk' i' hi' => ?_⟩
  rw [slot_update_of_ne (hl.inRange hx).1 (h.inUse_of_dirCluster hk').inRange.1 hi' hj]
  -- no cluster of a file belongs to a directory
  left
  rintro rfl
  obtain ⟨depth, hforest⟩ := h.exists_forest
  obtain ⟨c', l', hc', hl', hk'⟩ := hk'
  have hdir := (hforest.dir_of_cell hc' hl' hk' hlists.owns hl hx).2
  rw [hlists.2.2] at hdir
  cases hdir

theorem write_back_size_eq (hv : v.Sane) (d : Disk) {file : fat32_file_t} (hin : v.InRange file.dir_cluster)
    (hi : file.dir_entry_index < slots_per_cluster v) :
    write_back_size v d file = Function.update d (data_sector v file.dir_cluster (file.dir_entry_index / 16))
      (put_size (d (data_sector v file.dir_cluster (file.dir_entry_index / 16))) (file.dir_entry_index % 16)
        file.file_size) := by
  simp only [write_back_size, hv.read_sector hin (sector_of_slot hi), hv.write_sector hin (sector_of_slot hi)]

/-- Writing a size into a directory entry. -/
theorem WellFormed.write_size (h : WellFormed v d) (file : fat32_file_t) (hin : v.InRange file.dir_cluster)
    (hi : file.dir_entry_index < slots_per_cluster v) :
    SameTree v d (write_back_size v d file) := by
  have hj := sector_of_slot hi
  rw [write_back_size_eq h.sane d hin hi]
  generalize hbuf : put_size (d (data_sector v file.dir_cluster (file.dir_entry_index / 16)))
    (file.dir_entry_index % 16) file.file_size = buf
  have hword : ∀ z, v.InTable z → fat_word v (Function.update d
      (data_sector v file.dir_cluster (file.dir_entry_index / 16)) buf) z = fat_word v d z :=
    fun z hz => fat_word_update_data h.sane hz
  refine Keeps.sameTree h ⟨fun z hz => hword z hz.inRange.inTable, fun k' hk' i' hi' => ?_⟩
  have hk2 := (h.inUse_of_dirCluster hk').inRange.1
  by_cases hsector : k' = file.dir_cluster ∧ i' / 16 = file.dir_entry_index / 16
  · obtain ⟨rfl, hsec⟩ := hsector
    rw [← hsec, slot_update_same, ← hbuf, ← hsec]
    by_cases hentry : i' % 16 = file.dir_entry_index % 16
    · rw [← hentry, dir_entry_put_size_fields (by omega), named_object_with_size, slot]
    · rw [dir_entry_put_size_other (by omega) hentry, slot]
  · rw [slot_update_of_ne hin.1 hk2 hi' hj (not_and_or.mp hsector)]

/-- The fields of a handle that transfers leave alone. -/
structure SameHandle (file file' : fat32_file_t) : Prop where
  valid : file'.valid = file.valid
  first_cluster : file'.first_cluster = file.first_cluster
  dir_cluster : file'.dir_cluster = file.dir_cluster
  dir_entry_index : file'.dir_entry_index = file.dir_entry_index

theorem SameHandle.trans {file file' file'' : fat32_file_t} (h₁ : SameHandle file file')
    (h₂ : SameHandle file' file'') : SameHandle file file'' :=
  ⟨h₂.valid.trans h₁.valid, h₂.first_cluster.trans h₁.first_cluster, h₂.dir_cluster.trans h₁.dir_cluster,
    h₂.dir_entry_index.trans h₁.dir_entry_index⟩

theorem cluster_size_lt (hv : v.Sane) : cluster_size v < 2 ^ 17 := by
  have := hv.cluster_byte
  unfold cluster_size
  omega

theorem can_write_le (file : fat32_file_t) (bytes : List UInt8) :
    file.cluster_offset % 512 + can_write file bytes ≤ 512 ∧ can_write file bytes ≤ bytes.length ∧
      (bytes ≠ [] → 0 < can_write file bytes) := by
  have hlt : file.cluster_offset % 512 < 512 := Nat.mod_lt _ (by decide)
  unfold can_write
  refine ⟨by omega, min_le_right _ _, fun hbytes => ?_⟩
  have hpos := List.length_pos_of_ne_nil hbytes
  omega

theorem length_take_can_write (file : fat32_file_t) (bytes : List UInt8) :
    (bytes.take (can_write file bytes)).length = can_write file bytes := by
  rw [List.length_take]
  exact min_eq_left (can_write_le file bytes).2.1

/-- The sectors in front of the allocation table, the boot sector among them, hold what they held. -/
def KeepsFront (v : Volume) (d d' : Disk) : Prop := ∀ lba < v.fat_lba, d' lba = d lba

theorem KeepsFront.refl : KeepsFront v d d := fun _ _ => rfl

theorem KeepsFront.trans (h₁ : KeepsFront v d d₁) (h₂ : KeepsFront v d₁ d') : KeepsFront v d d' :=
  fun lba hlba => (h₂ lba hlba).trans (h₁ lba hlba)

theorem Volume.Sane.keepsFront_update (hv : v.Sane) (x j : ℕ) (buf : Sector) :
    KeepsFront v d (Function.update d (data_sector v x j) buf) := by
  intro lba hlba
  have hdata := data_lba_le_data_sector (v := v) x j
  have htable := hv.table_before_data
  exact Function.update_of_ne (by omega) _ _

theorem Volume.Sane.keepsFront_set_next (hv : v.Sane) {x : ℕ} (hx : v.InTable x) (next : ℕ) :
    KeepsFront v d (set_next_cluster v d x next) := by
  intro lba hlba
  rw [hv.set_next_cluster_eq hx]
  exact Function.update_of_ne (by omega) _ _

theorem Volume.Sane.keepsFront_zero (hv : v.Sane) {x : ℕ} (hx : v.InRange x) :
    KeepsFront v d (zero_sectors v (cluster_to_lba v x) v.bpb.sectors_per_cluster 0 d) := by
  intro lba hlba
  have htable := hv.table_before_data
  exact hv.zero_cluster_table hx (by omega) d

theorem Volume.Sane.keepsFront_append (hv : v.Sane) {x y : ℕ} (hx : v.InRange x) (hy : v.InRange y) :
    KeepsFront v d (append_cluster v d x y) :=
  ((hv.keepsFront_set_next hx.inTable y).trans (hv.keepsFront_set_next hy.inTable FAT32_EOC)).trans (hv.keepsFront_zero hy)

/-- Only the chain of the object `o` has grown and only its clusters, or free ones, and the table have been written. -/
structure KeepsOthers (v : Volume) (d d' : Disk) (o : Option (ℕ × ℕ)) : Prop extends SameTree v d d' where
  chains : ∀ o' c l, Owns v d o' c → o' ≠ o → Cells v d c l → Cells v d' c l
  data : ∀ o' c l, Owns v d o' c → o' ≠ o → Cells v d c l → ∀ x ∈ l, ∀ j < v.bpb.sectors_per_cluster,
    d' (data_sector v x j) = d (data_sector v x j)
  front : KeepsFront v d d'

theorem KeepsOthers.refl (h : WellFormed v d) (o : Option (ℕ × ℕ)) : KeepsOthers v d d o :=
  ⟨.refl h, fun _ _ _ _ _ hl => hl, fun _ _ _ _ _ _ _ _ _ _ => rfl, .refl⟩

theorem KeepsOthers.trans {o : Option (ℕ × ℕ)} (h₁ : KeepsOthers v d d₁ o) (h₂ : KeepsOthers v d₁ d' o) :
    KeepsOthers v d d' o := by
  have howns := owns_congr h₁.lists
  refine ⟨h₁.toSameTree.trans h₂.toSameTree, fun o' c l ho hne hl => ?_, fun o' c l ho hne hl x hx j hj => ?_,
    h₁.front.trans h₂.front⟩
  · exact h₂.chains o' c l ((howns o' c).mpr ho) hne (h₁.chains o' c l ho hne hl)
  · rw [h₂.data o' c l ((howns o' c).mpr ho) hne (h₁.chains o' c l ho hne hl) x hx j hj]
    exact h₁.data o' c l ho hne hl x hx j hj

/-- The regular file with the entry in slot `s` of cluster `k` is open, with its position on
    the file's chain. -/
structure Writable (v : Volume) (d : Disk) (k s : ℕ) (file : fat32_file_t) : Prop where
  entry : ∃ p, Lists v d p k s false file.first_cluster
  position : ∃ l, Cells v d file.first_cluster l ∧ file.current_cluster ∈ l
  offset : file.cluster_offset < cluster_size v

/-- The clusters by which a write of `len` bytes at the handle's place makes the file grow,
    the one behind the last byte included, are clusters of the drive. -/
def WriteSupply (v : Volume) (d : Disk) (file : fat32_file_t) (len : ℕ) : Prop :=
  ∀ l, Cells v d file.current_cluster l →
    TakesInRange v d ((file.cluster_offset + len) / cluster_size v + 1 - l.length)

section transfer

variable {file : fat32_file_t} {p k s len : ℕ} {l : List ℕ}

theorem Writable.inUse (hfile : Writable v d k s file) : InUse v d file.current_cluster := by
  obtain ⟨p, hlists⟩ := hfile.entry
  obtain ⟨l, hl, hcur⟩ := hfile.position
  exact .of_cells hlists.owns hl hcur

theorem Writable.sector_lt (hfile : Writable v d k s file) : file.cluster_offset / 512 < v.bpb.sectors_per_cluster := by
  have hoffset := hfile.offset
  unfold cluster_size at hoffset
  omega

theorem write_chunk_update (hv : v.Sane) (hfile : Writable v d k s file) (buf : Sector) (bytes : List UInt8) :
    ∃ buf', (write_chunk v d file buf bytes).1 =
      Function.update d (data_sector v file.current_cluster (file.cluster_offset / 512)) buf' := by
  simp only [write_chunk, hv.write_sector hfile.inUse.inRange hfile.sector_lt]
  exact ⟨_, rfl⟩

/-- A round stays in its sector, so the handle gets no further than to the end of its cluster. -/
theorem write_chunk_offset (hv : v.Sane) (hoffset : file.cluster_offset < cluster_size v) (buf : Sector)
    (bytes : List UInt8) :
    (write_chunk v d file buf bytes).2.1.cluster_offset = file.cluster_offset + can_write file bytes ∧
      file.cluster_offset + can_write file bytes ≤ cluster_size v := by
  have hsmall := cluster_size_lt hv
  have hstep := (can_write_le file bytes).1
  have hle : file.cluster_offset + can_write file bytes ≤ cluster_size v := by
    unfold cluster_size at hoffset ⊢
    omega
  exact ⟨u32_of_lt (by omega), hle⟩

theorem write_chunk_spec (h : WellFormed v d) (hfile : Writable v d k s file) (buf : Sector) (bytes : List UInt8) :
    KeepsOthers v d (write_chunk v d file buf bytes).1 (some (k, s)) ∧
      SameHandle file (write_chunk v d file buf bytes).2.1 ∧
      (write_chunk v d file buf bytes).2.1.current_cluster = file.current_cluster := by
  obtain ⟨p, hlists⟩ := hfile.entry
  obtain ⟨l, hl, hcur⟩ := hfile.position
  obtain ⟨buf', hdisk⟩ := write_chunk_update h.sane hfile buf bytes
  refine ⟨?_, ⟨rfl, rfl, rfl, rfl⟩, rfl⟩
  rw [hdisk]
  refine ⟨h.write_data hlists hl hcur hfile.sector_lt, fun o' c' l' ho hne hl' => ?_,
    fun o' c' l' ho hne hl' x hx j' hj' => ?_, h.sane.keepsFront_update _ _ _⟩
  · exact hl'.congr_words h.sane fun x hx => fat_word_update_data h.sane (hl'.inRange hx).inTable
  · apply Function.update_of_ne
    intro heq
    obtain ⟨rfl, -⟩ := data_sector_inj (hl'.inRange hx).1 (hl.inRange hcur).1 hj' hfile.sector_lt heq
    exact h.tidy.2.disjoint ho hl' hlists.owns hl hne _ hx hcur

theorem WriteSupply.chunk (h : WellFormed v d) (hfile : Writable v d k s file) {bytes : List UInt8}
    (hsupply : WriteSupply v d file bytes.length) (buf : Sector) :
    WriteSupply v (write_chunk v d file buf bytes).1 (write_chunk v d file buf bytes).2.1
      (bytes.drop (can_write file bytes)).length := by
  obtain ⟨buf', hdisk⟩ := write_chunk_update h.sane hfile buf bytes
  have hword : ∀ x, v.InTable x → fat_word v (write_chunk v d file buf bytes).1 x = fat_word v d x := by
    rw [hdisk]
    exact fun x hx => fat_word_update_data h.sane hx
  have hcan := (can_write_le file bytes).2.1
  intro l hl
  rw [takesInRange_congr hword, (write_chunk_offset h.sane hfile.offset buf bytes).1, List.length_drop, Nat.add_assoc,
    Nat.add_sub_cancel' hcan]
  exact hsupply l (hl.congr_words h.sane fun x hx => (hword x (hl.inRange hx).inTable).symm)

/-- At the end of its file's last cluster, a handle gets a cluster of the drive. -/
theorem WriteSupply.next (hv : v.Sane) (hsupply : WriteSupply v d file len) (hin : v.InRange file.current_cluster)
    (hend : cluster_size v ≤ file.cluster_offset) (hlast : get_next_cluster v d file.current_cluster = FAT32_EOC) :
    NextInRange v d := by
  refine (hsupply _ (.last hin hlast)).next hv ?_
  have hpos : 0 < (file.cluster_offset + len) / cluster_size v :=
    Nat.div_pos (by omega) (cluster_size_pos hv.cluster_pos)
  simpa using hpos

/-- Moving on keeps the handle on its file's chain. -/
theorem write_advance_spec (h : WellFormed v d) (hlists : Lists v d p k s false file.first_cluster)
    (hl : Cells v d file.first_cluster l) (hcur : file.current_cluster ∈ l)
    (hnext : cluster_size v ≤ file.cluster_offset → get_next_cluster v d file.current_cluster = FAT32_EOC →
      NextInRange v d) :
    KeepsOthers v d (write_advance v d file).1 (some (k, s)) ∧ SameHandle file (write_advance v d file).2.1 ∧
      (∃ l', Cells v (write_advance v d file).1 file.first_cluster l' ∧
        (write_advance v d file).2.1.current_cluster ∈ l') ∧
      ((write_advance v d file).2.2 = true → (write_advance v d file).2.1.cluster_offset < cluster_size v) := by
  have hpos := cluster_size_pos h.sane.cluster_pos
  simp only [write_advance]
  split
  case isFalse hoffset =>
    exact ⟨.refl h _, ⟨rfl, rfl, rfl, rfl⟩, ⟨l, hl, hcur⟩, fun _ => not_le.mp hoffset⟩
  case isTrue hend =>
    split
    case isFalse hnext =>
      refine ⟨.refl h _, ⟨rfl, rfl, rfl, rfl⟩, ⟨l, hl, ?_⟩, fun _ => hpos⟩
      exact (hl.next_mem hcur).resolve_left hnext
    case isTrue hlast =>
      split
      case isTrue => exact ⟨.refl h _, ⟨rfl, rfl, rfl, rfl⟩, ⟨l, hl, hcur⟩, by simp⟩
      case isFalse hne =>
        have hin := hnext hend hlast hne
        have hfree := h.sane.find_free_isFree hne
        have huse : InUse v d file.current_cluster := .of_cells hlists.owns hl hcur
        have hcells := append_cells h huse hlast hin hfree hlists.owns hl
        rw [if_pos hcur] at hcells
        refine ⟨⟨append_sameTree h huse hlast hin hfree, fun o' c' l' ho hother hl' => ?_,
          fun o' c' l' ho hother hl' x hx j hj => ?_, h.sane.keepsFront_append huse.inRange hin⟩,
          ⟨rfl, rfl, rfl, rfl⟩, ⟨_, hcells, by simp⟩, fun _ => hpos⟩
        · have hout : file.current_cluster ∉ l' := fun hmem => h.tidy.2.disjoint ho hl' hlists.owns hl hother _ hmem hcur
          have hcells := append_cells h huse hlast hin hfree ho hl'
          rwa [if_neg hout] at hcells
        · apply h.sane.append_cluster_data huse.inRange hin (hl'.inRange hx) _ hj
          rintro rfl
          exact Cells.not_free h.sane hl' hx hfree

/-- The clusters still to come after the end of a round. -/
theorem WriteSupply.advance (h : WellFormed v d) (huse : InUse v d file.current_cluster)
    (hsupply : WriteSupply v d file len) (hle : file.cluster_offset ≤ cluster_size v)
    (hgo : (write_advance v d file).2.2 = true) :
    WriteSupply v (write_advance v d file).1 (write_advance v d file).2.1 len := by
  have hin := huse.inRange
  have hpos := cluster_size_pos h.sane.cluster_pos
  simp only [write_advance] at hgo ⊢
  split
  case isFalse => exact hsupply
  case isTrue hend =>
    have hdiv : (file.cluster_offset + len) / cluster_size v = (0 + len) / cluster_size v + 1 := by
      rw [show file.cluster_offset = cluster_size v by omega, Nat.zero_add, Nat.add_div_left _ hpos]
    rw [if_pos hend] at hgo
    split
    case isFalse hnext =>
      intro l hl
      have htakes := hsupply (file.current_cluster :: l) (.step hin rfl hl)
      rwa [hdiv, List.length_cons, Nat.add_sub_add_right] at htakes
    case isTrue hlast =>
      rw [if_pos hlast] at hgo
      split
      case isTrue hzero => simp [hzero] at hgo
      case isFalse hne =>
        have hfresh := hsupply.next h.sane hin hend hlast hne
        have hfree := h.sane.find_free_isFree hne
        have hxy : file.current_cluster ≠ find_free_cluster v d := fun heq => h.not_free huse (heq ▸ hfree)
        intro l hl
        have hone : l = [find_free_cluster v d] :=
          Cells.unique hl (.last hfresh (h.sane.append_links hin hfresh hxy d).2.1)
        have htakes := hsupply _ (.last hin hlast)
        rw [hdiv, List.length_singleton, Nat.add_sub_cancel] at htakes
        rw [hone, List.length_singleton, Nat.add_sub_cancel]
        exact append_takesInRange h huse hfresh htakes

/-- The loop of `fat32_write` keeps the tree, all files but the one that it writes, and the
    handle's place in it. -/
theorem write_loop_spec (h : WellFormed v d) (hfile : Writable v d k s file) {bytes : List UInt8}
    (hsupply : WriteSupply v d file bytes.length) (n : ℕ) (buf : Sector) :
    KeepsOthers v d (write_loop v n d file buf bytes).1 (some (k, s)) ∧
      SameHandle file (write_loop v n d file buf bytes).2.1 ∧
      ∃ l, Cells v (write_loop v n d file buf bytes).1 file.first_cluster l ∧
        (write_loop v n d file buf bytes).2.1.current_cluster ∈ l := by
  induction n generalizing d file buf bytes with
  | zero => exact ⟨.refl h _, ⟨rfl, rfl, rfl, rfl⟩, hfile.position⟩
  | succ n ih =>
    by_cases hbytes : bytes = []
    · simp only [write_loop, if_pos hbytes]
      exact ⟨.refl h _, ⟨rfl, rfl, rfl, rfl⟩, hfile.position⟩
    · simp only [write_loop, if_neg hbytes]
      obtain ⟨hothers₁, hsame₁, hcur₁⟩ := write_chunk_spec h hfile buf bytes
      have hsupply₁ := hsupply.chunk h hfile buf
      obtain ⟨hoffset₁, hle₁⟩ := write_chunk_offset (d := d) h.sane hfile.offset buf bytes
      rw [← hoffset₁] at hle₁
      obtain ⟨p, hlists⟩ := hfile.entry
      obtain ⟨l, hl, hcur⟩ := hfile.position
      generalize write_chunk v d file buf bytes = chunk at hothers₁ hsame₁ hcur₁ hsupply₁ hle₁ ⊢
      have hwf₁ := hothers₁.wf
      obtain ⟨l₁, hl₁⟩ := hothers₁.cells _ _ _ hlists.owns hl
      have hlists₁ := (hothers₁.lists p k s false file.first_cluster).mpr hlists
      have hmem₁ : chunk.2.1.current_cluster ∈ l ++ l₁ := by
        rw [hcur₁]
        exact List.mem_append_left l₁ hcur
      rw [← hsame₁.first_cluster] at hlists₁ hl₁
      have huse₁ : InUse v chunk.1 chunk.2.1.current_cluster := .of_cells hlists₁.owns hl₁ hmem₁
      obtain ⟨hothers₂, hsame₂, hpos₂, hoff₂⟩ := write_advance_spec hwf₁ hlists₁ hl₁ hmem₁
        (hsupply₁.next hwf₁.sane huse₁.inRange)
      have hsupply₂ := hsupply₁.advance hwf₁ huse₁ hle₁
      generalize write_advance v chunk.1 chunk.2.1 = step at hothers₂ hsame₂ hpos₂ hoff₂ hsupply₂ ⊢
      have hothers := hothers₁.trans hothers₂
      have hsame := hsame₁.trans hsame₂
      rw [hsame₁.first_cluster] at hpos₂
      split
      case isFalse => exact ⟨hothers, hsame, hpos₂⟩
      case isTrue hgo =>
        have hfile₂ : Writable v step.1 k s step.2.1 := by
          refine ⟨⟨p, ?_⟩, ?_, hoff₂ hgo⟩
          · rw [hsame.first_cluster]
            exact (hothers.lists p k s false _).mpr hlists
          · rw [hsame.first_cluster]
            exact hpos₂
        obtain ⟨hothers₃, hsame₃, hpos₃⟩ := ih hothers.wf hfile₂ (hsupply₂ hgo) chunk.2.2
        rw [hsame.first_cluster] at hpos₃
        exact ⟨hothers.trans hothers₃, hsame.trans hsame₃, hpos₃⟩

end transfer

/-- An open handle stands for a live entry: it starts at that entry's first
    cluster, its position is on the entry's chain or past its end, and it knows a
    slot for the size. -/
structure HandleOk (v : Volume) (d : Disk) (file : fat32_file_t) : Prop where
  entry : ∃ p k i isDir, Lists v d p k i isDir file.first_cluster
  position : ∃ l, Cells v d file.first_cluster l ∧ (file.current_cluster ∈ l ∨ file.current_cluster = FAT32_EOC)
  dir_cluster : v.InRange file.dir_cluster
  dir_entry_index : file.dir_entry_index < slots_per_cluster v

/-- Every valid handle stands for a live entry. -/
def HandlesOk (v : Volume) (d : Disk) (open_files : Fin 8 → fat32_file_t) : Prop :=
  ∀ i, (open_files i).valid = true → HandleOk v d (open_files i)

theorem HandlesOk.update {open_files : Fin 8 → fat32_file_t} {file : fat32_file_t} {i : Fin 8}
    (h : HandlesOk v d open_files) (hfile : file.valid = true → HandleOk v d file) :
    HandlesOk v d (Function.update open_files i file) := by
  intro i'
  by_cases hi : i' = i
  · subst hi
    rw [Function.update_self]
    exact hfile
  · rw [Function.update_of_ne hi]
    exact h i'

theorem SameTree.handleOk (h : SameTree v d d') {file : fat32_file_t} (hfile : HandleOk v d file) :
    HandleOk v d' file := by
  obtain ⟨p, k, i, isDir, hlists⟩ := hfile.entry
  obtain ⟨l, hl, hcur⟩ := hfile.position
  obtain ⟨l', hl'⟩ := h.cells _ _ _ hlists.owns hl
  refine ⟨⟨p, k, i, isDir, (h.lists p k i isDir _).mpr hlists⟩, ⟨l ++ l', hl', ?_⟩, hfile.dir_cluster,
    hfile.dir_entry_index⟩
  exact hcur.imp (fun hmem => by simp [hmem]) id

theorem seek_walk_mem {c : ℕ} {l : List ℕ} (hl : Cells v d c l) (n : ℕ) {x : ℕ} (hx : x ∈ l ∨ x = FAT32_EOC) :
    seek_walk v d n x ∈ l ∨ seek_walk v d n x = FAT32_EOC := by
  induction n generalizing x with
  | zero => exact hx
  | succ n ih =>
    simp only [seek_walk]
    split
    case isTrue => exact hx
    case isFalse hstop =>
      have hmem := hx.resolve_right fun heq => hstop (.inl heq)
      exact ih ((hl.next_mem hmem).symm)

theorem read_loop_spec {c : ℕ} {l : List ℕ} (hl : Cells v d c l) (len n : ℕ) {file : fat32_file_t}
    (bytes_read : ℕ) (hcur : file.current_cluster ∈ l ∨ file.current_cluster = FAT32_EOC) :
    SameHandle file (read_loop v d len n file bytes_read).1 ∧
      ((read_loop v d len n file bytes_read).1.current_cluster ∈ l ∨
        (read_loop v d len n file bytes_read).1.current_cluster = FAT32_EOC) := by
  induction n generalizing file bytes_read with
  | zero => exact ⟨⟨rfl, rfl, rfl, rfl⟩, hcur⟩
  | succ n ih =>
    simp only [read_loop]
    split
    case isFalse => exact ⟨⟨rfl, rfl, rfl, rfl⟩, hcur⟩
    case isTrue =>
      split
      case isTrue => exact ⟨⟨rfl, rfl, rfl, rfl⟩, hcur⟩
      case isFalse hne =>
        split
        case isTrue => exact ⟨⟨rfl, rfl, rfl, rfl⟩, hcur⟩
        case isFalse =>
          have hmem := hcur.resolve_right hne
          refine ⟨SameHandle.trans ?_ (ih _ ?_).1, (ih _ ?_).2⟩
          · split <;> exact ⟨rfl, rfl, rfl, rfl⟩
          · split
            · exact (hl.next_mem hmem).symm
            · exact .inl hmem
          · split
            · exact (hl.next_mem hmem).symm
            · exact .inl hmem

theorem HandleOk.moved {file file' : fat32_file_t} (h : HandleOk v d file) (hsame : SameHandle file file')
    (hmove : ∀ l, Cells v d file.first_cluster l → file.current_cluster ∈ l ∨ file.current_cluster = FAT32_EOC →
      file'.current_cluster ∈ l ∨ file'.current_cluster = FAT32_EOC) : HandleOk v d file' := by
  obtain ⟨l, hl, hcur⟩ := h.position
  refine ⟨?_, ⟨l, ?_, hmove l hl hcur⟩, ?_, ?_⟩
  · rw [hsame.first_cluster]
    exact h.entry
  · rw [hsame.first_cluster]
    exact hl
  · rw [hsame.dir_cluster]
    exact h.dir_cluster
  · rw [hsame.dir_entry_index]
    exact h.dir_entry_index

end os_dev.fat32
