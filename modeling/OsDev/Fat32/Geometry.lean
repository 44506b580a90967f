import OsDev.Fat32.Table
import Mathlib.Tactic.Linarith

open os_dev.ata os_dev.libc little_endian

namespace os_dev.fat32

/-- A usable layout: the allocation table lies on the drive in front of the data
    area, has at most 2^28 words, no sector address of the drive exceeds 32 bits,
    and the cluster size is a non-zero byte. -/
structure Volume.Sane (v : Volume) : Prop where
  present : v.drive.drive_present = true
  addressable : v.drive.total_sectors ≤ 2 ^ 32
  cluster_pos : 0 < v.bpb.sectors_per_cluster
  cluster_byte : v.bpb.sectors_per_cluster < 256
  table_small : v.bpb.fat_size_32 ≤ 2 ^ 21
  table_before_data : v.fat_lba + v.bpb.fat_size_32 ≤ v.data_lba
  table_on_drive : v.data_lba ≤ v.drive.total_sectors

/-- Cluster `c` has a word in the allocation table. -/
def Volume.InTable (v : Volume) (c : ℕ) : Prop := c < 128 * v.bpb.fat_size_32

/-- A cluster that can be allocated: it has a word in the table, its number is
    no special mark, and all its sectors are on the drive. -/
def Volume.InRange (v : Volume) (c : ℕ) : Prop :=
  2 ≤ c ∧ c < FAT32_BAD ∧ v.InTable c ∧
    v.data_lba + (c - 1) * v.bpb.sectors_per_cluster ≤ v.drive.total_sectors

instance (v : Volume) (c : ℕ) : Decidable (v.InTable c) := inferInstanceAs (Decidable (_ < _))

instance (v : Volume) (c : ℕ) : Decidable (v.InRange c) := inferInstanceAs (Decidable (_ ∧ _))

/-- Sector `j` of cluster `k`. -/
def data_sector (v : Volume) (k j : ℕ) : ℕ := v.data_lba + (k - 2) * v.bpb.sectors_per_cluster + j

/-- The word of the allocation table for cluster `c`. -/
def fat_word (v : Volume) (d : Disk) (c : ℕ) : ℕ :=
  le32 (d (v.fat_lba + c / 128)).byte (4 * (c % 128))

/-- The link that a table word stands for. -/
def link_of_word (word : ℕ) : ℕ :=
  if (word &&& 0x0FFFFFFF) ≥ 0x0FFFFFF8 then FAT32_EOC else word &&& 0x0FFFFFFF

variable {v : Volume} {d d' : Disk}

theorem u32_of_lt {n : ℕ} (h : n < 2 ^ 32) : u32 n = n := Nat.mod_eq_of_lt h

theorem mask_eq (word : ℕ) : word &&& 0x0FFFFFFF = word % 2 ^ 28 :=
  Nat.and_two_pow_sub_one_eq_mod word 28

theorem Volume.InRange.inTable {c : ℕ} (h : v.InRange c) : v.InTable c := h.2.2.1

theorem Volume.InRange.of_le {c c' : ℕ} (h : v.InRange c) (htwo : 2 ≤ c') (hle : c' ≤ c) : v.InRange c' := by
  obtain ⟨_, hbad, htable, hdrive⟩ := h
  unfold Volume.InTable at htable
  have hmul : (c' - 1) * v.bpb.sectors_per_cluster ≤ (c - 1) * v.bpb.sectors_per_cluster :=
    Nat.mul_le_mul_right _ (by omega)
  refine ⟨htwo, by omega, ?_, by omega⟩
  unfold Volume.InTable
  omega

theorem not_inRange_eoc : ¬ v.InRange FAT32_EOC := by
  rintro ⟨_, h, _⟩
  simp [FAT32_EOC, FAT32_BAD] at h

theorem not_inRange_zero : ¬ v.InRange 0 := by
  rintro ⟨h, _⟩
  omega

theorem Volume.InRange.ne_eoc {c : ℕ} (h : v.InRange c) : c ≠ FAT32_EOC := by
  rintro rfl
  exact not_inRange_eoc h

theorem Volume.InRange.lt_eoc {c : ℕ} (h : v.InRange c) : c < 0x0FFFFFF8 := by
  have := h.2.1
  unfold FAT32_BAD at this
  omega

theorem Volume.InRange.ne_bad {c : ℕ} (h : v.InRange c) : c ≠ FAT32_BAD := h.2.1.ne

theorem Volume.InRange.ne_zero {c : ℕ} (h : v.InRange c) : c ≠ 0 := by
  have := h.1
  omega

/-- The sectors of a cluster in range are addressable. -/
theorem Volume.Sane.sector_bound (hv : v.Sane) {k j : ℕ} (hk : v.InRange k)
    (hj : j < v.bpb.sectors_per_cluster) :
    data_sector v k j < v.drive.total_sectors ∧ data_sector v k j < 2 ^ 32 := by
  obtain ⟨htwo, _, _, hdrive⟩ := hk
  have haddr := hv.addressable
  have hsplit : (k - 1) * v.bpb.sectors_per_cluster =
      (k - 2) * v.bpb.sectors_per_cluster + v.bpb.sectors_per_cluster := by
    rw [← Nat.succ_mul]
    congr 1
    omega
  unfold data_sector
  omega

theorem cluster_to_lba_eq_of_lt {k : ℕ} (htwo : 2 ≤ k) (hbound : data_sector v k 0 < 2 ^ 32) :
    cluster_to_lba v k = data_sector v k 0 := by
  have hwrap : (k + 0xFFFFFFFE) * v.bpb.sectors_per_cluster =
      (k - 2) * v.bpb.sectors_per_cluster + 2 ^ 32 * v.bpb.sectors_per_cluster := by
    rw [← Nat.add_mul]
    congr 1
    omega
  unfold cluster_to_lba u32
  simp only [if_neg (show ¬ k < 2 by omega)]
  rw [hwrap, ← Nat.add_assoc, Nat.add_mul_mod_self_left]
  exact Nat.mod_eq_of_lt hbound

theorem Volume.Sane.cluster_to_lba_eq (hv : v.Sane) {k : ℕ} (hk : v.InRange k) :
    cluster_to_lba v k = data_sector v k 0 :=
  cluster_to_lba_eq_of_lt hk.1 (hv.sector_bound hk hv.cluster_pos).2

theorem Volume.Sane.sector_lba_eq (hv : v.Sane) {k j : ℕ} (hk : v.InRange k)
    (hj : j < v.bpb.sectors_per_cluster) :
    u32 (cluster_to_lba v k + j) = data_sector v k j := by
  rw [hv.cluster_to_lba_eq hk]
  exact u32_of_lt (hv.sector_bound hk hj).2

theorem Volume.Sane.read_sector (hv : v.Sane) {k j : ℕ} (hk : v.InRange k)
    (hj : j < v.bpb.sectors_per_cluster) (d : Disk) (buf : Sector) :
    ata_read_sectors v.drive d (u32 (cluster_to_lba v k + j)) buf = (0, d (data_sector v k j)) := by
  rw [hv.sector_lba_eq hk hj]
  exact read_of_holds ⟨hv.present, (hv.sector_bound hk hj).1⟩

theorem Volume.Sane.write_sector (hv : v.Sane) {k j : ℕ} (hk : v.InRange k)
    (hj : j < v.bpb.sectors_per_cluster) (d : Disk) (buf : Sector) :
    ata_write_sectors v.drive d (u32 (cluster_to_lba v k + j)) buf =
      (0, Function.update d (data_sector v k j) buf) := by
  rw [hv.sector_lba_eq hk hj]
  exact write_of_holds ⟨hv.present, (hv.sector_bound hk hj).1⟩

/-- Different sectors of clusters in range have different addresses. -/
theorem data_sector_inj {k k' j j' : ℕ} (hk : 2 ≤ k) (hk' : 2 ≤ k')
    (hj : j < v.bpb.sectors_per_cluster) (hj' : j' < v.bpb.sectors_per_cluster)
    (heq : data_sector v k j = data_sector v k' j') : k = k' ∧ j = j' := by
  unfold data_sector at heq
  have hsum : j + v.bpb.sectors_per_cluster * (k - 2) = j' + v.bpb.sectors_per_cluster * (k' - 2) := by
    rw [Nat.mul_comm _ (k - 2), Nat.mul_comm _ (k' - 2)]
    omega
  have hdiv := congrArg (· / v.bpb.sectors_per_cluster) hsum
  have hmod := congrArg (· % v.bpb.sectors_per_cluster) hsum
  simp only [Nat.add_mul_div_left _ _ (Nat.zero_lt_of_lt hj), Nat.div_eq_of_lt hj, Nat.div_eq_of_lt hj',
    Nat.add_mul_mod_self_left, Nat.mod_eq_of_lt hj, Nat.mod_eq_of_lt hj'] at hdiv hmod
  omega

theorem data_lba_le_data_sector (k j : ℕ) : v.data_lba ≤ data_sector v k j := by
  unfold data_sector
  omega

/-- The table word of a cluster lies on the drive. -/
theorem Volume.Sane.table_sector (hv : v.Sane) {c : ℕ} (hc : v.InTable c) :
    v.fat_lba + c / 128 < v.data_lba ∧ v.drive.Holds (v.fat_lba + c / 128) ∧
      u32 (v.fat_lba + u32 (c * 4) / 512) = v.fat_lba + c / 128 ∧ u32 (c * 4) % 512 = 4 * (c % 128) := by
  have hsmall := hv.table_small
  have hbefore := hv.table_before_data
  have hdrive := hv.table_on_drive
  have haddr := hv.addressable
  unfold Volume.InTable at hc
  have hoff : u32 (c * 4) = c * 4 := u32_of_lt (by omega)
  refine ⟨by omega, ⟨hv.present, by omega⟩, ?_, by omega⟩
  rw [hoff, show c * 4 / 512 = c / 128 by omega]
  exact u32_of_lt (by omega)

/-- The driver finds the table word of cluster `c` at its place. -/
structure Volume.WordAt (v : Volume) (c : ℕ) : Prop where
  holds : v.drive.Holds (v.fat_lba + c / 128)
  sector : u32 (v.fat_lba + u32 (c * 4) / 512) = v.fat_lba + c / 128
  offset : u32 (c * 4) % 512 = 4 * (c % 128)

theorem Volume.WordAt.get_next_cluster_eq {c : ℕ} (h : v.WordAt c) (d : Disk) :
    get_next_cluster v d c = link_of_word (fat_word v d c) := by
  simp only [get_next_cluster, h.sector, h.offset, read_of_holds h.holds]
  rfl

theorem Volume.WordAt.set_next_cluster_eq {c : ℕ} (h : v.WordAt c) (d : Disk) (next : ℕ) :
    set_next_cluster v d c next = Function.update d (v.fat_lba + c / 128)
      (Sector.ofFn (put32 (d (v.fat_lba + c / 128)).byte (4 * (c % 128)) next)) := by
  simp only [set_next_cluster, h.sector, h.offset, read_of_holds h.holds, write_of_holds h.holds]

theorem Volume.WordAt.fat_word_set_next {c c' next : ℕ} (h : v.WordAt c) (hnext : next < 2 ^ 32) (d : Disk) :
    fat_word v (set_next_cluster v d c next) c' = if c' = c then next else fat_word v d c' := by
  rw [h.set_next_cluster_eq]
  unfold fat_word
  by_cases hsector : c' / 128 = c / 128
  · rw [hsector, Function.update_self]
    have hword : ∀ k < 4, (Sector.ofFn (put32 (d (v.fat_lba + c / 128)).byte (4 * (c % 128)) next)).byte
        (4 * (c' % 128) + k) =
        put32 (d (v.fat_lba + c / 128)).byte (4 * (c % 128)) next (4 * (c' % 128) + k) := by
      intro k hk
      exact Sector.byte_ofFn (by omega)
    rw [le32_congr hword]
    split
    case isTrue heq =>
      subst heq
      exact le32_put32_same hnext
    case isFalse hne => exact le32_put32_of_disjoint (by omega)
  · rw [Function.update_of_ne (by omega), if_neg (by rintro rfl; exact hsector rfl)]

theorem Volume.Sane.wordAt (hv : v.Sane) {c : ℕ} (hc : v.InTable c) : v.WordAt c := let ⟨_, hholds, hsector, hoffset⟩ := hv.table_sector hc
  ⟨hholds, hsector, hoffset⟩

theorem Volume.Sane.get_next_cluster_eq (hv : v.Sane) {c : ℕ} (hc : v.InTable c) (d : Disk) :
    get_next_cluster v d c = link_of_word (fat_word v d c) := (hv.wordAt hc).get_next_cluster_eq d

theorem Volume.Sane.set_next_cluster_eq (hv : v.Sane) {c : ℕ} (hc : v.InTable c) (d : Disk) (next : ℕ) :
    set_next_cluster v d c next = Function.update d (v.fat_lba + c / 128)
      (Sector.ofFn (put32 (d (v.fat_lba + c / 128)).byte (4 * (c % 128)) next)) := (hv.wordAt hc).set_next_cluster_eq d next

/-- Setting a link never touches the data area. -/
theorem Volume.Sane.set_next_cluster_data (hv : v.Sane) {c : ℕ} (hc : v.InTable c) (d : Disk) (next : ℕ)
    {lba : ℕ} (hlba : v.data_lba ≤ lba) : set_next_cluster v d c next lba = d lba := by
  have hlt := (hv.table_sector hc).1
  rw [hv.set_next_cluster_eq hc, Function.update_of_ne (by omega)]

theorem Volume.Sane.fat_word_set_next (hv : v.Sane) {c c' next : ℕ} (hc : v.InTable c)
    (hnext : next < 2 ^ 32) (d : Disk) :
    fat_word v (set_next_cluster v d c next) c' = if c' = c then next else fat_word v d c' :=
  (hv.wordAt hc).fat_word_set_next hnext d

/-- The table depends on the sectors in front of the data area only. -/
theorem Volume.Sane.fat_word_congr (hv : v.Sane) {c : ℕ} (hc : v.InTable c)
    (hsame : ∀ lba < v.data_lba, d' lba = d lba) : fat_word v d' c = fat_word v d c := by
  unfold fat_word
  rw [hsame _ (hv.table_sector hc).1]

theorem Volume.Sane.link_congr (hv : v.Sane) {c : ℕ} (hc : v.InTable c)
    (hsame : fat_word v d' c = fat_word v d c) : get_next_cluster v d' c = get_next_cluster v d c := by
  rw [hv.get_next_cluster_eq hc, hv.get_next_cluster_eq hc, hsame]

theorem link_of_word_eoc : link_of_word FAT32_EOC = FAT32_EOC := by decide

theorem link_of_word_of_lt {c : ℕ} (hc : c < FAT32_BAD) : link_of_word c = c := by
  unfold FAT32_BAD at hc
  unfold link_of_word
  rw [mask_eq, Nat.mod_eq_of_lt (by omega), if_neg (by omega)]

theorem Volume.Sane.link_set_next_self (hv : v.Sane) {c next : ℕ} (hc : v.InTable c)
    (hnext : next < 2 ^ 32) (d : Disk) :
    get_next_cluster v (set_next_cluster v d c next) c = link_of_word next := by
  rw [hv.get_next_cluster_eq hc, hv.fat_word_set_next hc hnext, if_pos rfl]

/-- Clearing sectors of the drive. -/
theorem Volume.Sane.zero_sectors_apply (hv : v.Sane) {lba : ℕ} (n s : ℕ) (d : Disk)
    (hdrive : lba + s + n ≤ v.drive.total_sectors) (x : ℕ) :
    zero_sectors v lba n s d x = if lba + s ≤ x ∧ x < lba + s + n then zero_buf else d x := by
  induction n generalizing s d with
  | zero =>
    rw [zero_sectors, if_neg (by omega)]
  | succ n ih =>
    have haddr := hv.addressable
    have hlba : u32 (lba + s) = lba + s := u32_of_lt (by omega)
    have hholds : v.drive.Holds (lba + s) := ⟨hv.present, by omega⟩
    simp only [zero_sectors]
    rw [ih (s + 1) _ (by omega), hlba, write_of_holds hholds]
    by_cases hx : x = lba + s
    · subst hx
      simp
    · simp only [Function.update_of_ne hx]
      congr 1
      simp only [eq_iff_iff]
      omega

/-- Clearing a cluster in range. -/
theorem Volume.Sane.zero_cluster_apply (hv : v.Sane) {k : ℕ} (hk : v.InRange k) (d : Disk) (x : ℕ) :
    zero_sectors v (cluster_to_lba v k) v.bpb.sectors_per_cluster 0 d x =
      if data_sector v k 0 ≤ x ∧ x < data_sector v k v.bpb.sectors_per_cluster then zero_buf else d x := by
  rw [hv.cluster_to_lba_eq hk, hv.zero_sectors_apply]
  · simp [data_sector]
  · have hpos := hv.cluster_pos
    have hbound := (hv.sector_bound hk (Nat.sub_lt hpos Nat.one_pos)).1
    unfold data_sector at *
    omega

theorem Volume.Sane.zero_cluster_same (hv : v.Sane) {k j : ℕ} (hk : v.InRange k)
    (hj : j < v.bpb.sectors_per_cluster) (d : Disk) :
    zero_sectors v (cluster_to_lba v k) v.bpb.sectors_per_cluster 0 d (data_sector v k j) = zero_buf := by
  rw [hv.zero_cluster_apply hk, if_pos]
  unfold data_sector
  omega

theorem Volume.Sane.zero_cluster_other (hv : v.Sane) {k k' j : ℕ} (hk : v.InRange k) (hk' : v.InRange k')
    (hne : k' ≠ k) (hj : j < v.bpb.sectors_per_cluster) (d : Disk) :
    zero_sectors v (cluster_to_lba v k) v.bpb.sectors_per_cluster 0 d (data_sector v k' j) =
      d (data_sector v k' j) := by
  rw [hv.zero_cluster_apply hk, if_neg]
  rintro ⟨hlo, hhi⟩
  have hoff : data_sector v k' j = data_sector v k (data_sector v k' j - data_sector v k 0) := by
    unfold data_sector at *
    omega
  have hlt : data_sector v k' j - data_sector v k 0 < v.bpb.sectors_per_cluster := by
    unfold data_sector at *
    omega
  exact hne (data_sector_inj hk'.1 hk.1 hj hlt hoff).1

theorem Volume.Sane.zero_cluster_table (hv : v.Sane) {k lba : ℕ} (hk : v.InRange k)
    (hlba : lba < v.data_lba) (d : Disk) :
    zero_sectors v (cluster_to_lba v k) v.bpb.sectors_per_cluster 0 d lba = d lba := by
  rw [hv.zero_cluster_apply hk, if_neg]
  have := data_lba_le_data_sector (v := v) k 0
  omega

end os_dev.fat32
