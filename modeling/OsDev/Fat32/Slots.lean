import OsDev.Fat32.Geometry
import OsDev.Fat32.Names

open os_dev.ata os_dev.libc little_endian

namespace os_dev.fat32

theorem dir_entry_congr {buf buf' : Sector} {i j : ℕ}
    (hsame : ∀ k < 32, buf.byte (32 * i + k) = buf'.byte (32 * j + k)) :
    dir_entry buf i = dir_entry buf' j := by
  have hname : (List.range 8).map (fun k => buf.byte (32 * i + k)) =
      (List.range 8).map fun k => buf'.byte (32 * j + k) :=
    List.map_congr_left fun k hk => hsame k (by simp at hk; omega)
  have hext : (List.range 3).map (fun k => buf.byte (32 * i + 8 + k)) =
      (List.range 3).map fun k => buf'.byte (32 * j + 8 + k) := by
    refine List.map_congr_left fun k hk => ?_
    have := List.mem_range.mp hk
    rw [Nat.add_assoc, Nat.add_assoc]
    exact hsame (8 + k) (by omega)
  have hhigh : le16 buf.byte (32 * i + 20) = le16 buf'.byte (32 * j + 20) :=
    le16_congr (hsame 20 (by omega)) (hsame 21 (by omega))
  have hlow : le16 buf.byte (32 * i + 26) = le16 buf'.byte (32 * j + 26) :=
    le16_congr (hsame 26 (by omega)) (hsame 27 (by omega))
  have hsize : le32 buf.byte (32 * i + 28) = le32 buf'.byte (32 * j + 28) := by
    apply le32_congr
    intro k hk
    rw [Nat.add_assoc, Nat.add_assoc]
    exact hsame (28 + k) (by omega)
  simp only [dir_entry, hname, hext, hhigh, hlow, hsize, hsame 11 (by omega)]

theorem put_entry_byte {buf : Sector} {i k : ℕ} {name ext : List UInt8} {attr : UInt8} {fc size : ℕ}
    (hi : i < 16) (hk : k < 32) :
    (put_entry buf i name ext attr fc size).byte (32 * i + k) =
      if k < 8 then name.getD k 0
      else if k < 11 then ext.getD (k - 8) 0
      else if k = 11 then attr
      else if 20 ≤ k ∧ k < 22 then byteOf (fc >>> 16 &&& 0xFFFF) (k - 20)
      else if 26 ≤ k ∧ k < 28 then byteOf (fc &&& 0xFFFF) (k - 26)
      else if 28 ≤ k then byteOf size (k - 28)
      else buf.byte (32 * i + k) := by
  unfold put_entry
  rw [Sector.byte_ofFn (by omega), if_pos (by omega), show (32 * i + k) % 32 = k by omega]

theorem put_entry_byte_other {buf : Sector} {i j k : ℕ} {name ext : List UInt8} {attr : UInt8}
    {fc size : ℕ} (hj : j < 16) (hk : k < 32) (hne : j ≠ i) :
    (put_entry buf i name ext attr fc size).byte (32 * j + k) = buf.byte (32 * j + k) := by
  unfold put_entry
  rw [Sector.byte_ofFn (by omega), if_neg (by omega)]

/-- What a written entry reads back as. -/
def made_entry (name ext : List UInt8) (attr : UInt8) (fc size : ℕ) : fat32_dir_entry_t where
  name := name
  ext := ext
  attributes := attr
  first_cluster_high := fc >>> 16 &&& 0xFFFF
  first_cluster_low := fc &&& 0xFFFF
  file_size := size

theorem and_ffff_lt (n : ℕ) : n &&& 0xFFFF < 2 ^ 16 := by
  rw [show (0xFFFF : ℕ) = 2 ^ 16 - 1 by rfl, Nat.and_two_pow_sub_one_eq_mod]
  omega

theorem made_entry_first_cluster {name ext : List UInt8} {attr : UInt8} {fc size : ℕ}
    (hfc : fc < 2 ^ 32) : (made_entry name ext attr fc size).first_cluster = fc := by
  unfold fat32_dir_entry_t.first_cluster made_entry
  simp only
  rw [← Nat.shiftLeft_add_eq_or_of_lt (and_ffff_lt fc), Nat.shiftLeft_eq, Nat.shiftRight_eq_div_pow,
    show (0xFFFF : ℕ) = 2 ^ 16 - 1 by rfl, Nat.and_two_pow_sub_one_eq_mod, Nat.and_two_pow_sub_one_eq_mod]
  omega

theorem dir_entry_put_entry {buf : Sector} {i : ℕ} {name ext : List UInt8} {attr : UInt8} {fc size : ℕ}
    (hi : i < 16) (hname : name.length = 8) (hext : ext.length = 3) (hsize : size < 2 ^ 32) :
    dir_entry (put_entry buf i name ext attr fc size) i = made_entry name ext attr fc size := by
  have hbyte := fun k (hk : k < 32) => @put_entry_byte buf i k name ext attr fc size hi hk
  have h1 : (List.range 8).map (fun k => (put_entry buf i name ext attr fc size).byte (32 * i + k)) =
      name := by
    apply List.ext_getElem
    · simp [hname]
    · intro k hk hk'
      have hlt : k < 8 := by simpa using hk
      simp [hbyte k (by omega), hlt, List.getD_eq_getElem?_getD, hk']
  have h2 : (List.range 3).map (fun k => (put_entry buf i name ext attr fc size).byte (32 * i + 8 + k)) =
      ext := by
    apply List.ext_getElem
    · simp [hext]
    · intro k hk hk'
      have hlt : k < 3 := by simpa using hk
      simp [Nat.add_assoc, hbyte (8 + k) (by omega), show 8 + k < 11 by omega,
        List.getD_eq_getElem?_getD, hk']
  have h3 : le16 (put_entry buf i name ext attr fc size).byte (32 * i + 20) = fc >>> 16 &&& 0xFFFF :=
    le16_of_bytes (and_ffff_lt _) (by simp [hbyte 20 (by omega)])
      (by simp [Nat.add_assoc, hbyte 21 (by omega)])
  have h4 : le16 (put_entry buf i name ext attr fc size).byte (32 * i + 26) = fc &&& 0xFFFF :=
    le16_of_bytes (and_ffff_lt _) (by simp [hbyte 26 (by omega)])
      (by simp [Nat.add_assoc, hbyte 27 (by omega)])
  have h5 : le32 (put_entry buf i name ext attr fc size).byte (32 * i + 28) = size := by
    apply le32_of_bytes hsize
    intro k hk
    rw [Nat.add_assoc, hbyte (28 + k) (by omega)]
    simp only [show ¬ 28 + k < 8 by omega, show ¬ 28 + k < 11 by omega, show 28 + k ≠ 11 by omega,
      show ¬ (20 ≤ 28 + k ∧ 28 + k < 22) by omega, show ¬ (26 ≤ 28 + k ∧ 28 + k < 28) by omega,
      show 28 ≤ 28 + k by omega, if_false, if_true, Nat.add_sub_cancel_left]
  have h6 : (put_entry buf i name ext attr fc size).byte (32 * i + 11) = attr := by
    simp [hbyte 11 (by omega)]
  simp only [dir_entry, made_entry, h1, h2, h3, h4, h5, h6]

theorem dir_entry_put_entry_other {buf : Sector} {i j : ℕ} {name ext : List UInt8} {attr : UInt8}
    {fc size : ℕ} (hj : j < 16) (hne : j ≠ i) :
    dir_entry (put_entry buf i name ext attr fc size) j = dir_entry buf j :=
  dir_entry_congr fun _ hk => put_entry_byte_other hj hk hne

theorem mark_deleted_name0 {buf : Sector} {i : ℕ} (hi : i < 16) :
    (dir_entry (mark_deleted buf i) i).name0 = 0xE5 := by
  have hbyte : (mark_deleted buf i).byte (32 * i) = 0xE5 := by
    unfold mark_deleted
    rw [Sector.byte_ofFn (by omega), if_pos rfl]
  simpa [dir_entry, fat32_dir_entry_t.name0, List.range_succ_eq_map] using hbyte

theorem dir_entry_mark_deleted_other {buf : Sector} {i j : ℕ} (hj : j < 16) (hne : j ≠ i) :
    dir_entry (mark_deleted buf i) j = dir_entry buf j := by
  apply dir_entry_congr
  intro k hk
  unfold mark_deleted
  rw [Sector.byte_ofFn (by omega), if_neg (by omega)]

/-- Writing a size leaves every other field of the entry alone. -/
theorem dir_entry_put_size_fields {buf : Sector} {i size : ℕ} (hi : i < 16) :
    dir_entry (put_size buf i size) i =
      { dir_entry buf i with file_size := le32 (put_size buf i size).byte (32 * i + 28) } := by
  have hbyte : ∀ k < 28, (put_size buf i size).byte (32 * i + k) = buf.byte (32 * i + k) := by
    intro k hk
    unfold put_size
    rw [Sector.byte_ofFn (by omega), put32_of_outside (by omega)]
  have h1 : (List.range 8).map (fun k => (put_size buf i size).byte (32 * i + k)) =
      (List.range 8).map fun k => buf.byte (32 * i + k) :=
    List.map_congr_left fun k hk => hbyte k (by simp at hk; omega)
  have h2 : (List.range 3).map (fun k => (put_size buf i size).byte (32 * i + 8 + k)) =
      (List.range 3).map fun k => buf.byte (32 * i + 8 + k) := by
    refine List.map_congr_left fun k hk => ?_
    have := List.mem_range.mp hk
    rw [Nat.add_assoc]
    exact hbyte (8 + k) (by omega)
  have h3 : le16 (put_size buf i size).byte (32 * i + 20) = le16 buf.byte (32 * i + 20) :=
    le16_congr (hbyte 20 (by omega)) (hbyte 21 (by omega))
  have h4 : le16 (put_size buf i size).byte (32 * i + 26) = le16 buf.byte (32 * i + 26) :=
    le16_congr (hbyte 26 (by omega)) (hbyte 27 (by omega))
  simp only [dir_entry, h1, h2, h3, h4, hbyte 11 (by omega)]

theorem dir_entry_put_size {buf : Sector} {i size : ℕ} (hi : i < 16) (hsize : size < 2 ^ 32) :
    dir_entry (put_size buf i size) i = { dir_entry buf i with file_size := size } := by
  have hput : le32 (put_size buf i size).byte (32 * i + 28) =
      le32 (put32 buf.byte (32 * i + 28) size) (32 * i + 28) := by
    apply le32_congr
    intro k hk
    unfold put_size
    rw [Sector.byte_ofFn (by omega)]
  rw [dir_entry_put_size_fields hi, hput, le32_put32_same hsize]

theorem dir_entry_put_size_other {buf : Sector} {i j size : ℕ} (hj : j < 16) (hne : j ≠ i) :
    dir_entry (put_size buf i size) j = dir_entry buf j := by
  apply dir_entry_congr
  intro k hk
  unfold put_size
  rw [Sector.byte_ofFn (by omega), put32_of_outside (by omega)]

theorem dir_entry_zero_name0 (i : ℕ) : (dir_entry zero_buf i).name0 = 0 := by
  simp [dir_entry, fat32_dir_entry_t.name0, List.range_succ_eq_map]

theorem pad_length {width : ℕ} {chars : List UInt8} (h : chars.length ≤ width) :
    (pad width chars).length = width := by
  simp [pad]
  omega

@[simp] theorem standardize_base_length (src : CStr) : (standardize_base src).length = 8 :=
  pad_length (by simp)

@[simp] theorem standardize_ext_length (src : CStr) : (standardize_ext src).length = 3 :=
  pad_length (by simp)

variable {v : Volume} {d d' : Disk}

/-- Entry `i` of the directory cluster `k`. -/
def slot (v : Volume) (d : Disk) (k i : ℕ) : fat32_dir_entry_t :=
  dir_entry (d (data_sector v k (i / 16))) (i % 16)

/-- The number of entries in one cluster. -/
def slots_per_cluster (v : Volume) : ℕ := 16 * v.bpb.sectors_per_cluster

theorem sector_of_slot {i : ℕ} (hi : i < slots_per_cluster v) : i / 16 < v.bpb.sectors_per_cluster := by
  unfold slots_per_cluster at hi
  omega

theorem slot_congr {k i : ℕ} (hsame : d' (data_sector v k (i / 16)) = d (data_sector v k (i / 16))) :
    slot v d' k i = slot v d k i := by
  unfold slot
  rw [hsame]

/-- Writing one sector of a cluster leaves the slots of every other sector alone. -/
theorem slot_update_of_ne {k k' i j : ℕ} {buf : Sector} (hk : 2 ≤ k) (hk' : 2 ≤ k')
    (hi : i < slots_per_cluster v) (hj : j < v.bpb.sectors_per_cluster) (hne : k' ≠ k ∨ i / 16 ≠ j) :
    slot v (Function.update d (data_sector v k j) buf) k' i = slot v d k' i := by
  apply slot_congr
  apply Function.update_of_ne
  intro heq
  obtain ⟨h1, h2⟩ := data_sector_inj hk' hk (sector_of_slot hi) hj heq
  omega

theorem slot_update_same {k i : ℕ} {buf : Sector} :
    slot v (Function.update d (data_sector v k (i / 16)) buf) k i = dir_entry buf (i % 16) := by
  unfold slot
  rw [Function.update_self]

/-- A sector is written back with one entry changed: the other slots are as before. -/
theorem slot_update_other {k k' j i i' : ℕ} {buf : Sector} (hk : 2 ≤ k) (hk' : 2 ≤ k') (hj : j < v.bpb.sectors_per_cluster)
    (hi' : i' < slots_per_cluster v) (hne : (k', i') ≠ (k, 16 * j + i))
    (hbuf : ∀ n < 16, n ≠ i → dir_entry buf n = dir_entry (d (data_sector v k j)) n) :
    slot v (Function.update d (data_sector v k j) buf) k' i' = slot v d k' i' := by
  by_cases hsector : k' = k ∧ i' / 16 = j
  · obtain ⟨rfl, rfl⟩ := hsector
    have hentry : i' % 16 ≠ i := by
      intro heq
      apply hne
      rw [← heq, Nat.div_add_mod]
    rw [slot_update_same]
    exact hbuf _ (Nat.mod_lt _ (by decide)) hentry
  · exact slot_update_of_ne hk hk' hi' hj (not_and_or.mp hsector)

theorem fat_word_update_data (hv : v.Sane) {c k j : ℕ} {buf : Sector} (hc : v.InTable c) :
    fat_word v (Function.update d (data_sector v k j) buf) c = fat_word v d c := by
  apply hv.fat_word_congr hc
  intro lba hlba
  apply Function.update_of_ne
  have := data_lba_le_data_sector (v := v) k j
  omega

end os_dev.fat32
