import OsDev.Fat32.Search

open os_dev.ata os_dev.libc little_endian forest link_chain

namespace os_dev.fat32

variable {v : Volume} {d d' : Disk}

/-- Write a new entry into a slot. -/
def fill_slot (v : Volume) (d : Disk) (pos : ℕ × ℕ × ℕ) (name : CStr) (attr : UInt8) (fc size : ℕ) : Disk :=
  Function.update d (data_sector v pos.1 pos.2.1)
    (put_entry (d (data_sector v pos.1 pos.2.1)) pos.2.2 (standardize_base name) (standardize_ext name)
      attr fc size)

theorem scan_free_some {buf : Sector} {n start i : ℕ} (h : scan_free buf n start = some i) :
    start ≤ i ∧ i < start + n ∧ ((dir_entry buf i).name0 = 0 ∨ (dir_entry buf i).name0 = 0xE5) ∧
      ∀ i', start ≤ i' → i' < i → (dir_entry buf i').name0 ≠ 0 ∧ (dir_entry buf i').name0 ≠ 0xE5 := by
  induction n generalizing start with
  | zero => simp [scan_free] at h
  | succ n ih =>
    simp only [scan_free] at h
    split at h
    case isTrue hname =>
      cases h
      exact ⟨le_rfl, by omega, hname, fun i' _ _ => by omega⟩
    case isFalse hname =>
      obtain ⟨h1, h2, h3, h4⟩ := ih h
      refine ⟨by omega, by omega, h3, fun i' hlo hhi => ?_⟩
      rcases Nat.eq_or_lt_of_le hlo with rfl | hlt
      · exact not_or.mp hname
      · exact h4 i' hlt hhi

theorem scan_free_none {buf : Sector} {n start i : ℕ} (h : scan_free buf n start = none)
    (hlo : start ≤ i) (hhi : i < start + n) :
    (dir_entry buf i).name0 ≠ 0 ∧ (dir_entry buf i).name0 ≠ 0xE5 := by
  induction n generalizing start with
  | zero => omega
  | succ n ih =>
    simp only [scan_free] at h
    split at h
    case isTrue => cases h
    case isFalse hname =>
      rcases Nat.eq_or_lt_of_le hlo with rfl | hlt
      · exact not_or.mp hname
      · exact ih h hlt (by omega)

theorem free_scan_zero_buf : free_scan zero_buf = some 0 := by
  simp [free_scan, scan_free, dir_entry_zero_name0]

/-- The loop fills the first usable slot of the chain. -/
theorem Volume.Sane.create_loop_of_free (hv : v.Sane) {c k j i : ℕ} {l : List ℕ} (hl : Cells v d c l)
    (hfree : chain_hit v d free_scan l = some (k, j, i)) {fuel : ℕ} (hfuel : l.length < fuel)
    (buf : Sector) (name : CStr) (attr : UInt8) (fc size : ℕ) :
    create_loop v name attr fc size fuel d c buf = some (0, fill_slot v d (k, j, i) name attr fc size) := by
  induction hl generalizing fuel buf with
  | @last c hok hnext =>
    obtain ⟨fuel, rfl⟩ := Nat.exists_eq_add_of_lt hfuel
    obtain ⟨heq, hbuf⟩ := hv.scan_cluster_eq hok d free_scan buf
    obtain ⟨hk, hj, _⟩ := chain_hit_some hfree
    obtain rfl := List.mem_singleton.mp hk
    have hcluster : cluster_hit v d free_scan k = some (j, i) := by
      simpa [chain_hit] using hfree
    simp only [List.length_singleton, create_loop, hok.ne_eoc, if_false]
    cases hscan : scan_sectors v d free_scan (cluster_to_lba v k) v.bpb.sectors_per_cluster 0 buf with
    | mk pos buf' =>
      rw [hscan] at heq hbuf
      simp only [hcluster] at heq hbuf
      subst heq
      simp only [hv.write_sector hok hj, hbuf j i rfl, fill_slot]
  | @step c b l hok hnext tail ih =>
    obtain ⟨fuel, rfl⟩ := Nat.exists_eq_add_of_lt hfuel
    obtain ⟨heq, hbuf⟩ := hv.scan_cluster_eq hok d free_scan buf
    have hlink : get_next_cluster v d c = b := hnext
    have hb : v.InRange b := tail.ok_head
    simp only [chain_hit, List.findSome?_cons] at hfree
    simp only [List.length_cons, create_loop, hok.ne_eoc, if_false]
    cases hscan : scan_sectors v d free_scan (cluster_to_lba v c) v.bpb.sectors_per_cluster 0 buf with
    | mk pos buf' =>
      rw [hscan] at heq hbuf
      cases pos with
      | none =>
        simp only [← heq, Option.map_none] at hfree
        simp only [hlink, hb.ne_eoc, if_false]
        exact ih hfree (by omega) buf'
      | some ji =>
        simp only [← heq, Option.map_some, Option.some.injEq, Prod.mk.injEq] at hfree
        obtain ⟨rfl, rfl⟩ := hfree
        have hbuf' := hbuf j i heq.symm
        have hj : j < v.bpb.sectors_per_cluster := by
          have hcluster : chain_hit v d free_scan [c] = some (c, j, i) := by
            simp only [chain_hit, List.findSome?_singleton, ← heq, Option.map_some]
          exact (chain_hit_some hcluster).2.1
        simp only at hbuf'
        simp only [hv.write_sector hok hj, hbuf', fill_slot]

/-- Without a usable slot the loop reaches the last cluster of the chain. -/
theorem Volume.Sane.create_loop_of_full (hv : v.Sane) {c x : ℕ} {l : List ℕ} (hl : Cells v d c l)
    (hfull : chain_hit v d free_scan l = none) (hx : x ∈ l) (hlast : get_next_cluster v d x = FAT32_EOC)
    {fuel : ℕ} (hfuel : l.length ≤ fuel) (buf : Sector) (name : CStr) (attr : UInt8) (fc size : ℕ) :
    ∃ fuel', fuel = fuel' + l.length ∧ create_loop v name attr fc size fuel d c buf =
      if find_free_cluster v d = 0 then some (-1, d)
      else create_loop v name attr fc size fuel' (append_cluster v d x (find_free_cluster v d))
        (find_free_cluster v d) zero_buf := by
  induction hl generalizing fuel buf with
  | @last c hok hnext =>
    obtain rfl := List.mem_singleton.mp hx
    obtain ⟨fuel, rfl⟩ := Nat.exists_eq_add_of_le hfuel
    obtain ⟨heq, _⟩ := hv.scan_cluster_eq hok d free_scan buf
    have hcluster : cluster_hit v d free_scan x = none := by
      simpa [chain_hit] using hfull
    refine ⟨fuel, by simp [Nat.add_comm], ?_⟩
    rw [List.length_singleton, Nat.add_comm]
    simp only [create_loop, hok.ne_eoc, if_false]
    cases hscan : scan_sectors v d free_scan (cluster_to_lba v x) v.bpb.sectors_per_cluster 0 buf with
    | mk pos buf' =>
      rw [hscan, hcluster] at heq
      simp only at heq
      subst heq
      simp only [hlast, if_true]
  | @step c b l hok hnext tail ih =>
    obtain ⟨fuel, rfl⟩ := Nat.exists_eq_add_of_le hfuel
    obtain ⟨heq, _⟩ := hv.scan_cluster_eq hok d free_scan buf
    have hlink : get_next_cluster v d c = b := hnext
    have hb : v.InRange b := tail.ok_head
    simp only [chain_hit, List.findSome?_cons] at hfull
    have hcluster : cluster_hit v d free_scan c = none := by
      cases hc : cluster_hit v d free_scan c with
      | none => rfl
      | some ji => simp [hc] at hfull
    rw [hcluster] at hfull
    have hxl : x ∈ l := by
      rcases List.mem_cons.mp hx with rfl | hx
      · exact absurd (hlink.symm.trans hlast) hb.ne_eoc
      · exact hx
    obtain ⟨fuel', hfuel', hrest⟩ := ih hfull hxl (Nat.le_add_right l.length fuel)
      (scan_sectors v d free_scan (cluster_to_lba v c) v.bpb.sectors_per_cluster 0 buf).2
    refine ⟨fuel', by simp only [List.length_cons]; omega, ?_⟩
    rw [List.length_cons, show l.length + 1 + fuel = (l.length + fuel) + 1 by omega]
    simp only [create_loop, hok.ne_eoc, if_false]
    cases hscan : scan_sectors v d free_scan (cluster_to_lba v c) v.bpb.sectors_per_cluster 0 buf with
    | mk pos buf' =>
      rw [hscan] at hrest
      rw [hscan, hcluster] at heq
      simp only at heq
      subst heq
      simp only [hlink, hb.ne_eoc, if_false]
      exact hrest

/-- A cleared cluster offers its first slot. -/
theorem Volume.Sane.create_loop_of_cleared (hv : v.Sane) {y : ℕ} (hy : v.InRange y)
    (hzero : d (data_sector v y 0) = zero_buf) {fuel : ℕ} (hfuel : 0 < fuel) (buf : Sector) (name : CStr)
    (attr : UInt8) (fc size : ℕ) :
    create_loop v name attr fc size fuel d y buf = some (0, fill_slot v d (y, 0, 0) name attr fc size) := by
  obtain ⟨fuel, rfl⟩ := Nat.exists_eq_succ_of_ne_zero hfuel.ne'
  obtain ⟨n, hn⟩ := Nat.exists_eq_succ_of_ne_zero hv.cluster_pos.ne'
  have hscan : scan_sectors v d free_scan (cluster_to_lba v y) v.bpb.sectors_per_cluster 0 buf =
      (some (0, 0), zero_buf) := by
    rw [hn]
    simp only [scan_sectors, hv.read_sector hy hv.cluster_pos, hzero, free_scan_zero_buf]
  simp only [create_loop, hy.ne_eoc, if_false, hscan, hv.write_sector hy hv.cluster_pos]
  rw [fill_slot, hzero]

theorem Volume.Sane.append_cluster_cleared (hv : v.Sane) {x y j : ℕ} (hy : v.InRange y)
    (hj : j < v.bpb.sectors_per_cluster) : append_cluster v d x y (data_sector v y j) = zero_buf :=
  hv.zero_cluster_same hy hj _

/-- Behind a chain without usable slots, the first usable one is the first slot of
    a cleared cluster. -/
theorem chain_hit_append_cleared {l : List ℕ} {y : ℕ} (hpos : 0 < v.bpb.sectors_per_cluster)
    (hfull : chain_hit v d free_scan l = none) (hzero : d (data_sector v y 0) = zero_buf) :
    chain_hit v d free_scan (l ++ [y]) = some (y, 0, 0) := by
  obtain ⟨n, hn⟩ := Nat.exists_eq_succ_of_ne_zero hpos.ne'
  have hcluster : cluster_hit v d free_scan y = some (0, 0) := by
    simp [cluster_hit, hn, List.range_succ_eq_map, hzero, free_scan_zero_buf]
  unfold chain_hit at hfull ⊢
  rw [List.findSome?_append, hfull]
  simp [hcluster]

theorem Volume.Sane.append_cluster_data (hv : v.Sane) {x y k j : ℕ} (hx : v.InRange x) (hy : v.InRange y)
    (hk : v.InRange k) (hne : k ≠ y) (hj : j < v.bpb.sectors_per_cluster) :
    append_cluster v d x y (data_sector v k j) = d (data_sector v k j) := by
  unfold append_cluster
  rw [hv.zero_cluster_other hy hk hne hj, hv.set_next_cluster_data hy.inTable _ _ (data_lba_le_data_sector k j),
    hv.set_next_cluster_data hx.inTable _ _ (data_lba_le_data_sector k j)]

theorem Volume.Sane.fat_word_append (hv : v.Sane) {x y c : ℕ} (hx : v.InRange x) (hy : v.InRange y)
    (hc : v.InTable c) :
    fat_word v (append_cluster v d x y) c =
      if c = y then FAT32_EOC else if c = x then y else fat_word v d c := by
  have hlt : y < 2 ^ 32 := by
    have := hy.lt_eoc
    omega
  have heoc : FAT32_EOC < 2 ^ 32 := by decide
  unfold append_cluster
  rw [hv.fat_word_congr hc fun lba hlba => hv.zero_cluster_table hy hlba _,
    hv.fat_word_set_next hy.inTable heoc, hv.fat_word_set_next hx.inTable hlt]

/-- The links after a chain has grown from `x` by `y`. -/
theorem Volume.Sane.append_links (hv : v.Sane) {x y : ℕ} (hx : v.InRange x) (hy : v.InRange y) (hne : x ≠ y)
    (d : Disk) :
    get_next_cluster v (append_cluster v d x y) x = y ∧
      get_next_cluster v (append_cluster v d x y) y = FAT32_EOC ∧
      ∀ z, v.InRange z → z ≠ x → z ≠ y →
        get_next_cluster v (append_cluster v d x y) z = get_next_cluster v d z := by
  refine ⟨?_, ?_, ?_⟩
  · rw [hv.get_next_cluster_eq hx.inTable, hv.fat_word_append hx hy hx.inTable, if_neg hne, if_pos rfl]
    exact link_of_word_of_lt hy.2.1
  · rw [hv.get_next_cluster_eq hy.inTable, hv.fat_word_append hx hy hy.inTable, if_pos rfl]
    exact link_of_word_eoc
  · intro z hz hzx hzy
    apply hv.link_congr hz.inTable
    rw [hv.fat_word_append hx hy hz.inTable, if_neg hzy, if_neg hzx]

theorem fat_word_fill (hv : v.Sane) {pos : ℕ × ℕ × ℕ} {name : CStr} {attr : UInt8} {fc size c : ℕ}
    (hc : v.InTable c) : fat_word v (fill_slot v d pos name attr fc size) c = fat_word v d c :=
  fat_word_update_data hv hc

theorem slot_fill_same {k j i : ℕ} {name : CStr} {attr : UInt8} {fc size : ℕ} (hi : i < 16)
    (hsize : size < 2 ^ 32) :
    slot v (fill_slot v d (k, j, i) name attr fc size) k (16 * j + i) =
      made_entry (standardize_base name) (standardize_ext name) attr fc size := by
  rw [slot_eq_dir_entry hi, fill_slot, Function.update_self]
  exact dir_entry_put_entry hi (standardize_base_length name) (standardize_ext_length name) hsize

theorem slot_fill_other {k k' j i i' : ℕ} {name : CStr} {attr : UInt8} {fc size : ℕ} (hk : 2 ≤ k)
    (hk' : 2 ≤ k') (hj : j < v.bpb.sectors_per_cluster) (hi' : i' < slots_per_cluster v)
    (hne : (k', i') ≠ (k, 16 * j + i)) :
    slot v (fill_slot v d (k, j, i) name attr fc size) k' i' = slot v d k' i' :=
  slot_update_other hk hk' hj hi' hne fun _ hn hother => dir_entry_put_entry_other hn hother

/-- What `create_entry` does to a directory: it fills the first usable slot of
    the chain, or it grows the chain by a cleared cluster and fills its first
    slot, or the volume is full and nothing changes. -/
theorem Volume.Sane.create_entry_cases (hv : v.Sane) {c : ℕ} {l : List ℕ}
    (hnext : chain_hit v d free_scan l = none → NextInRange v d) (hl : Cells v d c l) {fuel : ℕ}
    (hfuel : l.length + 1 < fuel) (name : CStr) (attr : UInt8) (fc size : ℕ) :
    (∃ pos, chain_hit v d free_scan l = some pos ∧
      create_entry fuel v d c name attr fc size = some (0, fill_slot v d pos name attr fc size)) ∨
    (chain_hit v d free_scan l = none ∧ find_free_cluster v d = 0 ∧
      create_entry fuel v d c name attr fc size = some (-1, d)) ∨
    (∃ x ∈ l, chain_hit v d free_scan l = none ∧ get_next_cluster v d x = FAT32_EOC ∧
      find_free_cluster v d ≠ 0 ∧ v.InRange (find_free_cluster v d) ∧ IsFree v d (find_free_cluster v d) ∧
      create_entry fuel v d c name attr fc size =
        some (0, fill_slot v (append_cluster v d x (find_free_cluster v d)) (find_free_cluster v d, 0, 0)
          name attr fc size)) := by
  unfold create_entry
  cases hfree : chain_hit v d free_scan l with
  | some pos =>
    obtain ⟨k, j, i⟩ := pos
    exact .inl ⟨_, rfl, hv.create_loop_of_free hl hfree (by omega) v.uninit name attr fc size⟩
  | none =>
    obtain ⟨x, hx, hlast⟩ := hl.exists_last
    obtain ⟨fuel', hsum, heq⟩ := hv.create_loop_of_full hl hfree hx hlast (show l.length ≤ fuel by omega)
      v.uninit name attr fc size
    by_cases hzero : find_free_cluster v d = 0
    · rw [if_pos hzero] at heq
      exact .inr (.inl ⟨rfl, hzero, heq⟩)
    · have hin := hnext hfree hzero
      have hisfree := hv.find_free_isFree hzero
      rw [if_neg hzero, hv.create_loop_of_cleared hin (hv.append_cluster_cleared hin hv.cluster_pos)
        (by omega)] at heq
      exact .inr (.inr ⟨x, hx, rfl, hlast, hzero, hin, hisfree, heq⟩)

end os_dev.fat32
