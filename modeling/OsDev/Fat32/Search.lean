import OsDev.Fat32.View
import OsDev.Fat32.Directory

open os_dev.ata os_dev.libc little_endian forest link_chain

namespace os_dev.fat32

variable {v : Volume} {d d' : Disk} {scan : Sector → Option ℕ} {hit hit' : fat32_dir_entry_t → Bool}

/-- The sector and entry a sector loop stops at inside one cluster. -/
def cluster_hit (v : Volume) (d : Disk) (scan : Sector → Option ℕ) (k : ℕ) : Option (ℕ × ℕ) :=
  (List.range v.bpb.sectors_per_cluster).findSome? fun j =>
    (scan (d (data_sector v k j))).map fun i => (j, i)

/-- The cluster, sector and entry a search stops at along a chain. -/
def chain_hit (v : Volume) (d : Disk) (scan : Sector → Option ℕ) (l : List ℕ) : Option (ℕ × ℕ × ℕ) :=
  l.findSome? fun k => (cluster_hit v d scan k).map fun ji => (k, ji)

/-- The search result at a position. -/
def found_at (v : Volume) (d : Disk) (pos : ℕ × ℕ × ℕ) : Found :=
  ⟨pos.1, pos.2.1, pos.2.2, d (data_sector v pos.1 pos.2.1)⟩

theorem slot_eq_dir_entry {k j i : ℕ} (hi : i < 16) :
    slot v d k (16 * j + i) = dir_entry (d (data_sector v k j)) i := by
  unfold slot
  rw [show (16 * j + i) / 16 = j by omega, show (16 * j + i) % 16 = i by omega]

theorem slot_index_lt {j i : ℕ} (hj : j < v.bpb.sectors_per_cluster) (hi : i < 16) :
    16 * j + i < slots_per_cluster v := by
  unfold slots_per_cluster
  omega

/-- Scanning from sector `s` on, when all sectors of the cluster can be read. -/
theorem Volume.Sane.scan_sectors_eq (hv : v.Sane) {k : ℕ} (hk : v.InRange k) (d : Disk)
    (scan : Sector → Option ℕ) (n s : ℕ) (buf : Sector) (hs : s + n = v.bpb.sectors_per_cluster) :
    (scan_sectors v d scan (cluster_to_lba v k) n s buf).1 =
        (List.range' s n).findSome? (fun j =>
          (scan (d (data_sector v k j))).map fun i => (j, i)) ∧
      ∀ j i, (scan_sectors v d scan (cluster_to_lba v k) n s buf).1 = some (j, i) →
        (scan_sectors v d scan (cluster_to_lba v k) n s buf).2 = d (data_sector v k j) := by
  induction n generalizing s buf with
  | zero => simp [scan_sectors]
  | succ n ih =>
    simp only [scan_sectors, hv.read_sector hk (show s < v.bpb.sectors_per_cluster by omega),
      List.range'_succ, List.findSome?_cons]
    cases hscan : scan (d (data_sector v k s)) with
    | some i =>
      refine ⟨by simp, ?_⟩
      intro j i' heq
      cases heq
      rfl
    | none =>
      simpa using ih (s + 1) (d (data_sector v k s)) (by omega)

theorem Volume.Sane.scan_cluster_eq (hv : v.Sane) {k : ℕ} (hk : v.InRange k) (d : Disk)
    (scan : Sector → Option ℕ) (buf : Sector) :
    (scan_sectors v d scan (cluster_to_lba v k) v.bpb.sectors_per_cluster 0 buf).1 = cluster_hit v d scan k ∧
      ∀ j i, cluster_hit v d scan k = some (j, i) →
        (scan_sectors v d scan (cluster_to_lba v k) v.bpb.sectors_per_cluster 0 buf).2 =
          d (data_sector v k j) := by
  obtain ⟨heq, hbuf⟩ := hv.scan_sectors_eq hk d scan v.bpb.sectors_per_cluster 0 buf (by omega)
  have hfirst : (scan_sectors v d scan (cluster_to_lba v k) v.bpb.sectors_per_cluster 0 buf).1 =
      cluster_hit v d scan k := by
    rw [heq, cluster_hit, List.range_eq_range']
  exact ⟨hfirst, fun j i hji => hbuf j i (hfirst.trans hji)⟩

theorem search_end {fuel : ℕ} {buf : Sector} (hfuel : 0 < fuel) :
    search v d hit fuel FAT32_EOC buf = some none := by
  obtain ⟨fuel, rfl⟩ := Nat.exists_eq_succ_of_ne_zero hfuel.ne'
  simp [search]

/-- One round of a search, at a cluster number `c` that stands for cluster `k`. -/
theorem Volume.Sane.search_round (hv : v.Sane) {c k : ℕ} (hk : v.InRange k)
    (hlba : cluster_to_lba v c = cluster_to_lba v k) (hc : c ≠ FAT32_EOC) (fuel : ℕ) (buf : Sector) :
    ∃ buf', search v d hit (fuel + 1) c buf = match cluster_hit v d (hit_scan hit) k with
      | some (j, i) => some (some ⟨c, j, i, d (data_sector v k j)⟩)
      | none => search v d hit fuel (get_next_cluster v d c) buf' := by
  obtain ⟨heq, hbuf⟩ := hv.scan_cluster_eq hk d (hit_scan hit) buf
  simp only [search, if_neg hc, hlba]
  cases hscan : scan_sectors v d (hit_scan hit) (cluster_to_lba v k) v.bpb.sectors_per_cluster 0 buf with
  | mk pos buf' =>
    rw [hscan] at heq hbuf
    simp only at heq hbuf
    refine ⟨buf', ?_⟩
    rw [← heq]
    cases pos with
    | none => rfl
    | some ji =>
      obtain ⟨j, i⟩ := ji
      simp only [hbuf j i heq.symm]

/-- On a chain, a search with enough fuel returns the first hit in chain order. -/
theorem Volume.Sane.search_eq (hv : v.Sane) {c : ℕ} {l : List ℕ} (hl : Cells v d c l) {fuel : ℕ}
    (hfuel : l.length < fuel) (buf : Sector) :
    search v d hit fuel c buf = some ((chain_hit v d (hit_scan hit) l).map (found_at v d)) := by
  induction hl generalizing fuel buf with
  | @last c hok hnext =>
    obtain ⟨fuel, rfl⟩ := Nat.exists_eq_add_of_lt hfuel
    obtain ⟨buf', heq⟩ := hv.search_round hok rfl hok.ne_eoc (1 + fuel) buf
    have hend : get_next_cluster v d c = FAT32_EOC := hnext
    rw [List.length_singleton, heq, chain_hit, List.findSome?_singleton]
    cases cluster_hit v d (hit_scan hit) c with
    | none => simp [hend, search_end]
    | some ji => rfl
  | @step c b l hok hnext tail ih =>
    obtain ⟨fuel, rfl⟩ := Nat.exists_eq_add_of_lt hfuel
    obtain ⟨buf', heq⟩ := hv.search_round hok rfl hok.ne_eoc (l.length + 1 + fuel) buf
    have hlink : get_next_cluster v d c = b := hnext
    rw [List.length_cons, heq, chain_hit, List.findSome?_cons]
    cases cluster_hit v d (hit_scan hit) c with
    | none =>
      simp only [Option.map_none, hlink]
      exact ih (by omega) buf'
    | some ji => rfl

/-- A scan that stops passed no end mark and no other hit. -/
theorem scan_entries_some {buf : Sector} {n start i : ℕ} (h : scan_entries hit buf n start = some i) :
    start ≤ i ∧ i < start + n ∧ hit (dir_entry buf i) = true ∧ (dir_entry buf i).name0 ≠ 0 := by
  induction n generalizing start with
  | zero => simp [scan_entries] at h
  | succ n ih =>
    simp only [scan_entries] at h
    split at h
    case isTrue => cases h
    case isFalse hname =>
      split at h
      case isTrue hhit =>
        cases h
        exact ⟨le_rfl, by omega, hhit, hname⟩
      case isFalse =>
        obtain ⟨h1, h2, h3⟩ := ih h
        exact ⟨by omega, by omega, h3⟩

/-- A scan stops in front of the first end mark. -/
theorem scan_entries_visible {buf : Sector} {n start i i' : ℕ} (h : scan_entries hit buf n start = some i)
    (hlo : start ≤ i') (hhi : i' ≤ i) : (dir_entry buf i').name0 ≠ 0 := by
  induction n generalizing start with
  | zero => simp [scan_entries] at h
  | succ n ih =>
    simp only [scan_entries] at h
    split at h
    case isTrue => cases h
    case isFalse hname =>
      rcases Nat.eq_or_lt_of_le hlo with rfl | hlt
      · exact hname
      · split at h
        case isTrue =>
          cases h
          omega
        case isFalse => exact ih h hlt

/-- A scan that fails saw no hit in front of the end mark. -/
theorem scan_entries_none {buf : Sector} {n start i : ℕ} (h : scan_entries hit buf n start = none)
    (hlo : start ≤ i) (hhi : i < start + n)
    (hmark : ∀ i', start ≤ i' → i' ≤ i → (dir_entry buf i').name0 ≠ 0) :
    hit (dir_entry buf i) = false := by
  induction n generalizing start with
  | zero => omega
  | succ n ih =>
    simp only [scan_entries, if_neg (hmark start le_rfl hlo)] at h
    split at h
    case isTrue => cases h
    case isFalse hhit =>
      rcases Nat.eq_or_lt_of_le hlo with rfl | hlt
      · simpa using hhit
      · exact ih h hlt (by omega) fun i' h1 h2 => hmark i' (by omega) h2

/-- A scan sees of each entry whether it is an end mark and whether it is a hit. -/
theorem scan_entries_congr {buf buf' : Sector} {n start : ℕ}
    (hsame : ∀ i, start ≤ i → i < start + n →
      ((dir_entry buf' i).name0 = 0 ↔ (dir_entry buf i).name0 = 0) ∧
        hit' (dir_entry buf' i) = hit (dir_entry buf i)) :
    scan_entries hit' buf' n start = scan_entries hit buf n start := by
  induction n generalizing start with
  | zero => rfl
  | succ n ih =>
    obtain ⟨hname, hhit⟩ := hsame start le_rfl (by omega)
    have hrest : scan_entries hit' buf' n (start + 1) = scan_entries hit buf n (start + 1) :=
      ih fun i h1 h2 => hsame i (by omega) (by omega)
    simp only [scan_entries, hname, hhit, hrest]

theorem chain_hit_some {l : List ℕ} {k j i : ℕ} (h : chain_hit v d scan l = some (k, j, i)) :
    k ∈ l ∧ j < v.bpb.sectors_per_cluster ∧ scan (d (data_sector v k j)) = some i := by
  unfold chain_hit at h
  obtain ⟨k', hk', hmap⟩ := List.exists_of_findSome?_eq_some h
  obtain ⟨⟨j', i'⟩, hcluster, heq⟩ := Option.map_eq_some_iff.mp hmap
  cases heq
  unfold cluster_hit at hcluster
  obtain ⟨j', hj', hmap'⟩ := List.exists_of_findSome?_eq_some hcluster
  obtain ⟨i', hscan, heq⟩ := Option.map_eq_some_iff.mp hmap'
  cases heq
  exact ⟨hk', List.mem_range.mp hj', hscan⟩

theorem chain_hit_none {l : List ℕ} {k j : ℕ} (h : chain_hit v d scan l = none) (hk : k ∈ l)
    (hj : j < v.bpb.sectors_per_cluster) : scan (d (data_sector v k j)) = none := by
  unfold chain_hit at h
  have hcluster := Option.map_eq_none_iff.mp (List.findSome?_eq_none_iff.mp h k hk)
  unfold cluster_hit at hcluster
  exact Option.map_eq_none_iff.mp (List.findSome?_eq_none_iff.mp hcluster j (List.mem_range.mpr hj))

/-- A search along a chain that fails saw no hit in front of the end mark of any sector. -/
theorem chain_hit_scan_none {l : List ℕ} {k j i : ℕ} (h : chain_hit v d (hit_scan hit) l = none)
    (hk : k ∈ l) (hj : j < v.bpb.sectors_per_cluster) (hi : i < 16)
    (hmark : ∀ i' ≤ i, (slot v d k (16 * j + i')).name0 ≠ 0) :
    hit (slot v d k (16 * j + i)) = false := by
  rw [slot_eq_dir_entry hi]
  apply scan_entries_none (chain_hit_none h hk hj) (Nat.zero_le i) (by omega)
  intro i' _ hle
  have := hmark i' hle
  rwa [slot_eq_dir_entry (by omega)] at this

theorem findSome?_congr {α β : Type} {l : List α} {f g : α → Option β} (h : ∀ x ∈ l, f x = g x) :
    l.findSome? f = l.findSome? g := by
  induction l with
  | nil => rfl
  | cons x l ih =>
    simp only [List.findSome?_cons, h x (by simp), ih fun y hy => h y (by simp [hy])]

/-- A search depends on the sectors of the chain only. -/
theorem chain_hit_congr {l : List ℕ}
    (hsame : ∀ k ∈ l, ∀ j < v.bpb.sectors_per_cluster, d' (data_sector v k j) = d (data_sector v k j)) :
    chain_hit v d' scan l = chain_hit v d scan l := by
  apply findSome?_congr
  intro k hk
  congr 1
  apply findSome?_congr
  intro j hj
  rw [hsame k hk j (List.mem_range.mp hj)]

/-- A search depends on the end marks and hits among the slots of the chain. -/
theorem chain_hit_scan_congr {l : List ℕ}
    (hsame : ∀ k ∈ l, ∀ i < slots_per_cluster v,
      ((slot v d' k i).name0 = 0 ↔ (slot v d k i).name0 = 0) ∧ hit' (slot v d' k i) = hit (slot v d k i)) :
    chain_hit v d' (hit_scan hit') l = chain_hit v d (hit_scan hit) l := by
  apply findSome?_congr
  intro k hk
  congr 1
  apply findSome?_congr
  intro j hj
  congr 1
  apply scan_entries_congr
  intro i _ hi
  have h := hsame k hk (16 * j + i) (slot_index_lt (List.mem_range.mp hj) (by omega))
  rwa [slot_eq_dir_entry (by omega), slot_eq_dir_entry (by omega)] at h

theorem matches_name_iff {skip_lfn : Bool} {name : List UInt8 × List UInt8} {e : fat32_dir_entry_t} :
    matches_name skip_lfn name e = true ↔
      e.name0 ≠ 0xE5 ∧ (skip_lfn = true → e.attributes ≠ FAT_ATTR_LFN) ∧ e.name = name.1 ∧ e.ext = name.2 := by
  unfold matches_name
  cases skip_lfn <;> simp [and_assoc]

/-- The position of the first entry of a chain with the 8.3 form of `name`. -/
def lookup (v : Volume) (d : Disk) (skip_lfn : Bool) (l : List ℕ) (name : CStr) : Option (ℕ × ℕ × ℕ) :=
  chain_hit v d (hit_scan (matches_name skip_lfn (standardize_name name))) l

theorem Volume.Sane.find_name_eq (hv : v.Sane) {c : ℕ} {l : List ℕ} (hl : Cells v d c l) {fuel : ℕ}
    (hfuel : l.length < fuel) (skip_lfn : Bool) (name : CStr) :
    find_name v d skip_lfn fuel c name = some ((lookup v d skip_lfn l name).map (found_at v d)) :=
  hv.search_eq hl hfuel v.uninit

theorem found_at_entry {k j i : ℕ} (hi : i < 16) :
    (found_at v d (k, j, i)).entry = slot v d k (16 * j + i) := by
  rw [slot_eq_dir_entry hi]
  rfl

/-- What a successful name search found. -/
theorem lookup_some {skip_lfn : Bool} {l : List ℕ} {name : CStr} {k j i : ℕ}
    (h : lookup v d skip_lfn l name = some (k, j, i)) :
    k ∈ l ∧ j < v.bpb.sectors_per_cluster ∧ i < 16 ∧
      (slot v d k (16 * j + i)).name0 ≠ 0 ∧ (slot v d k (16 * j + i)).name0 ≠ 0xE5 ∧
      (skip_lfn = true → (slot v d k (16 * j + i)).attributes ≠ FAT_ATTR_LFN) ∧
      (slot v d k (16 * j + i)).name = standardize_base name ∧
      (slot v d k (16 * j + i)).ext = standardize_ext name := by
  obtain ⟨hk, hj, hscan⟩ := chain_hit_some h
  obtain ⟨_, hi, hhit, hname⟩ := scan_entries_some hscan
  obtain ⟨h1, h2, h3, h4⟩ := matches_name_iff.mp hhit
  rw [slot_eq_dir_entry (by omega)]
  exact ⟨hk, hj, by omega, hname, h1, h2, h3, h4⟩

/-- No end mark stands in front of entry `i` in sector `j` of cluster `k`, nor on it. -/
def Visible (v : Volume) (d : Disk) (k j i : ℕ) : Prop := ∀ i' ≤ i, (slot v d k (16 * j + i')).name0 ≠ 0

theorem lookup_visible {skip_lfn : Bool} {l : List ℕ} {name : CStr} {k j i : ℕ}
    (h : lookup v d skip_lfn l name = some (k, j, i)) : Visible v d k j i := by
  obtain ⟨_, _, hi, _⟩ := lookup_some h
  intro i' hle
  rw [slot_eq_dir_entry (by omega)]
  exact scan_entries_visible (chain_hit_some h).2.2 (Nat.zero_le i') hle

/-- An entry that takes up its 8.3 name: no end mark, not deleted, no long-name part. -/
def fat32_dir_entry_t.Occupied (e : fat32_dir_entry_t) : Prop :=
  e.name0 ≠ 0 ∧ e.name0 ≠ 0xE5 ∧ e.attributes ≠ FAT_ATTR_LFN

instance (e : fat32_dir_entry_t) : Decidable e.Occupied := inferInstanceAs (Decidable (_ ∧ _))

/-- Slot `i` of cluster `k` is one of the slots of the chain `l`, and taken. -/
def Taken (v : Volume) (d : Disk) (l : List ℕ) (s : ℕ × ℕ) : Prop :=
  s.1 ∈ l ∧ s.2 < slots_per_cluster v ∧ (slot v d s.1 s.2).Occupied

theorem lookup_occupied {l : List ℕ} {name : CStr} {k j i : ℕ} (h : lookup v d true l name = some (k, j, i)) :
    (slot v d k (16 * j + i)).Occupied := by
  obtain ⟨_, _, _, h0, h1, h2, _⟩ := lookup_some h
  exact ⟨h0, h1, h2 rfl⟩

end os_dev.fat32
