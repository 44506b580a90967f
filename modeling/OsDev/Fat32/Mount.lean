import OsDev.Fat32.FileIo
import OsDev.Fat32.Blank

open os_dev.ata os_dev.libc little_endian

namespace os_dev.fat32

variable {v : Volume} {partition_lba : ℕ}

/-- The number of sectors of the volume, from the 16-bit or the 32-bit field of the
    parameter block. The driver does not read them. -/
def fat32_bpb_t.total_sectors (bpb : fat32_bpb_t) : ℕ :=
  let raw := fun i => bpb.raw.getD i 0
  if le16 raw 0x13 = 0 then le32 raw 0x20 else le16 raw 0x13

/-- The number of data clusters: what the reserved sectors and the tables leave. -/
def fat32_bpb_t.data_clusters (bpb : fat32_bpb_t) : ℕ :=
  (bpb.total_sectors - bpb.reserved_sectors - bpb.num_fats * bpb.fat_size_32) / bpb.sectors_per_cluster

/-- Cluster `c` is one of the data clusters of the volume. -/
def Volume.DataCluster (v : Volume) (c : ℕ) : Prop := 2 ≤ c ∧ c < v.bpb.data_clusters + 2

/-- The arithmetic on the cached parameters of a volume at `partition_lba` is well
    defined, and different data clusters have different sectors, none of them in the
    allocation tables. -/
structure Addressable (v : Volume) (partition_lba : ℕ) : Prop where
  cluster_size : cluster_size v ≠ 0
  seek : ∀ st : Fat32, st.vol = v → ∀ fd pos, fat32_seek st fd pos ≠ none
  read_at : ∀ st : Fat32, st.vol = v → ∀ fd offset len, fat32_read_at st fd offset len ≠ none
  fat_lba : v.fat_lba = partition_lba + v.bpb.reserved_sectors
  data_lba : v.data_lba = partition_lba + v.bpb.reserved_sectors + v.bpb.num_fats * v.bpb.fat_size_32
  root_cluster : 2 ≤ v.bpb.root_cluster
  no_wrap : ∀ c s, v.DataCluster c → s < v.bpb.sectors_per_cluster → u32 (cluster_to_lba v c + s) = data_sector v c s
  injective : ∀ c c', v.DataCluster c → v.DataCluster c' → cluster_to_lba v c = cluster_to_lba v c' → c = c'
  apart : ∀ c s c' s', v.DataCluster c → s < v.bpb.sectors_per_cluster → v.DataCluster c' → s' < v.bpb.sectors_per_cluster →
    u32 (cluster_to_lba v c + s) = u32 (cluster_to_lba v c' + s') → c = c'
  off_table : ∀ c s, v.DataCluster c → s < v.bpb.sectors_per_cluster →
    ∀ i, i < v.bpb.fat_size_32 ∨ i < v.bpb.num_fats * v.bpb.fat_size_32 → u32 (cluster_to_lba v c + s) ≠ v.fat_lba + i

/-- What the fields of the parameter block must satisfy for that. -/
structure Fitting (bpb : fat32_bpb_t) (partition_lba : ℕ) : Prop where
  cluster_pos : bpb.sectors_per_cluster ≠ 0
  root_cluster : 2 ≤ bpb.root_cluster
  start : partition_lba + bpb.reserved_sectors + bpb.num_fats * bpb.fat_size_32 < 2 ^ 32
  addressable : partition_lba + bpb.reserved_sectors + bpb.num_fats * bpb.fat_size_32 +
    bpb.data_clusters * bpb.sectors_per_cluster ≤ 2 ^ 32
  tables : 0 < bpb.num_fats ∨ bpb.fat_size_32 = 0 ∨ bpb.data_clusters = 0

/-- What a successful mount has cached. -/
structure Cached (v : Volume) (partition_lba : ℕ) : Prop where
  fat_lba : v.fat_lba = u32 (partition_lba + v.bpb.reserved_sectors)
  data_lba : v.data_lba = u32 (v.fat_lba + u32 (v.bpb.num_fats * v.bpb.fat_size_32))

theorem fat32_mount_cached {st : Fat32} {lba_start : ℕ} (h : (fat32_mount st lba_start).1 = 0) :
    Cached (fat32_mount st lba_start).2.vol lba_start := by
  unfold fat32_mount at h ⊢
  simp only at h ⊢
  split at h
  · exact absurd (show (-1 : Int) = 0 from h) (by decide)
  · split at h
    · exact absurd (show (-1 : Int) = 0 from h) (by decide)
    · rename_i hread hbytes
      rw [if_neg hread, if_neg hbytes]
      exact ⟨rfl, rfl⟩

theorem fat32_seek_ne_none {st : Fat32} (h : cluster_size st.vol ≠ 0) (fd : Int) (pos : ℕ) : fat32_seek st fd pos ≠ none := by
  unfold fat32_seek
  cases handle st fd with
  | none => exact Option.some_ne_none _
  | some i => simp [h]

theorem fat32_read_at_ne_none {st : Fat32} (h : cluster_size st.vol ≠ 0) (fd : Int) (offset len : ℕ) :
    fat32_read_at st fd offset len ≠ none := by
  unfold fat32_read_at
  cases handle st fd with
  | none => exact Option.some_ne_none _
  | some i =>
    simp only [if_neg h]
    split
    · exact Option.some_ne_none _
    · split <;> exact Option.some_ne_none _

theorem Cached.lba_of_start (h : Cached v partition_lba)
    (hstart : partition_lba + v.bpb.reserved_sectors + v.bpb.num_fats * v.bpb.fat_size_32 < 2 ^ 32) :
    v.fat_lba = partition_lba + v.bpb.reserved_sectors ∧
      v.data_lba = partition_lba + v.bpb.reserved_sectors + v.bpb.num_fats * v.bpb.fat_size_32 := by
  have hfat := h.fat_lba
  have hdata := h.data_lba
  generalize v.bpb.num_fats * v.bpb.fat_size_32 = tables at hstart hdata ⊢
  unfold u32 at hfat hdata
  omega

/-- Where nothing wraps the sectors of the data clusters are those of the layout. -/
theorem Fitting.sector (h : Fitting v.bpb partition_lba)
    (hdata : v.data_lba = partition_lba + v.bpb.reserved_sectors + v.bpb.num_fats * v.bpb.fat_size_32) {c s : ℕ}
    (hc : v.DataCluster c) (hs : s < v.bpb.sectors_per_cluster) :
    data_sector v c s < 2 ^ 32 ∧ u32 (cluster_to_lba v c + s) = data_sector v c s := by
  obtain ⟨htwo, hlast⟩ := hc
  have hbound : (c - 2) * v.bpb.sectors_per_cluster + v.bpb.sectors_per_cluster ≤
      v.bpb.data_clusters * v.bpb.sectors_per_cluster := by
    rw [← Nat.succ_mul]
    exact Nat.mul_le_mul_right _ (by omega)
  have haddr := h.addressable
  have hlt : data_sector v c s < 2 ^ 32 := by
    unfold data_sector
    omega
  have hzero : data_sector v c s = data_sector v c 0 + s := by simp only [data_sector, Nat.add_zero]
  refine ⟨hlt, ?_⟩
  rw [cluster_to_lba_eq_of_lt htwo (by omega), ← hzero, u32_of_lt hlt]

theorem Cached.addressable_iff (h : Cached v partition_lba) : Addressable v partition_lba ↔ Fitting v.bpb partition_lba := by
  constructor
  · intro husable
    have hpos : v.bpb.sectors_per_cluster ≠ 0 := by
      have hsize := husable.cluster_size
      unfold fat32.cluster_size at hsize
      omega
    have hdata : v.data_lba < 2 ^ 32 := h.data_lba ▸ Nat.mod_lt _ (by decide)
    have hfirst : 0 < v.bpb.data_clusters → u32 (cluster_to_lba v 2 + 0) = v.data_lba := by
      intro hsome
      rw [husable.no_wrap 2 0 ⟨le_rfl, by omega⟩ (by omega)]
      simp [data_sector]
    refine ⟨hpos, husable.root_cluster, husable.data_lba ▸ hdata, ?_, ?_⟩
    · rw [← husable.data_lba]
      obtain hnone | hsome := Nat.eq_zero_or_pos v.bpb.data_clusters
      · rw [hnone]
        omega
      · have hlast := husable.no_wrap (v.bpb.data_clusters + 1) (v.bpb.sectors_per_cluster - 1) ⟨by omega, by omega⟩ (by omega)
        have hlt : data_sector v (v.bpb.data_clusters + 1) (v.bpb.sectors_per_cluster - 1) < 2 ^ 32 :=
          hlast ▸ Nat.mod_lt _ (by decide)
        have hsplit : v.bpb.data_clusters * v.bpb.sectors_per_cluster =
            (v.bpb.data_clusters + 1 - 2) * v.bpb.sectors_per_cluster + v.bpb.sectors_per_cluster := by
          rw [← Nat.succ_mul]
          congr 1
          omega
        unfold data_sector at hlt
        omega
    · by_contra hnot
      simp only [not_or, Nat.not_lt, Nat.le_zero] at hnot
      obtain ⟨hfats, htable, hclusters⟩ := hnot
      refine husable.off_table 2 0 ⟨le_rfl, by omega⟩ (by omega) 0 (.inl (by omega)) ?_
      rw [hfirst (by omega), husable.fat_lba, husable.data_lba, hfats, Nat.zero_mul]
  · intro hfit
    obtain ⟨hfat, hdata⟩ := h.lba_of_start hfit.start
    have hsize : fat32.cluster_size v ≠ 0 := by
      have hpos := hfit.cluster_pos
      unfold fat32.cluster_size
      omega
    have hsector : ∀ {c s}, v.DataCluster c → s < v.bpb.sectors_per_cluster →
        u32 (cluster_to_lba v c + s) = data_sector v c s := fun hc hs => (hfit.sector hdata hc hs).2
    have hpos : 0 < v.bpb.sectors_per_cluster := Nat.pos_of_ne_zero hfit.cluster_pos
    refine ⟨hsize, fun st hvol => fat32_seek_ne_none (hvol ▸ hsize), fun st hvol => fat32_read_at_ne_none (hvol ▸ hsize),
      hfat, hdata, hfit.root_cluster, fun c s => hsector, fun c c' hc hc' heq => ?_,
      fun c s c' s' hc hs hc' hs' heq => ?_, fun c s hc hs i hi heq => ?_⟩
    · have hsame : data_sector v c 0 = data_sector v c' 0 := by
        rw [← hsector hc hpos, ← hsector hc' hpos, heq]
      exact (data_sector_inj hc.1 hc'.1 hpos hpos hsame).1
    · rw [hsector hc hs, hsector hc' hs'] at heq
      exact (data_sector_inj hc.1 hc'.1 hs hs' heq).1
    · have hle := data_lba_le_data_sector (v := v) c s
      rw [hsector hc hs] at heq
      have hclusters : v.bpb.data_clusters ≠ 0 := by
        have := hc.1
        have := hc.2
        omega
      have hin : i < v.bpb.num_fats * v.bpb.fat_size_32 := by
        obtain hfirst | hin := hi
        · have hfats : 0 < v.bpb.num_fats := hfit.tables.resolve_right (by omega)
          exact lt_of_lt_of_le hfirst (Nat.le_mul_of_pos_left _ hfats)
        · exact hin
      omega

/-- A mounted volume is usable exactly if its parameter block fits. -/
theorem fat32_mount_usable_iff {st : Fat32} {lba_start : ℕ} (h : (fat32_mount st lba_start).1 = 0) :
    Addressable (fat32_mount st lba_start).2.vol lba_start ↔ Fitting (fat32_mount st lba_start).2.vol.bpb lba_start :=
  (fat32_mount_cached h).addressable_iff

theorem fat32_mount_usable_iff_booted :
    Addressable (fat32_mount { booted_state with mounted := false } 0).2.vol 0 ↔
      Fitting (fat32_mount { booted_state with mounted := false } 0).2.vol.bpb 0 :=
  fat32_mount_usable_iff (by rw [mount_boot])

/-- A boot sector of 512-byte sectors, and no other field set. -/
def bare_boot_sector : Sector := fun i => if i.val = 0x0C then 2 else 0

def bare_boot_state : Fat32 := { small_state with disk := fun _ => bare_boot_sector, mounted := false }

/-- It is mounted with a cluster size of zero. -/
theorem bare_mount_not_usable : (fat32_mount bare_boot_state 0).1 = 0 ∧ ¬ Addressable (fat32_mount bare_boot_state 0).2.vol 0 := by
  have hread : ata_read_sectors small_volume.drive bare_boot_state.disk 0 small_volume.uninit = (0, bare_boot_sector) :=
    read_of_holds (by decide)
  have hbytes : (bpb_of_sector bare_boot_sector).bytes_per_sector = 512 := by decide +kernel
  have hsize : (bpb_of_sector bare_boot_sector).sectors_per_cluster = 0 := by decide +kernel
  have hvol : bare_boot_state.vol = small_volume := rfl
  simp only [fat32_mount, hvol, hread, hbytes]
  refine ⟨rfl, fun husable => husable.cluster_size ?_⟩
  simp [cluster_size, hsize]

end os_dev.fat32
