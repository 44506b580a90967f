import OsDev.Fat32.Blank
import OsDev.Fat32.Mount
import Mathlib.Order.Bounds.Basic

open os_dev.ata os_dev.libc little_endian

namespace os_dev.fat32

variable {v : Volume} {partition_lba : ℕ}

/-- A volume at `partition_lba` whose sizes agree with each other and with the drive. The
    allocation table has a word for every data cluster, and as a rule more. -/
structure Consistent (v : Volume) (partition_lba : ℕ) : Prop where
  present : v.drive.drive_present = true
  addressable : v.drive.total_sectors ≤ 2 ^ 32
  on_drive : partition_lba + v.bpb.total_sectors ≤ v.drive.total_sectors
  cluster_pos : 0 < v.bpb.sectors_per_cluster
  fats_pos : 0 < v.bpb.num_fats
  fat_lba : v.fat_lba = partition_lba + v.bpb.reserved_sectors
  data_lba : v.data_lba = v.fat_lba + v.bpb.num_fats * v.bpb.fat_size_32
  fits : v.bpb.reserved_sectors + v.bpb.num_fats * v.bpb.fat_size_32 ≤ v.bpb.total_sectors
  table : v.bpb.data_clusters + 2 ≤ 128 * v.bpb.fat_size_32

theorem Consistent.table_le (h : Consistent v partition_lba) : v.bpb.fat_size_32 ≤ v.bpb.num_fats * v.bpb.fat_size_32 :=
  Nat.le_mul_of_pos_left _ h.fats_pos

theorem Consistent.table_readable (h : Consistent v partition_lba) : v.TableReadable := by
  intro s hs
  have hle := h.table_le
  obtain ⟨hpresent, haddr, hdrive, -, -, hfat, -, hfits, -⟩ := h
  exact ⟨⟨hpresent, by omega⟩, by omega⟩

/-- The data clusters fill the volume up to its end. -/
theorem Consistent.clusters_fit (h : Consistent v partition_lba) :
    v.data_lba + v.bpb.data_clusters * v.bpb.sectors_per_cluster ≤ partition_lba + v.bpb.total_sectors := by
  have hdiv := Nat.div_mul_le_self (v.bpb.total_sectors - v.bpb.reserved_sectors - v.bpb.num_fats * v.bpb.fat_size_32)
    v.bpb.sectors_per_cluster
  have hfat := h.fat_lba
  have hdata := h.data_lba
  have hfits := h.fits
  unfold fat32_bpb_t.data_clusters
  omega

theorem Consistent.number_lt (h : Consistent v partition_lba) {c : ℕ} (hc : c < v.bpb.data_clusters + 2) : c < 2 ^ 32 := by
  have hclusters := Nat.le_mul_of_pos_right v.bpb.data_clusters h.cluster_pos
  have hfit := h.clusters_fit
  have hle := h.table_le
  obtain ⟨-, haddr, hdrive, -, -, hfat, hdata, -, htable⟩ := h
  omega

/-- The sectors of a data cluster, as the driver addresses them, lie on the volume. -/
theorem Consistent.sector (h : Consistent v partition_lba) {c s : ℕ} (hc : v.DataCluster c)
    (hs : s < v.bpb.sectors_per_cluster) :
    v.data_lba ≤ u32 (cluster_to_lba v c + s) ∧ u32 (cluster_to_lba v c + s) < partition_lba + v.bpb.total_sectors := by
  obtain ⟨htwo, hlast⟩ := hc
  have hbound : (c - 2) * v.bpb.sectors_per_cluster + v.bpb.sectors_per_cluster ≤
      v.bpb.data_clusters * v.bpb.sectors_per_cluster := by
    rw [← Nat.succ_mul]
    exact Nat.mul_le_mul_right _ (by omega)
  have hfit := h.clusters_fit
  have haddr := h.addressable
  have hdrive := h.on_drive
  have hzero : data_sector v c 0 = v.data_lba + (c - 2) * v.bpb.sectors_per_cluster := rfl
  rw [cluster_to_lba_eq_of_lt htwo (by omega), hzero, u32_of_lt (by omega)]
  omega

/-- The search finds the lowest free data cluster, with all its sectors on the volume, or
    gives 0 when no data cluster is free. -/
def FindsFree (v : Volume) (partition_lba : ℕ) (d : Disk) : Prop :=
  (find_free_cluster v d = 0 ∧ ∀ c, v.DataCluster c → ¬ IsFree v d c) ∨
    (IsLeast {c | v.DataCluster c ∧ IsFree v d c} (find_free_cluster v d) ∧
      ∀ s < v.bpb.sectors_per_cluster, v.data_lba ≤ u32 (cluster_to_lba v (find_free_cluster v d) + s) ∧
        u32 (cluster_to_lba v (find_free_cluster v d) + s) < partition_lba + v.bpb.total_sectors)

/-- The search is right exactly if some data cluster is free, or no word behind those of
    the data clusters stops it. -/
theorem find_free_cluster_iff (h : Consistent v partition_lba) (d : Disk) :
    FindsFree v partition_lba d ↔
      (∃ c, v.DataCluster c ∧ IsFree v d c) ∨ ∀ i, v.bpb.data_clusters + 2 ≤ i → v.InTable i → ¬ Hit v d i := by
  have hspec := h.table_readable.find_free_cluster_spec d
  have hdata : ∀ {i}, i < v.bpb.data_clusters + 2 → u32 i = i := fun hi => u32_of_lt (h.number_lt hi)
  constructor
  · rintro (⟨hzero, hnone⟩ | ⟨hleast, -⟩)
    · obtain ⟨-, hnohit⟩ | ⟨i, hres, -, ⟨-, htwo⟩, -⟩ := hspec
      · exact .inr fun i _ hi => hnohit i hi
      · omega
    · exact .inl ⟨_, hleast.1⟩
  · intro hcond
    by_cases hsome : ∃ c, v.DataCluster c ∧ IsFree v d c
    · obtain ⟨c, hc, hfree⟩ := hsome
      have htable : ∀ {c}, v.DataCluster c → IsFree v d c → v.InTable c ∧ Hit v d c := by
        rintro c ⟨htwo, hlast⟩ hfree
        exact ⟨lt_of_lt_of_le hlast h.table, hfree, by rwa [hdata hlast]⟩
      obtain ⟨-, hnohit⟩ | ⟨i, hres, -, ⟨hfree', htwo⟩, hfirst⟩ := hspec
      · exact absurd (htable hc hfree).2 (hnohit c (htable hc hfree).1)
      · have hle : ∀ {c}, v.DataCluster c → IsFree v d c → i ≤ c := fun hc hfree =>
          Nat.le_of_not_lt fun hlt => hfirst _ hlt (htable hc hfree).2
        have hlast : i < v.bpb.data_clusters + 2 := lt_of_le_of_lt (hle hc hfree) hc.2
        rw [hdata hlast] at hres htwo
        rw [FindsFree, hres]
        exact .inr ⟨⟨⟨⟨htwo, hlast⟩, hfree'⟩, fun c hmem => hle hmem.1 hmem.2⟩, fun s hs => h.sector ⟨htwo, hlast⟩ hs⟩
    · have hnone : ∀ c, v.DataCluster c → ¬ IsFree v d c := fun c hc hfree => hsome ⟨c, hc, hfree⟩
      obtain ⟨hzero, -⟩ | ⟨i, -, hin, hhit, -⟩ := hspec
      · exact .inl ⟨hzero, hnone⟩
      · by_cases hlast : i < v.bpb.data_clusters + 2
        · have htwo := hhit.2
          rw [hdata hlast] at htwo
          exact absurd hhit.1 (hnone i ⟨htwo, hlast⟩)
        · exact absurd hhit (hcond.resolve_left hsome i (by omega) hin)

theorem tight_clusters : tight_volume.bpb.data_clusters = 6 := by decide +kernel

theorem tight_consistent : Consistent tight_volume 0 where
  present := rfl
  addressable := by decide
  on_drive := by decide +kernel
  cluster_pos := by decide
  fats_pos := by decide
  fat_lba := rfl
  data_lba := rfl
  fits := by decide +kernel
  table := by decide +kernel

/-- The words of the clusters 0 to 7 are taken, the others zero. -/
def full_disk : Disk := fun _ i => if i.val < 32 then 0xF8 else 0

theorem find_free_cluster_iff_full : FindsFree tight_volume 0 full_disk ↔
    (∃ c, tight_volume.DataCluster c ∧ IsFree tight_volume full_disk c) ∨
      ∀ i, tight_volume.bpb.data_clusters + 2 ≤ i → tight_volume.InTable i → ¬ Hit tight_volume full_disk i :=
  find_free_cluster_iff tight_consistent full_disk

/-- On the full volume the search gives out the cluster behind the last one. -/
theorem full_search_leaves_volume : Consistent tight_volume 0 ∧
    (∀ c, tight_volume.DataCluster c → ¬ IsFree tight_volume full_disk c) ∧ find_free_cluster tight_volume full_disk = 8 ∧
    ¬ FindsFree tight_volume 0 full_disk ∧ ¬ tight_volume.drive.Holds (u32 (cluster_to_lba tight_volume 8)) := by
  have hfound : find_free_cluster tight_volume full_disk = 8 := by decide +kernel
  have hnone : ∀ c, tight_volume.DataCluster c → ¬ IsFree tight_volume full_disk c := by
    rintro c ⟨htwo, hlast⟩
    rw [tight_clusters] at hlast
    obtain rfl | rfl | rfl | rfl | rfl | rfl : c = 2 ∨ c = 3 ∨ c = 4 ∨ c = 5 ∨ c = 6 ∨ c = 7 := by omega
    all_goals decide +kernel
  refine ⟨tight_consistent, hnone, hfound, ?_, by decide +kernel⟩
  rintro (⟨hzero, -⟩ | ⟨hleast, -⟩)
  · exact absurd (hfound.symm.trans hzero) (by decide)
  · exact hnone _ hleast.1.1 hleast.1.2

end os_dev.fat32
