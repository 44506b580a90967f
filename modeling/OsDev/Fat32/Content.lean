import OsDev.Fat32.FileIo
import OsDev.Fat32.View

open os_dev.ata os_dev.libc link_chain

namespace os_dev.fat32

variable {v : Volume} {d d' : Disk} {c : ℕ} {l : List ℕ}

/-- A cluster that can be read: no special mark, and all its sectors are on the drive. -/
structure Volume.Readable (v : Volume) (c : ℕ) : Prop where
  two_le : 2 ≤ c
  lt_bad : c < FAT32_BAD
  holds : ∀ j < v.bpb.sectors_per_cluster, data_sector v c j < 2 ^ 32 ∧ v.drive.Holds (data_sector v c j)

theorem Volume.Sane.readable (hv : v.Sane) (hc : v.InRange c) : v.Readable c :=
  ⟨hc.1, hc.2.1, fun _ hj => ⟨(hv.sector_bound hc hj).2, hv.present, (hv.sector_bound hc hj).1⟩⟩

theorem Volume.Readable.ne_eoc (h : v.Readable c) : c ≠ FAT32_EOC := by
  have hlt := h.lt_bad
  unfold FAT32_BAD at hlt
  unfold FAT32_EOC
  omega

theorem Volume.Readable.ne_bad (h : v.Readable c) : c ≠ FAT32_BAD := h.lt_bad.ne

theorem Volume.Readable.read_sector (h : v.Readable c) {j : ℕ} (hj : j < v.bpb.sectors_per_cluster) (d : Disk)
    (buf : Sector) :
    ata_read_sectors v.drive d (u32 (cluster_to_lba v c + j)) buf = (0, d (data_sector v c j)) := by
  obtain ⟨hlt, hholds⟩ := h.holds j hj
  have hzero : data_sector v c j = data_sector v c 0 + j := rfl
  have hfirst : data_sector v c 0 < 2 ^ 32 := by omega
  rw [cluster_to_lba_eq_of_lt h.two_le hfirst, ← hzero, u32_of_lt hlt]
  exact read_of_holds hholds

/-- The clusters of a file, in order, each of them readable. -/
abbrev FileChain (v : Volume) (d : Disk) (c : ℕ) (l : List ℕ) : Prop :=
  Chain v.Readable (get_next_cluster v d) FAT32_EOC c l

theorem Cells.fileChain (hv : v.Sane) (h : Cells v d c l) : FileChain v d c l :=
  Chain.mono h fun _ hx => hv.readable hx

/-- The data of one cluster. -/
def cluster_data (v : Volume) (d : Disk) (c : ℕ) : List UInt8 :=
  (List.range v.bpb.sectors_per_cluster).flatMap fun j => Sector.slice (d (data_sector v c j)) 0 512

/-- The concatenated data of the clusters of a file. -/
def chain_data (v : Volume) (d : Disk) (l : List ℕ) : List UInt8 := l.flatMap (cluster_data v d)

/-- The content of a file: the data of its clusters, cut to its size. -/
def file_content (v : Volume) (d : Disk) (l : List ℕ) (size : ℕ) : List UInt8 := (chain_data v d l).take size

/-- Sector `m` of the file with the clusters `l`. -/
def file_sector (v : Volume) (d : Disk) (l : List ℕ) (m : ℕ) : Sector :=
  d (data_sector v (l.getD (m / v.bpb.sectors_per_cluster) FAT32_EOC) (m % v.bpb.sectors_per_cluster))

def file_byte (v : Volume) (d : Disk) (l : List ℕ) (pos : ℕ) : UInt8 := (file_sector v d l (pos / 512)).byte (pos % 512)

/-- `count` bytes of a file from `offset` on. -/
def file_slice (v : Volume) (d : Disk) (l : List ℕ) (offset count : ℕ) : List UInt8 :=
  (List.range count).map fun k => file_byte v d l (offset + k)

theorem file_slice_length (offset count : ℕ) : (file_slice v d l offset count).length = count := by
  rw [file_slice, List.length_map, List.length_range]

theorem file_slice_append (offset m n : ℕ) :
    file_slice v d l offset m ++ file_slice v d l (offset + m) n = file_slice v d l offset (m + n) := by
  rw [file_slice, file_slice, file_slice, List.range_add, List.map_append, List.map_map]
  congr 1
  refine List.map_congr_left fun k _ => ?_
  rw [Function.comp_apply, Nat.add_assoc]

theorem slice_length (buf : Sector) (offset count : ℕ) : (Sector.slice buf offset count).length = count := by
  rw [Sector.slice, List.length_map, List.length_range]

/-- Blocks of one length, concatenated, byte by byte. -/
theorem flatMap_blocks {f : ℕ → List UInt8} {n : ℕ} (hn : 0 < n) (hlen : ∀ x, (f x).length = n) (l : List ℕ)
    (stop : ℕ) :
    l.flatMap f = (List.range (l.length * n)).map fun p => (f (l.getD (p / n) stop)).getD (p % n) 0 := by
  induction l with
  | nil => rw [List.length_nil, Nat.zero_mul, List.range_zero, List.map_nil, List.flatMap_nil]
  | cons x l ih =>
    rw [List.flatMap_cons, ih, List.length_cons, Nat.succ_mul, Nat.add_comm (l.length * n), List.range_add,
      List.map_append, List.map_map]
    congr 1
    · refine List.ext_getElem (by rw [hlen, List.length_map, List.length_range]) fun p hp hp' => ?_
      rw [hlen] at hp
      rw [List.getElem_map, List.getElem_range, Nat.div_eq_of_lt hp, Nat.mod_eq_of_lt hp, List.getD_cons_zero,
        List.getD_eq_getElem]
    · refine List.map_congr_left fun p _ => ?_
      rw [Function.comp_apply, Nat.add_div_left p hn, Nat.add_mod_left, List.getD_cons_succ]

theorem cluster_data_length (c : ℕ) : (cluster_data v d c).length = cluster_size v := by
  rw [cluster_data, List.length_flatMap, cluster_size]
  simp only [slice_length, List.map_const', List.sum_replicate_nat, List.length_range]

theorem chain_data_length (l : List ℕ) : (chain_data v d l).length = l.length * cluster_size v := by
  rw [chain_data, List.length_flatMap]
  simp only [cluster_data_length, List.map_const', List.sum_replicate_nat]

section

variable (hpos : 0 < v.bpb.sectors_per_cluster)

theorem cluster_size_eq (v : Volume) : cluster_size v = 512 * v.bpb.sectors_per_cluster := Nat.mul_comm _ _

theorem div_cluster_size (pos : ℕ) : pos / cluster_size v = pos / 512 / v.bpb.sectors_per_cluster := by
  rw [cluster_size_eq, Nat.div_div_eq_div_mul]

theorem mod_cluster_size_div (pos : ℕ) : pos % cluster_size v / 512 = pos / 512 % v.bpb.sectors_per_cluster := by
  rw [cluster_size_eq, Nat.mod_mul_right_div_self]

theorem mod_cluster_size_mod (pos : ℕ) : pos % cluster_size v % 512 = pos % 512 := by
  rw [cluster_size_eq, Nat.mod_mul_right_mod]

include hpos in
theorem cluster_size_pos : 0 < cluster_size v := Nat.mul_pos hpos (by decide)

include hpos in
theorem chain_data_eq (l : List ℕ) : chain_data v d l = file_slice v d l 0 (l.length * cluster_size v) := by
  rw [chain_data, flatMap_blocks (cluster_size_pos hpos) cluster_data_length l FAT32_EOC, file_slice]
  refine List.map_congr_left fun pos _ => ?_
  have hmod : pos % cluster_size v < cluster_size v := Nat.mod_lt _ (cluster_size_pos hpos)
  have hsector : pos / 512 % v.bpb.sectors_per_cluster < (List.range v.bpb.sectors_per_cluster).length := by
    rw [List.length_range]
    exact Nat.mod_lt _ hpos
  rw [cluster_data, flatMap_blocks (by decide) (fun j => slice_length _ 0 512) _ 0, List.length_range]
  change (List.map _ (List.range (cluster_size v))).getD _ _ = _
  rw [List.getD_eq_getElem _ _ (by rwa [List.length_map, List.length_range]), List.getElem_map, List.getElem_range,
    mod_cluster_size_div, mod_cluster_size_mod, List.getD_eq_getElem _ _ hsector, List.getElem_range, div_cluster_size,
    Sector.slice, List.getD_eq_getElem _ _ (by simp; omega), List.getElem_map, List.getElem_range, Nat.zero_add, Nat.zero_add,
    file_byte, file_sector]

include hpos in
/-- A step inside of a sector ends in the cluster or exactly at its end. -/
theorem mod_add_le {pos n : ℕ} (hsector : pos % 512 + n ≤ 512) : pos % cluster_size v + n ≤ cluster_size v := by
  have hlt : pos / 512 % v.bpb.sectors_per_cluster < v.bpb.sectors_per_cluster := Nat.mod_lt _ hpos
  have hmod := mod_cluster_size_mod (v := v) pos
  have hdiv := mod_cluster_size_div (v := v) pos
  have hsize := cluster_size_eq v
  omega

include hpos in
theorem place_next {pos n : ℕ} (hsector : pos % 512 + n ≤ 512) (hend : cluster_size v ≤ pos % cluster_size v + n) :
    (pos + n) / cluster_size v = pos / cluster_size v + 1 ∧ (pos + n) % cluster_size v = 0 := by
  have hcs := cluster_size_pos hpos
  have hle := mod_add_le hpos hsector
  have hsplit := Nat.div_add_mod pos (cluster_size v)
  have heq : pos + n = cluster_size v * (pos / cluster_size v + 1) := by
    rw [Nat.mul_add, Nat.mul_one]
    omega
  rw [heq]
  exact ⟨Nat.mul_div_cancel_left _ hcs, Nat.mul_mod_right _ _⟩

theorem place_same (pos n : ℕ) (hlt : pos % cluster_size v + n < cluster_size v) :
    (pos + n) / cluster_size v = pos / cluster_size v ∧ (pos + n) % cluster_size v = pos % cluster_size v + n := by
  have hsplit := Nat.div_add_mod pos (cluster_size v)
  have heq : pos + n = cluster_size v * (pos / cluster_size v) + (pos % cluster_size v + n) := by omega
  rw [heq, Nat.mul_add_div (by omega), Nat.mul_add_mod, Nat.div_eq_of_lt hlt, Nat.mod_eq_of_lt hlt]
  exact ⟨rfl, rfl⟩

/-- The bytes of one sector of a file. -/
theorem slice_file_sector {pos n : ℕ} (hsector : pos % 512 + n ≤ 512) :
    Sector.slice (file_sector v d l (pos / 512)) (pos % 512) n = file_slice v d l pos n := by
  refine List.map_congr_left fun k hk => ?_
  rw [List.mem_range] at hk
  rw [file_byte, show (pos + k) / 512 = pos / 512 by omega, show (pos + k) % 512 = pos % 512 + k by omega]

/-- The place in a chain of `pos` bytes from its start: the cluster, the mark behind the last one
    included, and the offset in it. -/
def cluster_at (v : Volume) (l : List ℕ) (pos : ℕ) : ℕ := l.getD (pos / cluster_size v) FAT32_EOC

theorem cluster_at_of_le {pos : ℕ} (hcs : 0 < cluster_size v) (h : l.length * cluster_size v ≤ pos) :
    cluster_at v l pos = FAT32_EOC := by
  refine List.getD_eq_default _ _ ?_
  exact (Nat.le_div_iff_mul_le hcs).mpr h

theorem cluster_at_mem {pos : ℕ} (h : pos < l.length * cluster_size v) : cluster_at v l pos ∈ l := by
  have hlt : pos / cluster_size v < l.length := Nat.div_lt_of_lt_mul (by rwa [Nat.mul_comm])
  rw [cluster_at, List.getD_eq_getElem _ _ hlt]
  exact List.getElem_mem hlt

theorem file_sector_of_place (d : Disk) (l : List ℕ) (pos : ℕ) :
    file_sector v d l (pos / 512) = d (data_sector v (cluster_at v l pos) (pos % cluster_size v / 512)) := by
  rw [file_sector, cluster_at, div_cluster_size, mod_cluster_size_div]

include hpos in
/-- The loop of `fat32_read_at` on a chain, from any place in it: it delivers the bytes of the chain
    from there on, up to the end of the chain, and stops at the place behind them. -/
theorem read_at_loop_eq (hbyte : v.bpb.sectors_per_cluster < 256) (h : FileChain v d c l) {stops : ℕ → Bool}
    (hstops : ∀ x, v.Readable x → stops x = false) (heoc : stops FAT32_EOC = true) (len n pos bytes_read : ℕ)
    (hn : len - bytes_read ≤ n) :
    read_at_loop v d stops len n (cluster_at v l pos) (pos % cluster_size v) bytes_read =
      (file_slice v d l pos (min (len - bytes_read) (l.length * cluster_size v - pos)),
        cluster_at v l (pos + min (len - bytes_read) (l.length * cluster_size v - pos)),
        (pos + min (len - bytes_read) (l.length * cluster_size v - pos)) % cluster_size v) := by
  have hcs := cluster_size_pos hpos
  have hsize := cluster_size_eq v
  induction n generalizing pos bytes_read with
  | zero =>
    rw [Nat.le_zero.mp hn, Nat.zero_min]
    rfl
  | succ n ih =>
    by_cases hmore : bytes_read < len
    case neg =>
      rw [show len - bytes_read = 0 by omega, Nat.zero_min, read_at_loop, if_neg hmore]
      rfl
    by_cases hend : l.length * cluster_size v ≤ pos
    case pos =>
      rw [Nat.sub_eq_zero_of_le hend, Nat.min_zero, read_at_loop, if_pos hmore, cluster_at_of_le hcs hend, if_pos heoc,
        Nat.add_zero, cluster_at_of_le hcs hend]
      rfl
    have hmem := cluster_at_mem (show pos < l.length * cluster_size v by omega)
    have hreadable := h.ok_of_mem hmem
    have hmod : pos % cluster_size v < cluster_size v := Nat.mod_lt _ hcs
    have hsector : pos % cluster_size v / 512 < v.bpb.sectors_per_cluster := by omega
    have hread := hreadable.read_sector hsector d v.uninit
    rw [← file_sector_of_place d l pos] at hread
    simp only [read_at_loop, if_pos hmore, hstops _ hreadable, Bool.false_eq_true, if_false, hread, ne_eq, not_true_eq_false,
      mod_cluster_size_mod]
    generalize hcan : min (512 - pos % 512) (len - bytes_read) = can
    have hstep : pos % 512 + can ≤ 512 := by omega
    have hle := mod_add_le hpos hstep
    -- the chain ends on a sector boundary
    have hcap : pos + can ≤ l.length * cluster_size v := by
      have hcap := Nat.mul_comm l.length (512 * v.bpb.sectors_per_cluster)
      rw [Nat.mul_assoc, ← hsize] at hcap
      omega
    have hplace : (if u32 (pos % cluster_size v + can) ≥ cluster_size v then
          (get_next_cluster v d (cluster_at v l pos), 0) else (cluster_at v l pos, u32 (pos % cluster_size v + can))) =
        (cluster_at v l (pos + can), (pos + can) % cluster_size v) := by
      rw [u32_of_lt (by omega)]
      split
      · obtain ⟨hdiv, hzero⟩ := place_next hpos hstep (by assumption)
        have hindex : pos / cluster_size v < l.length := Nat.div_lt_of_lt_mul (by rw [Nat.mul_comm]; omega)
        rw [cluster_at, cluster_at, hdiv, hzero, h.next_getD hindex]
      · obtain ⟨hdiv, hoff⟩ := place_same (v := v) pos can (by omega)
        rw [cluster_at, cluster_at, hdiv, hoff]
    rw [hplace]
    simp only []
    rw [ih (pos + can) (bytes_read + can) (by omega)]
    have hsum : min (len - bytes_read) (l.length * cluster_size v - pos) =
        can + min (len - (bytes_read + can)) (l.length * cluster_size v - (pos + can)) := by omega
    rw [hsum, ← file_slice_append, slice_file_sector hstep, Nat.add_assoc]

end

end os_dev.fat32
