import OsDev.Fat32.Reading
import OsDev.Fat32.Handles

open os_dev.ata os_dev.libc link_chain

namespace os_dev.fat32

variable {v : Volume} {d d' d'' : Disk} {c : ℕ} {l : List ℕ} {file : fat32_file_t} {pos : ℕ}

/-- The file with the clusters `l` has grown by the clusters `new` and has `bytes` at `pos`;
    everything else is as it was. -/
structure Wrote (v : Volume) (d d' : Disk) (l new : List ℕ) (pos : ℕ) (bytes : List UInt8) : Prop where
  room : pos + bytes.length ≤ (l ++ new).length * cluster_size v
  content : ∀ p < (l ++ new).length * cluster_size v, file_byte v d' (l ++ new) p =
    if pos ≤ p ∧ p < pos + bytes.length then bytes.getD (p - pos) 0
    else if p < l.length * cluster_size v then file_byte v d l p else 0
  fresh : ∀ x ∈ new, v.InRange x ∧ IsFree v d x
  words : ∀ x, v.InTable x → x ∉ l ++ new → fat_word v d' x = fat_word v d x
  sectors : ∀ lba, v.data_lba ≤ lba → (∀ x ∈ l ++ new, ∀ j < v.bpb.sectors_per_cluster, lba ≠ data_sector v x j) →
    d' lba = d lba

theorem Wrote.refl (hpos : pos ≤ l.length * cluster_size v) : Wrote v d d l [] pos [] := by
  refine ⟨by rwa [List.append_nil], fun p hp => ?_, fun _ hx => (by cases hx), fun _ _ _ => rfl, fun _ _ _ => rfl⟩
  rw [List.append_nil] at hp ⊢
  rw [List.length_nil, Nat.add_zero, if_neg (by omega), if_pos hp]

theorem Wrote.trans {new new' : List ℕ} {bytes bytes' : List UInt8} (hv : v.Sane) (hl : Cells v d' c (l ++ new))
    (h : Wrote v d d' l new pos bytes) (h' : Wrote v d' d'' (l ++ new) new' (pos + bytes.length) bytes') :
    Wrote v d d'' l (new ++ new') pos (bytes ++ bytes') := by
  have hroom := h.room
  have hroom' := h'.room
  have hmono : (l ++ new).length * cluster_size v ≤ (l ++ new ++ new').length * cluster_size v :=
    Nat.mul_le_mul_right _ (by simp only [List.length_append]; omega)
  refine ⟨?_, fun p hp => ?_, fun x hx => ?_, fun x hx hout => ?_, fun lba hlba hout => ?_⟩
  · rw [← List.append_assoc, List.length_append, ← Nat.add_assoc]
    exact hroom'
  · rw [← List.append_assoc] at hp ⊢
    have hcap : l.length * cluster_size v ≤ (l ++ new).length * cluster_size v :=
      Nat.mul_le_mul_right _ (by rw [List.length_append]; omega)
    rw [h'.content p hp, show (bytes ++ bytes').length = bytes.length + bytes'.length from List.length_append]
    by_cases hsecond : pos + bytes.length ≤ p ∧ p < pos + bytes.length + bytes'.length
    · rw [if_pos hsecond, if_pos (by omega), List.getD_append_right _ _ _ _ (by omega), Nat.sub_add_eq]
    · rw [if_neg hsecond]
      by_cases hfirst : pos ≤ p ∧ p < pos + bytes.length
      · rw [if_pos (by omega), h.content p (by omega), if_pos hfirst, if_pos (by omega), List.getD_append _ _ _ _ (by omega)]
      · rw [if_neg (show ¬ (pos ≤ p ∧ p < pos + (bytes.length + bytes'.length)) by omega)]
        by_cases hold : p < (l ++ new).length * cluster_size v
        · rw [if_pos hold, h.content p hold, if_neg hfirst]
        · rw [if_neg hold, if_neg (by omega)]
  · obtain hx | hx := List.mem_append.mp hx
    · exact h.fresh x hx
    · obtain ⟨hin, hfree⟩ := h'.fresh x hx
      -- a cluster that is free now is none of the file's, so it was free before
      have hout : x ∉ l ++ new := fun hmem => Cells.not_free hv hl hmem hfree
      exact ⟨hin, (isFree_congr (h.words x hin.inTable hout)).mp hfree⟩
  · rw [← List.append_assoc] at hout
    rw [h'.words x hx hout, h.words x hx fun hmem => hout (List.mem_append_left new' hmem)]
  · rw [← List.append_assoc] at hout
    rw [h'.sectors lba hlba hout, h.sectors lba hlba fun x hx => hout x (List.mem_append_left new' hx)]

/-- Different sectors of a file lie at different addresses. -/
theorem file_sector_inj (hl : Cells v d c l) {m m' : ℕ} (hpos : 0 < v.bpb.sectors_per_cluster)
    (hm : m < l.length * v.bpb.sectors_per_cluster) (hm' : m' < l.length * v.bpb.sectors_per_cluster)
    (h : data_sector v (l.getD (m / v.bpb.sectors_per_cluster) FAT32_EOC) (m % v.bpb.sectors_per_cluster) =
      data_sector v (l.getD (m' / v.bpb.sectors_per_cluster) FAT32_EOC) (m' % v.bpb.sectors_per_cluster)) : m = m' := by
  have hnodup := Chain.nodup (not_inRange_eoc (v := v)) hl
  have hq : m / v.bpb.sectors_per_cluster < l.length := Nat.div_lt_of_lt_mul (by rwa [Nat.mul_comm])
  have hq' : m' / v.bpb.sectors_per_cluster < l.length := Nat.div_lt_of_lt_mul (by rwa [Nat.mul_comm])
  rw [List.getD_eq_getElem _ _ hq, List.getD_eq_getElem _ _ hq'] at h
  obtain ⟨hcluster, hmod⟩ := data_sector_inj (hl.inRange (List.getElem_mem hq)).1 (hl.inRange (List.getElem_mem hq')).1
    (Nat.mod_lt _ hpos) (Nat.mod_lt _ hpos) h
  have hdiv := (hnodup.getElem_inj_iff).mp hcluster
  rw [← Nat.div_add_mod m v.bpb.sectors_per_cluster, ← Nat.div_add_mod m' v.bpb.sectors_per_cluster, hdiv, hmod]

theorem sector_lt_of_pos_lt {p : ℕ} (h : p < l.length * cluster_size v) : p / 512 < l.length * v.bpb.sectors_per_cluster := by
  rw [cluster_size_eq, Nat.mul_left_comm] at h
  omega

/-- The bytes of a file after a write to one of its sectors. -/
theorem file_byte_update (hl : Cells v d c l) (hv : v.Sane) {p : ℕ} (hpos : pos < l.length * cluster_size v)
    (hp : p < l.length * cluster_size v) (buf : Sector) :
    file_byte v (Function.update d (data_sector v (cluster_at v l pos) (pos % cluster_size v / 512)) buf) l p =
      if p / 512 = pos / 512 then buf.byte (p % 512) else file_byte v d l p := by
  have haddr : data_sector v (cluster_at v l pos) (pos % cluster_size v / 512) =
      data_sector v (l.getD (pos / 512 / v.bpb.sectors_per_cluster) FAT32_EOC) (pos / 512 % v.bpb.sectors_per_cluster) := by
    rw [cluster_at, div_cluster_size, mod_cluster_size_div]
  rw [haddr, file_byte, file_byte, file_sector, file_sector]
  split
  case isTrue hsame => rw [hsame, Function.update_self]
  case isFalse hne =>
    rw [Function.update_of_ne]
    exact fun heq => hne (file_sector_inj hl hv.cluster_pos (sector_lt_of_pos_lt hp) (sector_lt_of_pos_lt hpos) heq)

theorem blit_byte (buf : Sector) (offset : ℕ) (bytes : List UInt8) {q : ℕ} (hq : q < 512) :
    (Sector.blit buf offset bytes).byte q =
      if offset ≤ q ∧ q < offset + bytes.length then bytes.getD (q - offset) 0 else buf.byte q := by
  rw [Sector.blit, Sector.byte_ofFn hq]

/-- The place of a handle inside of its file. -/
theorem InSync.sector (hv : v.Sane) (hl : Cells v d c l) (hsync : InSync v l file pos)
    (hpos : pos < l.length * cluster_size v) :
    v.InRange file.current_cluster ∧ file.cluster_offset / 512 < v.bpb.sectors_per_cluster ∧
      file.cluster_offset % 512 = pos % 512 := by
  have hmod : pos % cluster_size v < cluster_size v := Nat.mod_lt _ (cluster_size_pos hv.cluster_pos)
  rw [hsync.cluster, hsync.offset, mod_cluster_size_mod]
  refine ⟨hl.inRange (cluster_at_mem hpos), ?_, rfl⟩
  rw [cluster_size_eq] at hmod ⊢
  omega

theorem write_chunk_disk (hv : v.Sane) (hl : Cells v d c l) (hsync : InSync v l file pos)
    (hpos : pos < l.length * cluster_size v) (buf : Sector) (bytes : List UInt8) :
    (write_chunk v d file buf bytes).1 =
      Function.update d (data_sector v (cluster_at v l pos) (pos % cluster_size v / 512))
        (Sector.blit (if can_write file bytes < 512 then file_sector v d l (pos / 512) else buf) (pos % 512)
          (bytes.take (can_write file bytes))) := by
  obtain ⟨hin, hsector, hoffset⟩ := hsync.sector hv hl hpos
  simp only [write_chunk, hv.write_sector hin hsector, hv.read_sector hin hsector, hoffset, file_sector_of_place]
  rw [hsync.cluster, hsync.offset]

theorem write_chunk_wrote (hv : v.Sane) (hl : Cells v d c l) (hsync : InSync v l file pos)
    (hpos : pos < l.length * cluster_size v) (buf : Sector) (bytes : List UInt8) :
    Wrote v d (write_chunk v d file buf bytes).1 l [] pos (bytes.take (can_write file bytes)) := by
  obtain ⟨hin, hsector, hoffset⟩ := hsync.sector hv hl hpos
  have hcan : can_write file bytes = min (512 - pos % 512) bytes.length := by rw [can_write, hoffset]
  have hlen := length_take_can_write file bytes
  have hcap := sector_lt_of_pos_lt hpos
  have hsize := cluster_size_eq v
  rw [write_chunk_disk hv hl hsync hpos]
  refine ⟨?_, fun p hp => ?_, fun _ hx => (by cases hx), fun x hx _ => fat_word_update_data hv hx, fun lba _ hout => ?_⟩
  · rw [List.append_nil, hlen, hsize, Nat.mul_left_comm]
    omega
  · rw [List.append_nil] at hp ⊢
    rw [file_byte_update hl hv hpos hp, hlen, if_pos hp]
    by_cases hsame : p / 512 = pos / 512
    · rw [if_pos hsame, blit_byte _ _ _ (Nat.mod_lt _ (by decide)), hlen]
      by_cases hrange : pos ≤ p ∧ p < pos + can_write file bytes
      · rw [if_pos hrange, if_pos (by omega), show p % 512 - pos % 512 = p - pos by omega]
      · rw [if_neg hrange, if_neg (by omega), if_pos (by omega), file_byte, hsame]
    · rw [if_neg hsame, if_neg (by omega)]
  · rw [Function.update_of_ne]
    rw [List.append_nil] at hout
    refine hout _ (cluster_at_mem hpos) _ ?_
    rwa [← hsync.offset]

theorem append_wrote (hv : v.Sane) (hl : Cells v d c l) {x y : ℕ} (hx : x ∈ l) (hy : v.InRange y) (hfree : IsFree v d y)
    (hpos : pos ≤ l.length * cluster_size v) : Wrote v d (append_cluster v d x y) l [y] pos [] := by
  have hlen : (l ++ [y]).length = l.length + 1 := List.length_append
  have hcs := cluster_size_pos hv.cluster_pos
  refine ⟨?_, fun p hp => ?_, fun z hz => ?_, fun z hz hout => ?_, fun lba hlba hout => ?_⟩
  · rw [hlen, List.length_nil, Nat.add_mul]
    omega
  · have hindex : p / cluster_size v < l.length + 1 := by
      rw [← hlen]
      exact Nat.div_lt_of_lt_mul (by rwa [Nat.mul_comm])
    have hmod : p / 512 % v.bpb.sectors_per_cluster < v.bpb.sectors_per_cluster := Nat.mod_lt _ hv.cluster_pos
    rw [List.length_nil, Nat.add_zero, if_neg (by omega), file_byte, file_byte, file_sector, file_sector,
      ← div_cluster_size]
    by_cases hold : p / cluster_size v < l.length
    · have hmem : l.getD (p / cluster_size v) FAT32_EOC ∈ l := by
        rw [List.getD_eq_getElem _ _ hold]
        exact List.getElem_mem hold
      have hne : l.getD (p / cluster_size v) FAT32_EOC ≠ y := fun heq => Cells.not_free hv hl hmem (by rwa [heq])
      have hlt : p < l.length * cluster_size v := (Nat.div_lt_iff_lt_mul hcs).mp hold
      rw [if_pos hlt, List.getD_append _ _ _ _ hold,
        hv.append_cluster_data (hl.inRange hx) hy (hl.inRange hmem) hne hmod]
    · have hge : ¬ p < l.length * cluster_size v := fun hlt => hold ((Nat.div_lt_iff_lt_mul hcs).mpr hlt)
      rw [if_neg hge, List.getD_append_right _ _ _ _ (not_lt.mp hold), show p / cluster_size v - l.length = 0 by omega,
        List.getD_cons_zero, hv.append_cluster_cleared hy hmod, zero_buf_byte]
  · obtain rfl := List.mem_singleton.mp hz
    exact ⟨hy, hfree⟩
  · rw [List.mem_append, List.mem_singleton, not_or] at hout
    have hne : z ≠ x := by
      rintro rfl
      exact hout.1 hx
    rw [hv.fat_word_append (hl.inRange hx) hy hz, if_neg hout.2, if_neg hne]
  · have hclear : ¬ (data_sector v y 0 ≤ lba ∧ lba < data_sector v y v.bpb.sectors_per_cluster) := by
      rintro ⟨hle, hlt⟩
      refine hout y (List.mem_append_right l List.mem_cons_self) (lba - data_sector v y 0) ?_ ?_
      · unfold data_sector at *
        omega
      · unfold data_sector at *
        omega
    rw [append_cluster, hv.zero_cluster_apply hy, if_neg hclear, hv.set_next_cluster_data hy.inTable _ _ hlba,
      hv.set_next_cluster_data (hl.inRange hx).inTable _ _ hlba]

theorem card_spare_append (hv : v.Sane) (hl : Cells v d c l) {x y : ℕ} (hx : x ∈ l) (hy : v.InRange y) :
    (spare v d).card ≤ (spare v (append_cluster v d x y)).card + 1 := by
  refine card_spare_le y fun z hz hzy hfree => (isFree_congr ?_).mpr hfree
  have hzx : z ≠ x := by
    rintro rfl
    exact Cells.not_free hv hl hx hfree
  rw [hv.fat_word_append (hl.inRange hx) hy hz.inTable, if_neg hzy, if_neg hzx]

/-- A transfer has moved a handle of a file from `pos` over `bytes`. -/
structure Advances (v : Volume) (d d' : Disk) (file file' : fat32_file_t) (l new : List ℕ) (pos : ℕ)
    (bytes : List UInt8) : Prop where
  tree : SameTree v d d'
  cells : Cells v d' file.first_cluster (l ++ new)
  sync : InSync v (l ++ new) file' (pos + bytes.length)
  inside : pos + bytes.length < (l ++ new).length * cluster_size v
  same : file' = { file with
    current_cluster := file'.current_cluster
    cluster_offset := file'.cluster_offset
    position := file'.position }
  wrote : Wrote v d d' l new pos bytes
  spares : l.length + (spare v d).card ≤ (l ++ new).length + (spare v d').card

theorem Advances.first_cluster {file' : fat32_file_t} {new : List ℕ} {bytes : List UInt8}
    (h : Advances v d d' file file' l new pos bytes) : file'.first_cluster = file.first_cluster := by
  rw [h.same]

theorem Advances.trans {file' file'' : fat32_file_t} {new new' : List ℕ} {bytes bytes' : List UInt8} (hv : v.Sane)
    (h : Advances v d d' file file' l new pos bytes)
    (h' : Advances v d' d'' file' file'' (l ++ new) new' (pos + bytes.length) bytes') :
    Advances v d d'' file file'' l (new ++ new') pos (bytes ++ bytes') := by
  have hcells := h'.cells
  have hsync := h'.sync
  have hinside := h'.inside
  have hspares := h'.spares
  have hlen : pos + (bytes ++ bytes').length = pos + bytes.length + bytes'.length := by
    rw [List.length_append, Nat.add_assoc]
  rw [List.append_assoc] at hcells hsync hinside hspares
  rw [h.first_cluster] at hcells
  refine ⟨h.tree.trans h'.tree, hcells, ?_, ?_, ?_, h.wrote.trans hv h.cells h'.wrote, le_trans h.spares hspares⟩
  · rwa [hlen]
  · rwa [hlen]
  · rw [h'.same, h.same]

/-- A regular file of the tree, open with its handle at `pos`, inside of its clusters `l`. -/
structure Positioned (v : Volume) (d : Disk) (file : fat32_file_t) (l : List ℕ) (pos : ℕ) : Prop where
  wf : WellFormed v d
  entry : ∃ p k i, Lists v d p k i false file.first_cluster
  cells : Cells v d file.first_cluster l
  sync : InSync v l file pos
  inside : pos < l.length * cluster_size v

theorem Advances.positioned {file' : fat32_file_t} {new : List ℕ} {bytes : List UInt8} (hfile : Positioned v d file l pos)
    (h : Advances v d d' file file' l new pos bytes) : Positioned v d' file' (l ++ new) (pos + bytes.length) := by
  obtain ⟨p, k, i, hlists⟩ := hfile.entry
  refine ⟨h.tree.wf, ⟨p, k, i, ?_⟩, ?_, h.sync, h.inside⟩
  · rw [h.first_cluster]
    exact (h.tree.lists p k i false _).mpr hlists
  · rw [h.first_cluster]
    exact h.cells

theorem Positioned.chunk (h : Positioned v d file l pos) (buf : Sector) (bytes : List UInt8) :
    SameTree v d (write_chunk v d file buf bytes).1 ∧ Cells v (write_chunk v d file buf bytes).1 file.first_cluster l ∧
      spare v (write_chunk v d file buf bytes).1 = spare v d := by
  obtain ⟨p, k, i, hlists⟩ := h.entry
  obtain ⟨hin, hsector, -⟩ := h.sync.sector h.wf.sane h.cells h.inside
  have hmem := cluster_at_mem h.inside
  rw [← h.sync.cluster] at hmem
  rw [write_chunk_disk h.wf.sane h.cells h.sync h.inside, ← h.sync.cluster, ← h.sync.offset]
  refine ⟨h.wf.write_data hlists h.cells hmem hsector, ?_, ?_⟩
  · exact h.cells.congr_words h.wf.sane fun x hx => fat_word_update_data h.wf.sane (h.cells.inRange hx).inTable
  · ext x
    rw [mem_spare, mem_spare]
    exact and_congr_right fun hx => isFree_congr (fat_word_update_data h.wf.sane hx.inTable)

/-- Where a round ends behind the last cluster, there is a spare one. -/
theorem spare_of_last {n : ℕ} (hv : v.Sane) (hl : Cells v d c l) (hinside : pos < l.length * cluster_size v)
    (hstep : pos % 512 + n ≤ 512) (hend : cluster_size v ≤ pos % cluster_size v + n)
    (hlast : get_next_cluster v d (cluster_at v l pos) = FAT32_EOC)
    (hroom : (pos + n) / cluster_size v + 1 ≤ l.length + (spare v d).card) :
    l.length = pos / cluster_size v + 1 ∧ 0 < (spare v d).card := by
  have hindex : pos / cluster_size v < l.length :=
    (Nat.div_lt_iff_lt_mul (cluster_size_pos hv.cluster_pos)).mpr hinside
  have hdiv := (place_next hv.cluster_pos hstep hend).1
  have hnext : l.getD (pos / cluster_size v + 1) FAT32_EOC = FAT32_EOC := (hl.next_getD hindex).symm.trans hlast
  have hlen : ¬ pos / cluster_size v + 1 < l.length := by
    intro hlt
    rw [List.getD_eq_getElem _ _ hlt] at hnext
    exact (hl.inRange (List.getElem_mem hlt)).ne_eoc hnext
  omega

/-- The end of a round: the handle moves on in the cluster, to the next one or to a new one. -/
theorem write_advance_advances (h : WellFormed v d) {p k i n : ℕ} (hlists : Lists v d p k i false file.first_cluster)
    (hl : Cells v d file.first_cluster l) (hinside : pos < l.length * cluster_size v) (hstep : pos % 512 + n ≤ 512)
    (hcluster : file.current_cluster = cluster_at v l pos) (hoffset : file.cluster_offset = pos % cluster_size v + n)
    (hposition : file.position = pos + n) (hroom : (pos + n) / cluster_size v + 1 ≤ l.length + (spare v d).card) :
    (write_advance v d file).2.2 = true ∧
      ∃ new, Advances v d (write_advance v d file).1 file (write_advance v d file).2.1 l new (pos + n) [] := by
  have hv := h.sane
  have hcs := cluster_size_pos hv.cluster_pos
  have hindex : pos / cluster_size v < l.length := (Nat.div_lt_iff_lt_mul hcs).mpr hinside
  have hmem : file.current_cluster ∈ l := by
    rw [hcluster]
    exact cluster_at_mem hinside
  have hnext : get_next_cluster v d file.current_cluster = l.getD (pos / cluster_size v + 1) FAT32_EOC := by
    rw [hcluster]
    exact hl.next_getD hindex
  -- the place behind the bytes, as soon as its cluster is there
  have hin : ∀ new : List ℕ, (pos + n) / cluster_size v < (l ++ new).length → pos + n < (l ++ new).length * cluster_size v :=
    fun new hlt => (Nat.div_lt_iff_lt_mul hcs).mp hlt
  have hstay : ∀ file' : fat32_file_t, (pos + n) / cluster_size v < l.length →
      InSync v l file' (pos + n) → file' = { file with
        current_cluster := file'.current_cluster
        cluster_offset := file'.cluster_offset
        position := file'.position } → Advances v d d file file' l [] (pos + n) [] := by
    intro file' hlt hsync hsame
    have hlt' : pos + n < l.length * cluster_size v := (Nat.div_lt_iff_lt_mul hcs).mp hlt
    have hnil : l ++ [] = l := List.append_nil l
    refine ⟨.refl h, ?_, ?_, ?_, hsame, .refl hlt'.le, ?_⟩
    · rwa [hnil]
    · rwa [hnil]
    · rwa [hnil]
    · rw [hnil]
  rw [write_advance]
  by_cases hend : cluster_size v ≤ pos % cluster_size v + n
  case neg =>
    obtain ⟨hdiv, hmod⟩ := place_same pos n (not_le.mp hend)
    rw [if_neg (by rwa [hoffset])]
    refine ⟨rfl, [], hstay file (by rwa [hdiv]) ⟨hposition, ?_, ?_⟩ rfl⟩
    · rw [hcluster, cluster_at, cluster_at, hdiv]
    · rw [hoffset, hmod]
  case pos =>
    obtain ⟨hdiv, hmod⟩ := place_next hv.cluster_pos hstep hend
    rw [if_pos (by rwa [hoffset])]
    simp only [hnext]
    by_cases hlast : pos / cluster_size v + 1 < l.length
    · have hok := hl.inRange (show l.getD (pos / cluster_size v + 1) FAT32_EOC ∈ l by
        rw [List.getD_eq_getElem _ _ hlast]
        exact List.getElem_mem hlast)
      rw [if_neg hok.ne_eoc]
      refine ⟨rfl, [], hstay _ (by rwa [hdiv]) ⟨hposition, ?_, hmod.symm⟩ rfl⟩
      rw [cluster_at, hdiv]
    · have heoc : l.getD (pos / cluster_size v + 1) FAT32_EOC = FAT32_EOC :=
        List.getD_eq_default _ _ (by omega)
      rw [heoc] at hnext
      obtain ⟨hlen, hspare⟩ := spare_of_last hv hl hinside hstep hend (by rwa [← hcluster]) hroom
      obtain ⟨hne, hfresh, hfree⟩ := hv.find_free_of_spare hspare
      rw [if_pos heoc, if_neg hne]
      have huse : InUse v d file.current_cluster := .of_cells hlists.owns hl hmem
      have hcells := append_cells h huse hnext hfresh hfree hlists.owns hl
      rw [if_pos hmem] at hcells
      have hgrown : (l ++ [find_free_cluster v d]).length = l.length + 1 := List.length_append
      refine ⟨rfl, [find_free_cluster v d], append_sameTree h huse hnext hfresh hfree, hcells, ⟨hposition, ?_, hmod.symm⟩,
        hin _ (by omega), rfl, append_wrote hv hl hmem hfresh hfree ?_, ?_⟩
      · change find_free_cluster v d = (l ++ [find_free_cluster v d]).getD ((pos + n) / cluster_size v) FAT32_EOC
        rw [hdiv, ← hlen, List.getD_append_right _ _ _ _ le_rfl, Nat.sub_self, List.getD_cons_zero]
      · have hsplit := Nat.div_add_mod (pos + n) (cluster_size v)
        rw [hdiv, hmod, ← hlen, Nat.mul_comm] at hsplit
        omega
      · have hcard := card_spare_append hv hl hmem hfresh
        change l.length + _ ≤ _ + (spare v (append_cluster v d file.current_cluster (find_free_cluster v d))).card
        rw [hgrown]
        omega

/-- The handle behind the bytes of one round, perhaps at the end of its cluster. -/
theorem Positioned.chunk_file (h : Positioned v d file l pos) (buf : Sector) (bytes : List UInt8)
    (hwrap : pos + bytes.length < 2 ^ 32) :
    pos % 512 + can_write file bytes ≤ 512 ∧ (write_chunk v d file buf bytes).2.1 = { file with
      position := pos + can_write file bytes
      cluster_offset := pos % cluster_size v + can_write file bytes } := by
  have hv := h.wf.sane
  obtain ⟨hstep, hcan, -⟩ := can_write_le file bytes
  rw [(h.sync.sector hv h.cells h.inside).2.2] at hstep
  have hle := mod_add_le hv.cluster_pos hstep
  have hsmall := cluster_size_lt hv
  refine ⟨hstep, ?_⟩
  simp only [write_chunk, h.sync.position, h.sync.offset]
  rw [u32_of_lt (by omega), u32_of_lt (by omega)]

/-- One round of the loop, with a spare cluster where it needs one. -/
theorem Positioned.round (h : Positioned v d file l pos) (buf : Sector) (bytes : List UInt8)
    (hwrap : pos + bytes.length < 2 ^ 32)
    (hroom : (pos + bytes.length) / cluster_size v + 1 ≤ l.length + (spare v d).card) :
    (write_advance v (write_chunk v d file buf bytes).1 (write_chunk v d file buf bytes).2.1).2.2 = true ∧
      ∃ new, Advances v d (write_advance v (write_chunk v d file buf bytes).1 (write_chunk v d file buf bytes).2.1).1 file
        (write_advance v (write_chunk v d file buf bytes).1 (write_chunk v d file buf bytes).2.1).2.1 l new pos
        (bytes.take (can_write file bytes)) := by
  have hv := h.wf.sane
  have hwrote := write_chunk_wrote hv h.cells h.sync h.inside buf bytes
  obtain ⟨htree, hcells, hspare⟩ := h.chunk buf bytes
  obtain ⟨hstep, hfile⟩ := h.chunk_file buf bytes hwrap
  have hcan := (can_write_le file bytes).2.1
  have hlen := length_take_can_write file bytes
  obtain ⟨p, k, i, hlists⟩ := h.entry
  have hdiv : (pos + can_write file bytes) / cluster_size v ≤ (pos + bytes.length) / cluster_size v :=
    Nat.div_le_div_right (by omega)
  generalize (write_chunk v d file buf bytes).2.1 = file₁ at hfile ⊢
  generalize (write_chunk v d file buf bytes).1 = d₁ at hwrote htree hcells hspare ⊢
  have hfirst : file₁.first_cluster = file.first_cluster := by rw [hfile]
  obtain ⟨hgo, new, hadv⟩ := write_advance_advances (v := v) (n := can_write file bytes) htree.wf
    (by rw [hfirst]; exact (htree.lists p k i false _).mpr hlists) (by rwa [hfirst]) h.inside hstep
    (by rw [hfile]; exact h.sync.cluster) (by rw [hfile]) (by rw [hfile]) (by rw [hspare]; omega)
  refine ⟨hgo, new, ?_⟩
  generalize write_advance v d₁ file₁ = step at hadv ⊢
  have hinside := hadv.inside
  have hsync := hadv.sync
  rw [List.length_nil, Nat.add_zero] at hinside hsync
  have hwrote₂ := hadv.wrote
  have hcells₁ := hcells
  rw [← List.append_nil l] at hcells₁
  have hnil : l ++ [] = l := List.append_nil l
  have hcomp : Wrote v d step.1 l ([] ++ new) pos (bytes.take (can_write file bytes) ++ []) :=
    hwrote.trans hv hcells₁ (by rwa [hnil, hlen])
  rw [List.nil_append, List.append_nil] at hcomp
  refine ⟨htree.trans hadv.tree, ?_, by rwa [hlen], by rwa [hlen], ?_, hcomp, ?_⟩
  · rw [← hfirst]
    exact hadv.cells
  · rw [hadv.same, hfile]
  · rw [← hspare]
    exact hadv.spares

theorem Positioned.refl (h : Positioned v d file l pos) : Advances v d d file file l [] pos [] := by
  have hnil : l ++ [] = l := List.append_nil l
  refine ⟨.refl h.wf, ?_, ?_, ?_, rfl, .refl h.inside.le, ?_⟩
  · rw [hnil]
    exact h.cells
  · rw [hnil]
    exact h.sync
  · rw [hnil]
    exact h.inside
  · rw [hnil]

/-- Enough spare clusters for a write at `pos`, the one behind the last byte included. -/
def RoomFor (v : Volume) (d : Disk) (l : List ℕ) (pos len : ℕ) : Prop :=
  (pos + len) / cluster_size v + 1 ≤ l.length + (spare v d).card

theorem Advances.roomFor {file' : fat32_file_t} {new : List ℕ} {bytes : List UInt8} (len : ℕ)
    (h : Advances v d d' file file' l new pos bytes) (hroom : RoomFor v d l pos (bytes.length + len)) :
    RoomFor v d' (l ++ new) (pos + bytes.length) len := by
  have hspares := h.spares
  unfold RoomFor at hroom ⊢
  rw [Nat.add_assoc]
  omega

/-- The loop of `fat32_write` writes all bytes and moves the handle over them. -/
theorem Positioned.loop (h : Positioned v d file l pos) (n : ℕ) (buf : Sector) (bytes : List UInt8) (hn : bytes.length ≤ n)
    (hwrap : pos + bytes.length < 2 ^ 32) (hroom : RoomFor v d l pos bytes.length) :
    ∃ d' file' new, write_loop v n d file buf bytes = (d', file', bytes.length) ∧
      Advances v d d' file file' l new pos bytes := by
  induction n generalizing d file l pos buf bytes with
  | zero =>
    obtain rfl := List.length_eq_zero_iff.mp (Nat.le_zero.mp hn)
    exact ⟨d, file, [], rfl, h.refl⟩
  | succ n ih =>
    by_cases hbytes : bytes = []
    · subst hbytes
      exact ⟨d, file, [], rfl, h.refl⟩
    · obtain ⟨hgo, new, hround⟩ := h.round buf bytes hwrap hroom
      obtain ⟨-, hle, hcan⟩ := can_write_le file bytes
      have hpos := hcan hbytes
      have hlen := length_take_can_write file bytes
      have hsum : can_write file bytes + (bytes.drop (can_write file bytes)).length = bytes.length := by
        rw [List.length_drop]
        omega
      have hroom₁ := hround.roomFor (bytes.drop (can_write file bytes)).length (by rwa [hlen, hsum])
      simp only [write_loop, if_neg hbytes, hgo, if_true]
      generalize write_advance v (write_chunk v d file buf bytes).1 (write_chunk v d file buf bytes).2.1 = step at hround hroom₁ ⊢
      obtain ⟨d', file', new', heq, hrest⟩ := ih (hround.positioned h) (write_chunk v d file buf bytes).2.2
        (bytes.drop (can_write file bytes)) (by omega) (by rw [hlen]; omega) hroom₁
      have hall := hround.trans h.wf.sane hrest
      rw [List.take_append_drop] at hall
      rw [heq]
      exact ⟨d', file', _, by rw [hsum], hall⟩

end os_dev.fat32
