import OsDev.Fat32.Cwd
import OsDev.Fat32.FileUpdate
import OsDev.Fat32.Pieces

open os_dev.ata os_dev.libc little_endian forest link_chain

namespace os_dev.fat32

variable {v : Volume} {d d' : Disk} {c c₂ k s size : ℕ} {l l₂ new : List ℕ} {st : Fat32} {fd : Int} {i : Fin 8}
  {file file' : fat32_file_t} {bytes : List UInt8}

/-- The file `c` with the clusters `l` has grown by the clusters `new` and starts with `bytes`, and `size` stands
    in slot `s` of cluster `k`. Every other object and every other entry is as before. -/
structure Rewrites (v : Volume) (d d' : Disk) (c : ℕ) (l new : List ℕ) (k s size : ℕ) (bytes : List UInt8) : Prop where
  tree : SameTree v d d'
  file : ∃ p k₀ s₀, Lists v d p k₀ s₀ false c
  cells : Cells v d' c (l ++ new)
  room : bytes.length ≤ (l ++ new).length * cluster_size v
  content : chain_data v d' (l ++ new) =
    bytes ++ (chain_data v d l ++ List.replicate (new.length * cluster_size v) 0).drop bytes.length
  slots : ∀ k' s', DirCluster v d k' → s' < slots_per_cluster v → slot v d' k' s' =
    if (k', s') = (k, s) then { slot v d k' s' with file_size := size } else slot v d k' s'
  others : ∀ o c₂ l₂, Owns v d o c₂ → c₂ ≠ c → Cells v d c₂ l₂ →
    Cells v d' c₂ l₂ ∧ (k ∉ l₂ → chain_data v d' l₂ = chain_data v d l₂)

/-- The data of a chain after a transfer to its start. -/
theorem Wrote.chain_data_eq (hpos : 0 < v.bpb.sectors_per_cluster) (h : Wrote v d d' l new 0 bytes) :
    chain_data v d' (l ++ new) =
      bytes ++ (chain_data v d l ++ List.replicate (new.length * cluster_size v) 0).drop bytes.length := by
  have hroom := h.room
  have hcontent := h.content
  rw [Nat.zero_add] at hroom
  have hcap : (l ++ new).length * cluster_size v = l.length * cluster_size v + new.length * cluster_size v := by
    rw [List.length_append, Nat.add_mul]
  rw [fat32.chain_data_eq hpos, fat32.chain_data_eq hpos l, file_slice, file_slice]
  have hlength : ((List.range ((l ++ new).length * cluster_size v)).map fun p => file_byte v d' (l ++ new) (0 + p)).length =
      (bytes ++ (((List.range (l.length * cluster_size v)).map fun p => file_byte v d l (0 + p)) ++
        List.replicate (new.length * cluster_size v) 0).drop bytes.length).length := by
    rw [List.length_map, List.length_range, hcap]
    simp only [List.length_append, List.length_drop, List.length_map, List.length_range, List.length_replicate]
    omega
  refine List.ext_getElem hlength fun p hp _ => ?_
  rw [List.length_map, List.length_range] at hp
  rw [List.getElem_map, List.getElem_range, Nat.zero_add, hcontent p hp, List.getElem_append]
  by_cases hin : p < bytes.length
  · rw [if_pos (by omega), dif_pos hin, Nat.sub_zero, List.getD_eq_getElem]
  · have hplace : bytes.length + (p - bytes.length) = p := by omega
    rw [if_neg (by omega), dif_neg hin, List.getElem_drop, List.getElem_append]
    simp only [hplace, List.length_map, List.length_range, List.getElem_map, List.getElem_range, List.getElem_replicate, Nat.zero_add]
    split <;> rfl

theorem SameTree.dirCluster (h : SameTree v d d') (hwf : WellFormed v d) (hk : DirCluster v d k) : DirCluster v d' k := by
  obtain ⟨c₂, l₂, hc₂, hl₂, hmem⟩ := hk
  obtain ⟨o, ho⟩ := hwf.dir_owner hc₂
  obtain ⟨l', hl'⟩ := h.cells o c₂ l₂ ho hl₂
  exact ⟨c₂, _, (h.dirs c₂).mpr hc₂, hl', List.mem_append_left l' hmem⟩

/-- The transfer of the bytes. -/
theorem Positioned.rewrites (h : Positioned v d file l 0) (hadv : Advances v d d' file file' l new 0 bytes) (k s : ℕ) :
    Rewrites v d d' file.first_cluster l new k s (slot v d k s).file_size bytes := by
  have hwf := h.wf
  obtain ⟨p, k₀, s₀, hlists⟩ := h.entry
  have hroom := hadv.wrote.room
  rw [Nat.zero_add] at hroom
  refine ⟨hadv.tree, ⟨p, k₀, s₀, hlists⟩, hadv.cells, hroom, hadv.wrote.chain_data_eq hwf.sane.cluster_pos,
    fun k' s' hk' hs' => ?_, fun o c₂ l₂ ho hne hl₂ => ?_⟩
  · rw [hadv.slot_kept hwf h.cells hlists hk' hs']
    split
    case isTrue heq =>
      obtain ⟨rfl, rfl⟩ := Prod.mk.inj heq
      rfl
    case isFalse => rfl
  · have hother : o ≠ some (k₀, s₀) := by
      rintro rfl
      obtain ⟨p', isDir, hlists'⟩ := ho
      have hent := hlists'.2.2.symm.trans hlists.2.2
      exact hne (Prod.mk.inj (Option.some.inj hent)).2
    obtain ⟨hcells, hdata⟩ := hadv.chain_kept hwf h.cells hlists ho hother hl₂
    exact ⟨hcells, fun _ => hdata⟩

/-- The size is written back into an entry of a directory. -/
theorem Rewrites.write_back (h : Rewrites v d d' c l new k s size bytes) (hwf : WellFormed v d) (hdir : DirCluster v d k)
    (hs : s < slots_per_cluster v) (hk : file.dir_cluster = k) (hentry : file.dir_entry_index = s) (hsize : file.file_size < 2 ^ 32) :
    Rewrites v d (write_back_size v d' file) c l new k s file.file_size bytes := by
  subst hk hentry
  have hv := hwf.sane
  have hin := (hwf.inUse_of_dirCluster hdir).inRange
  obtain ⟨p, k₀, s₀, hlists⟩ := h.file
  have hback : ∀ {l₂}, (∀ x ∈ l₂, v.InRange x) → file.dir_cluster ∉ l₂ →
      chain_data v (write_back_size v d' file) l₂ = chain_data v d' l₂ := by
    intro l₂ hl₂ hout
    refine chain_data_congr hv.cluster_pos fun x hx j hj => write_back_size_data hv file hin hs (hl₂ x hx) ?_ hj
    rintro rfl
    exact hout hx
  have hword : ∀ {c₂ l₂}, Cells v d' c₂ l₂ → Cells v (write_back_size v d' file) c₂ l₂ := fun hl₂ =>
    hl₂.congr_words hv fun x hx => write_back_size_word hv file hin hs (hl₂.inRange hx).inTable
  have hout : file.dir_cluster ∉ l ++ new :=
    h.tree.wf.dirCluster_not_mem ((h.tree.lists p k₀ s₀ false c).mpr hlists) h.cells (h.tree.dirCluster hwf hdir)
  refine ⟨h.tree.trans (h.tree.wf.write_size file hin hs), h.file, hword h.cells, h.room, ?_, fun k' s' hk' hs' => ?_,
    fun o c₂ l₂ ho hne hl₂ => ?_⟩
  · rw [hback (fun x hx => h.cells.inRange hx) hout, h.content]
  · rw [write_back_slot hv hin hs hsize (hwf.inUse_of_dirCluster hk').inRange hs', h.slots k' s' hk' hs']
    split <;> rfl
  · obtain ⟨hcells, hdata⟩ := h.others o c₂ l₂ ho hne hl₂
    exact ⟨hword hcells, fun hout₂ => (hback (fun x hx => hl₂.inRange hx) hout₂).trans (hdata hout₂)⟩

/-- `fat32_write` with the handle at the start of a file, whichever entry of a directory the handle takes for the file's. -/
theorem rewrite_file (hfd : handle st fd = some i) (h : Positioned st.vol st.disk (st.open_files i) l 0)
    (hdir : DirCluster st.vol st.disk k) (hs : s < slots_per_cluster st.vol) (hk : (st.open_files i).dir_cluster = k)
    (hentry : (st.open_files i).dir_entry_index = s) (hsize : (st.open_files i).file_size = (slot st.vol st.disk k s).file_size)
    (hwrap : bytes.length < 2 ^ 32) (hroom : RoomFor st.vol st.disk l 0 bytes.length) :
    ∃ d' new file, (fat32_write st fd bytes).2 = { st with disk := d', open_files := Function.update st.open_files i file } ∧
      Rewrites st.vol st.disk d' (st.open_files i).first_cluster l new k s
        (max (slot st.vol st.disk k s).file_size bytes.length) bytes := by
  by_cases hbytes : bytes = []
  · subst hbytes
    refine ⟨st.disk, [], st.open_files i, ?_, ?_⟩
    · rw [write_nil hfd, Function.update_eq_self]
    · rw [List.length_nil, Nat.max_zero]
      exact h.rewrites h.refl k s
  · obtain ⟨d₁, file, new, hadv, hwrite⟩ := h.fat32_write_eq hfd bytes hbytes (by rwa [Nat.zero_add]) hroom
    have hposition := hadv.sync.position
    have hrewrites := h.rewrites hadv k s
    have hsame : file.file_size = (slot st.vol st.disk k s).file_size := by rw [hadv.same, hsize]
    rw [Nat.zero_add] at hposition
    rw [hwrite]
    split
    case isTrue hgrows =>
      refine ⟨_, new, _, rfl, ?_⟩
      have hback := @Rewrites.write_back _ _ _ _ _ _ _ _ _ { file with file_size := file.position } _ hrewrites h.wf hdir hs
        (by rw [hadv.same]; exact hk) (by rw [hadv.same]; exact hentry) (by simp only; omega)
      rwa [show max (slot st.vol st.disk k s).file_size bytes.length = file.position by omega]
    case isFalse hstays =>
      rw [show max (slot st.vol st.disk k s).file_size bytes.length = (slot st.vol st.disk k s).file_size by omega]
      exact ⟨_, new, _, rfl, hrewrites⟩

section Rewritten

variable (h : Rewrites v d d' c l new k s size bytes) (hwf : WellFormed v d)

include h

/-- Searches do not look at sizes. -/
theorem Rewrites.lookup (hc₂ : LiveDir v d c₂) (hl₂ : Cells v d c₂ l₂) (skip_lfn : Bool) (name : CStr) :
    lookup v d' skip_lfn l₂ name = fat32.lookup v d skip_lfn l₂ name := by
  refine chain_hit_scan_congr fun k' hk' i' hi' => ?_
  rw [h.slots k' i' ⟨c₂, l₂, hc₂, hl₂, hk'⟩ hi']
  split <;> exact ⟨Iff.rfl, rfl⟩

theorem Rewrites.entry {k' s' : ℕ} (hk' : DirCluster v d k') (hs' : s' < slots_per_cluster v) :
    (slot v d' k' s').first_cluster = (slot v d k' s').first_cluster ∧ (slot v d' k' s').isDirectory = (slot v d k' s').isDirectory := by
  rw [h.slots k' s' hk' hs']
  split <;> exact ⟨rfl, rfl⟩

include hwf

/-- The file is none of the directories. -/
theorem Rewrites.dir_ne (hc₂ : LiveDir v d c₂) : c₂ ≠ c := by
  rintro rfl
  obtain ⟨p, k₀, s₀, hlists⟩ := h.file
  obtain ⟨l₂, hl₂⟩ := hwf.dir_cells hc₂
  exact hwf.dirCluster_not_mem hlists hl₂ ⟨c₂, l₂, hc₂, hl₂, hl₂.head_mem⟩ hl₂.head_mem

theorem Rewrites.dir_cells (hc₂ : LiveDir v d c₂) (hl₂ : Cells v d c₂ l₂) : Cells v d' c₂ l₂ := by
  obtain ⟨o, ho⟩ := hwf.dir_owner hc₂
  exact (h.others o c₂ l₂ ho (h.dir_ne hwf hc₂) hl₂).1

/-- A walk leads to where it led before. -/
theorem Rewrites.leads {r t : ℕ} {parts : List CStr} (hr : LiveDir v d r) (hleads : Leads v d r parts t) : Leads v d' r parts t := by
  induction hleads with
  | done => exact .done
  | step hl₂ hfound hdir hne _ ih =>
    obtain ⟨hk', hj, hi, -⟩ := lookup_some hfound
    obtain ⟨hfirst, hattr⟩ := h.entry ⟨_, _, hr, hl₂, hk'⟩ (slot_index_lt hj hi)
    refine .step (h.dir_cells hwf hr hl₂) ((h.lookup hr hl₂ true _).trans hfound) (by rwa [hattr]) (by rwa [hfirst]) ?_
    rw [hfirst]
    exact ih (LiveEntry.liveDir ⟨_, lookup_dir_lists hr hl₂ hfound hdir hne⟩)

end Rewritten

/-- What reads deliver afterwards: the bytes, and behind them what they would have delivered of the old content at the new size. -/
theorem Rewrites.delivered_eq (h : Rewrites v d d' c l new k s size bytes) {n : ℕ} (hn : bytes.length ≤ n) :
    ∃ m, delivered v d' (l ++ new) n = bytes ++ (delivered v d l n ++ List.replicate m 0).drop bytes.length := by
  have hroom := h.room
  have hcap : (l ++ new).length * cluster_size v = l.length * cluster_size v + new.length * cluster_size v := by
    rw [List.length_append, Nat.add_mul]
  have hlong : bytes.length ≤ reach v (l ++ new) n := by
    unfold reach
    split <;> omega
  have hreach : min (reach v (l ++ new) n) (l.length * cluster_size v) = min (reach v l n) (l.length * cluster_size v) := by
    unfold reach
    split <;> omega
  have htake : (chain_data v d l).take (reach v (l ++ new) n) = (chain_data v d l).take (reach v l n) := by
    rw [List.take_eq_take_iff, chain_data_length, hreach]
  refine ⟨min (reach v (l ++ new) n - l.length * cluster_size v) (new.length * cluster_size v), ?_⟩
  rw [delivered, delivered, file_content, file_content, h.content, List.take_append, List.take_of_length_le hlong,
    ← htake, ← List.drop_take, List.take_append, chain_data_length, List.take_replicate]

/-- A text shorter than a sector needs no more clusters. -/
theorem Cells.roomFor_short (hv : v.Sane) (hl : Cells v d c l) {n : ℕ} (hn : n < 512) : RoomFor v d l 0 n := by
  have hone := List.length_pos_of_mem hl.head_mem
  have hcluster : n < cluster_size v := by
    have hpos := hv.cluster_pos
    rw [cluster_size_eq]
    omega
  rw [RoomFor, Nat.zero_add, Nat.div_eq_of_lt hcluster]
  omega

/-- Reads deliver the same from byte `m` on, whether the size was below `m` or is `m`. -/
theorem delivered_drop {n m : ℕ} (hm : m ≤ 512) : (delivered v d l (max n m)).drop m = (delivered v d l n).drop m := by
  have hreach : reach v l (max n m) - m = reach v l n - m := by
    unfold reach
    split <;> split <;> omega
  rw [delivered, delivered, file_content, file_content, List.drop_take, List.drop_take, hreach]

end os_dev.fat32
