import OsDev.Fat32.Footprint

open os_dev.ata os_dev.libc link_chain

namespace os_dev.fat32

variable {v : Volume} {d d' : Disk} {c : ℕ} {l : List ℕ} {st st₀ : Fat32} {fd : Int} {i : Fin 8} {k s : ℕ}

theorem file_byte_congr (hpos : 0 < v.bpb.sectors_per_cluster)
    (hsame : ∀ x ∈ l, ∀ j < v.bpb.sectors_per_cluster, d' (data_sector v x j) = d (data_sector v x j)) {p : ℕ}
    (hp : p < l.length * cluster_size v) : file_byte v d' l p = file_byte v d l p := by
  have hmem := cluster_at_mem hp
  rw [cluster_at, div_cluster_size] at hmem
  rw [file_byte, file_byte, file_sector, file_sector, hsame _ hmem _ (Nat.mod_lt _ hpos)]

theorem chain_data_congr (hpos : 0 < v.bpb.sectors_per_cluster)
    (hsame : ∀ x ∈ l, ∀ j < v.bpb.sectors_per_cluster, d' (data_sector v x j) = d (data_sector v x j)) :
    chain_data v d' l = chain_data v d l := by
  rw [chain_data_eq hpos, chain_data_eq hpos, file_slice, file_slice]
  refine List.map_congr_left fun p hp => file_byte_congr hpos hsame ?_
  rw [List.mem_range] at hp
  omega

theorem file_content_get (hpos : 0 < v.bpb.sectors_per_cluster) {size : ℕ} (hfits : size ≤ l.length * cluster_size v) {p : ℕ}
    (hp : p < size) : (file_content v d l size)[p]? = some (file_byte v d l p) := by
  rw [file_content, chain_data_eq hpos, file_slice, List.getElem?_take_of_lt hp, List.getElem?_map,
    List.getElem?_range (by omega), Option.map_some, Nat.zero_add]

theorem file_content_length {size : ℕ} (hfits : size ≤ l.length * cluster_size v) :
    (file_content v d l size).length = size := by
  rw [file_content, List.length_take, chain_data_length]
  exact min_eq_left hfits

/-- The open file: its handle knows its entry, in slot `s` of cluster `k`, and its size, for which
    its clusters `l` are enough. -/
structure OpenFile (st : Fat32) (i : Fin 8) (k s : ℕ) (l : List ℕ) : Prop where
  entry : ∃ p, Lists st.vol st.disk p k s false (st.open_files i).first_cluster
  dir_cluster : (st.open_files i).dir_cluster = k
  dir_entry_index : (st.open_files i).dir_entry_index = s
  size : (slot st.vol st.disk k s).file_size = (st.open_files i).file_size
  cells : Cells st.vol st.disk (st.open_files i).first_cluster l
  fits : (st.open_files i).file_size ≤ l.length * cluster_size st.vol

/-- The content of a file with `bytes` put at `pos`. -/
structure Patched (content content' : List UInt8) (pos : ℕ) (bytes : List UInt8) : Prop where
  length : content'.length = max content.length (pos + bytes.length)
  inside : ∀ p, pos ≤ p → p < pos + bytes.length → content'[p]? = bytes[p - pos]?
  outside : ∀ p < content.length, ¬ (pos ≤ p ∧ p < pos + bytes.length) → content'[p]? = content[p]?

/-- Nothing but the file that slot `s` of cluster `k` names has changed, and of its entry only the size. -/
structure OthersKept (v : Volume) (d d' : Disk) (k s : ℕ) (size : ℕ) : Prop where
  lists : ∀ p k' s' isDir c, Lists v d' p k' s' isDir c ↔ Lists v d p k' s' isDir c
  chains : ∀ o c l, Owns v d o c → o ≠ some (k, s) → Cells v d c l → Cells v d' c l
  files : ∀ p k' s' c l, Lists v d p k' s' false c → (k', s') ≠ (k, s) → Cells v d c l →
    chain_data v d' l = chain_data v d l
  entries : ∀ k' s', DirCluster v d k' → s' < slots_per_cluster v → (k', s') ≠ (k, s) → slot v d' k' s' = slot v d k' s'
  entry : slot v d' k s = { slot v d k s with file_size := size }

/-- What a write is to do: the bytes stand in the file and nothing else has changed. -/
structure Updated (st st' : Fat32) (i : Fin 8) (k s : ℕ) (l : List ℕ) (bytes : List UInt8) : Prop where
  vol : st'.vol = st.vol
  size : (st'.open_files i).file_size = max (st.open_files i).file_size ((st.open_files i).position + bytes.length)
  content : ∃ l', Cells st'.vol st'.disk (st.open_files i).first_cluster l' ∧
    Patched (file_content st.vol st.disk l (st.open_files i).file_size)
      (file_content st'.vol st'.disk l' (st'.open_files i).file_size) (st.open_files i).position bytes
  others : OthersKept st.vol st.disk st'.disk k s (st'.open_files i).file_size
  handles : ∀ j, j ≠ i → st'.open_files j = st.open_files j

/-- A cluster of a directory is no cluster of a regular file. -/
theorem WellFormed.dirCluster_not_mem (h : WellFormed v d) {p k s x : ℕ} (hlists : Lists v d p k s false c) (hl : Cells v d c l)
    (hx : DirCluster v d x) : x ∉ l := by
  intro hmem
  obtain ⟨depth, hforest⟩ := h.exists_forest
  obtain ⟨c', l', hc', hl', hx'⟩ := hx
  have hdir := (hforest.dir_of_cell hc' hl' hx' hlists.owns hl hmem).2
  rw [hlists.2.2] at hdir
  cases hdir

theorem Lists.dirCluster {p k s : ℕ} {isDir : Bool} (h : Lists v d p k s isDir c) : DirCluster v d k :=
  LiveEntry.dirCluster ⟨p, h⟩

theorem Wrote.data {new : List ℕ} {pos : ℕ} {bytes : List UInt8} (h : Wrote v d d' l new pos bytes) (hl : Cells v d' c (l ++ new))
    {x j : ℕ} (hx : v.InRange x) (hout : x ∉ l ++ new) (hj : j < v.bpb.sectors_per_cluster) :
    d' (data_sector v x j) = d (data_sector v x j) := by
  refine h.sectors _ (data_lba_le_data_sector x j) fun y hy j' hj' heq => ?_
  obtain ⟨rfl, -⟩ := data_sector_inj hx.1 (hl.inRange hy).1 hj hj' heq
  exact hout hy

section Transfer

variable {file file' : fat32_file_t} {new : List ℕ} {pos p : ℕ} {bytes : List UInt8}
  (h : Advances v d d' file file' l new pos bytes) (hwf : WellFormed v d) (hl : Cells v d file.first_cluster l)
  (hlists : Lists v d p k s false file.first_cluster)

include h hwf hl hlists

/-- Clusters in use of other objects are neither in the file nor free. -/
theorem Advances.apart {o : Option (ℕ × ℕ)} {c₂ x : ℕ} {l₂ : List ℕ} (ho : Owns v d o c₂) (hne : o ≠ some (k, s))
    (hl₂ : Cells v d c₂ l₂) (hx : x ∈ l₂) : x ∉ l ++ new := by
  intro hmem
  obtain hmem | hmem := List.mem_append.mp hmem
  · exact hwf.tidy.2.disjoint ho hl₂ hlists.owns hl hne x hx hmem
  · exact Cells.not_free hwf.sane hl₂ hx (h.wrote.fresh x hmem).2

theorem Advances.chain_kept {o : Option (ℕ × ℕ)} {c₂ : ℕ} {l₂ : List ℕ} (ho : Owns v d o c₂) (hne : o ≠ some (k, s))
    (hl₂ : Cells v d c₂ l₂) : Cells v d' c₂ l₂ ∧ chain_data v d' l₂ = chain_data v d l₂ := by
  have hapart : ∀ x ∈ l₂, x ∉ l ++ new := fun x hx => h.apart hwf hl hlists ho hne hl₂ hx
  refine ⟨hl₂.congr_words hwf.sane fun x hx => h.wrote.words x (hl₂.inRange hx).inTable (hapart x hx), ?_⟩
  exact chain_data_congr hwf.sane.cluster_pos fun x hx j hj => h.wrote.data h.cells (hl₂.inRange hx) (hapart x hx) hj

theorem Advances.slot_kept {k' s' : ℕ} (hk' : DirCluster v d k') (hs' : s' < slots_per_cluster v) :
    slot v d' k' s' = slot v d k' s' := by
  have huse := hwf.inUse_of_dirCluster hk'
  refine slot_congr (h.wrote.data h.cells huse.inRange (fun hmem => ?_) (sector_of_slot hs'))
  obtain hmem | hmem := List.mem_append.mp hmem
  · exact hwf.dirCluster_not_mem hlists hl hk' hmem
  · exact hwf.not_free huse (h.wrote.fresh k' hmem).2

/-- A transfer leaves everything but its file alone. -/
theorem Advances.othersKept : OthersKept v d d' k s (slot v d k s).file_size := by
  refine ⟨h.tree.lists, fun o c₂ l₂ ho hne hl₂ => (h.chain_kept hwf hl hlists ho hne hl₂).1, fun p' k' s' c₂ l₂ hlists' hne hl₂ => ?_,
    fun k' s' hk' hs' _ => h.slot_kept hwf hl hlists hk' hs', ?_⟩
  · exact (h.chain_kept hwf hl hlists hlists'.owns (fun heq => hne (Option.some.inj heq)) hl₂).2
  · rw [h.slot_kept hwf hl hlists hlists.dirCluster (view_ent_some hlists.2.2).1]

end Transfer

/-- The slots after a size has been written back. -/
theorem write_back_slot {file : fat32_file_t} (hv : v.Sane) (hin : v.InRange file.dir_cluster) (hi : file.dir_entry_index < slots_per_cluster v)
    (hsize : file.file_size < 2 ^ 32) (hk : v.InRange k) (hs : s < slots_per_cluster v) :
    slot v (write_back_size v d file) k s = if (k, s) = (file.dir_cluster, file.dir_entry_index) then
      { slot v d k s with file_size := file.file_size } else slot v d k s := by
  rw [write_back_size_eq hv d hin hi]
  by_cases hsector : k = file.dir_cluster ∧ s / 16 = file.dir_entry_index / 16
  · obtain ⟨rfl, hsec⟩ := hsector
    rw [← hsec, slot_update_same]
    by_cases hentry : s % 16 = file.dir_entry_index % 16
    · rw [if_pos (by rw [show s = file.dir_entry_index by omega]), ← hentry, dir_entry_put_size (by omega) hsize, slot]
    · rw [if_neg fun heq => hentry (by rw [(Prod.mk.inj heq).2]), dir_entry_put_size_other (by omega) hentry, slot]
  · rw [slot_update_of_ne hin.1 hk.1 hs (sector_of_slot hi) (not_and_or.mp hsector), if_neg]
    rintro heq
    obtain ⟨rfl, rfl⟩ := Prod.mk.inj heq
    exact hsector ⟨rfl, rfl⟩

/-- Writing the size back leaves the data of every other cluster alone. -/
theorem write_back_size_data (hv : v.Sane) (file : fat32_file_t) (hin : v.InRange file.dir_cluster)
    (hi : file.dir_entry_index < slots_per_cluster v) {x j : ℕ} (hx : v.InRange x) (hne : x ≠ file.dir_cluster)
    (hj : j < v.bpb.sectors_per_cluster) : write_back_size v d file (data_sector v x j) = d (data_sector v x j) := by
  rw [write_back_size_eq hv d hin hi]
  refine Function.update_of_ne (fun haddr => hne ?_) _ _
  exact (data_sector_inj hx.1 hin.1 hj (sector_of_slot hi) haddr).1

/-- Writing the size back changes one field of one entry. -/
theorem OthersKept.write_back {file : fat32_file_t} {p k s size : ℕ} (h : OthersKept v d d' k s size) (hwf : WellFormed v d)
    (hwf' : WellFormed v d') (hlists : Lists v d p k s false c) (hk : file.dir_cluster = k) (hs : file.dir_entry_index = s)
    (hsize : file.file_size < 2 ^ 32) : OthersKept v d (write_back_size v d' file) k s file.file_size := by
  subst hk hs
  have hv := hwf.sane
  have hdir := hlists.dirCluster
  have hin := (hwf.inUse_of_dirCluster hdir).inRange
  have hi := (view_ent_some hlists.2.2).1
  have htree := hwf'.write_size file hin hi
  refine ⟨fun p' k' s' isDir c' => (htree.lists p' k' s' isDir c').trans (h.lists p' k' s' isDir c'), ?_, ?_, ?_, ?_⟩
  · intro o c₂ l₂ ho hne hl₂
    have hl₂' := h.chains o c₂ l₂ ho hne hl₂
    exact hl₂'.congr_words hv fun x hx => write_back_size_word hv file hin hi (hl₂'.inRange hx).inTable
  · intro p' k' s' c₂ l₂ hlists' hne hl₂
    rw [← h.files p' k' s' c₂ l₂ hlists' hne hl₂]
    refine chain_data_congr hv.cluster_pos fun x hx j hj => write_back_size_data hv file hin hi (hl₂.inRange hx) ?_ hj
    rintro rfl
    exact hwf.dirCluster_not_mem hlists' hl₂ hdir hx
  · intro k' s' hk' hs' hne
    rw [← h.entries k' s' hk' hs' hne, write_back_slot hv hin hi hsize (hwf.inUse_of_dirCluster hk').inRange hs', if_neg hne]
  · have hentry := h.entry
    rw [write_back_slot hv hin hi hsize hin hi, if_pos rfl, hentry]

/-- The content of the file behind a transfer, whatever else changes outside of the file's clusters. -/
theorem Wrote.patched {d'' : Disk} {new : List ℕ} {pos size : ℕ} {bytes : List UInt8} (h : Wrote v d d' l new pos bytes)
    (hpos : 0 < v.bpb.sectors_per_cluster) (hfits : size ≤ l.length * cluster_size v)
    (hsame : ∀ x ∈ l ++ new, ∀ j < v.bpb.sectors_per_cluster, d'' (data_sector v x j) = d' (data_sector v x j)) :
    Patched (file_content v d l size) (file_content v d'' (l ++ new) (max size (pos + bytes.length))) pos bytes := by
  have hroom := h.room
  have hcap : l.length * cluster_size v ≤ (l ++ new).length * cluster_size v :=
    Nat.mul_le_mul_right _ (by rw [List.length_append]; omega)
  have hfits' : max size (pos + bytes.length) ≤ (l ++ new).length * cluster_size v := by omega
  have hbyte : ∀ p < max size (pos + bytes.length), (file_content v d'' (l ++ new) (max size (pos + bytes.length)))[p]? =
      some (if pos ≤ p ∧ p < pos + bytes.length then bytes.getD (p - pos) 0
        else if p < l.length * cluster_size v then file_byte v d l p else 0) := by
    intro p hp
    rw [file_content_get hpos hfits' hp, file_byte_congr hpos hsame (by omega), h.content p (by omega)]
  refine ⟨?_, fun p hle hlt => ?_, fun p hp hout => ?_⟩
  · rw [file_content_length hfits, file_content_length hfits']
  · rw [hbyte p (by omega), if_pos ⟨hle, hlt⟩, List.getD_eq_getElem _ _ (by omega), ← List.getElem?_eq_getElem]
  · rw [file_content_length hfits] at hp
    rw [hbyte p (by omega), if_neg hout, if_pos (by omega), file_content_get hpos hfits hp]

theorem OpenFile.updated (h : OpenFile st i k s l) (hfd : handle st fd = some i) (hwf : WellFormed st.vol st.disk)
    (hsync : InSync st.vol l (st.open_files i) (st.open_files i).position) {bytes : List UInt8} (hbytes : bytes ≠ [])
    (hinside : (st.open_files i).position < l.length * cluster_size st.vol)
    (hwrap : (st.open_files i).position + bytes.length < 2 ^ 32)
    (hroom : RoomFor st.vol st.disk l (st.open_files i).position bytes.length) :
    (fat32_write st fd bytes).1 = int32 bytes.length ∧ Updated st (fat32_write st fd bytes).2 i k s l bytes := by
  obtain ⟨p, hlists⟩ := h.entry
  obtain ⟨d, file, new, hadv, heq⟩ := Positioned.fat32_write_eq hfd ⟨hwf, ⟨p, k, s, hlists⟩, h.cells, hsync, hinside⟩ bytes hbytes
    hwrap hroom
  have hkept := hadv.othersKept hwf h.cells hlists
  have hposition := hadv.sync.position
  have hpos := hwf.sane.cluster_pos
  have hsize : file.file_size = (st.open_files i).file_size := by rw [hadv.same]
  have hk : file.dir_cluster = k := by
    rw [hadv.same]
    exact h.dir_cluster
  have hs : file.dir_entry_index = s := by
    rw [hadv.same]
    exact h.dir_entry_index
  rw [heq]
  refine ⟨rfl, ?_⟩
  split
  case isTrue hgrow =>
    have hlists' := (hadv.tree.lists p k s false _).mpr hlists
    have hmax : file.position = max (st.open_files i).file_size ((st.open_files i).position + bytes.length) := by omega
    generalize hsized : { file with file_size := file.position } = sized
    have hsized_k : sized.dir_cluster = k := by
      rw [← hsized]
      exact hk
    have hsized_s : sized.dir_entry_index = s := by
      rw [← hsized]
      exact hs
    have hsized_size : sized.file_size = max (st.open_files i).file_size ((st.open_files i).position + bytes.length) := by
      rw [← hsized]
      exact hmax
    have hback := hkept.write_back hwf hadv.tree.wf hlists hsized_k hsized_s (by omega)
    have hin : st.vol.InRange sized.dir_cluster := by
      rw [hsized_k]
      exact (hwf.inUse_of_dirCluster hlists.dirCluster).inRange
    have hi : sized.dir_entry_index < slots_per_cluster st.vol := by
      rw [hsized_s]
      exact (view_ent_some hlists.2.2).1
    have hsame : ∀ x ∈ l ++ new, ∀ j < st.vol.bpb.sectors_per_cluster,
        write_back_size st.vol d sized (data_sector st.vol x j) = d (data_sector st.vol x j) := by
      intro x hx j hj
      refine write_back_size_data hwf.sane sized hin hi (hadv.cells.inRange hx) (fun heq => ?_) hj
      rw [heq, hsized_k] at hx
      exact hadv.tree.wf.dirCluster_not_mem hlists' hadv.cells hlists'.dirCluster hx
    refine ⟨rfl, ?_, ⟨l ++ new, ?_, ?_⟩, ?_, fun j hj => Function.update_of_ne hj _ _⟩
    · simp only [Function.update_self]
      exact hsized_size
    · exact Cells.congr_words hwf.sane hadv.cells fun x hx =>
        write_back_size_word hwf.sane sized hin hi (hadv.cells.inRange hx).inTable
    · simp only [Function.update_self]
      rw [hsized_size]
      exact hadv.wrote.patched hpos h.fits hsame
    · simp only [Function.update_self]
      exact hback
  case isFalse hgrow =>
    have hmax : file.file_size = max (st.open_files i).file_size ((st.open_files i).position + bytes.length) := by omega
    refine ⟨rfl, ?_, ⟨l ++ new, hadv.cells, ?_⟩, ?_, fun j hj => Function.update_of_ne hj _ _⟩
    · simp only [Function.update_self]
      exact hmax
    · simp only [Function.update_self]
      rw [hmax]
      exact hadv.wrote.patched hpos h.fits fun _ _ _ _ => rfl
    · simp only [Function.update_self]
      rw [hsize, ← h.size]
      exact hkept

theorem OpenFile.updated_nil (h : OpenFile st i k s l) (hfd : handle st fd = some i)
    (hend : (st.open_files i).position ≤ (st.open_files i).file_size) :
    (fat32_write st fd []).1 = int32 ([] : List UInt8).length ∧ Updated st (fat32_write st fd []).2 i k s l [] := by
  have hret : (fat32_write st fd []).1 = int32 0 := by simp [fat32_write, hfd, write_loop]
  have hmax : max (st.open_files i).file_size (st.open_files i).position = (st.open_files i).file_size := max_eq_left hend
  have hlen := file_content_length (v := st.vol) (d := st.disk) h.fits
  rw [write_nil hfd]
  refine ⟨hret, rfl, hmax.symm, ⟨l, h.cells, ?_, fun p hle hlt => ?_, fun _ _ _ => rfl⟩, ?_, fun _ _ => rfl⟩
  · rw [hlen]
    exact hmax.symm
  · rw [List.length_nil] at hlt
    omega
  · refine ⟨fun _ _ _ _ _ => Iff.rfl, fun _ _ _ _ _ hl => hl, fun _ _ _ _ _ _ _ _ => rfl, fun _ _ _ _ _ => rfl, ?_⟩
    rw [← h.size]

/-- After careful calls on its handle, whatever happened elsewhere, a write updates exactly the file. -/
theorem write_updates_file (hstart : Tracked st₀ fd i) (hrun : Reached fd i st₀ st) (h : OpenFile st i k s l)
    {bytes : List UInt8} (hinside : (st.open_files i).position < l.length * cluster_size st.vol)
    (hwrap : (st.open_files i).position + bytes.length < 2 ^ 32)
    (hroom : RoomFor st.vol st.disk l (st.open_files i).position bytes.length)
    (hnil : bytes = [] → (st.open_files i).position ≤ (st.open_files i).file_size) :
    (fat32_write st fd bytes).1 = int32 bytes.length ∧ Updated st (fat32_write st fd bytes).2 i k s l bytes := by
  have htracked := hrun.tracked hstart
  obtain ⟨l', hl', hsync⟩ := htracked.sync
  obtain rfl := hl'.unique h.cells
  by_cases hbytes : bytes = []
  · subst hbytes
    exact h.updated_nil htracked.handle (hnil rfl)
  · exact h.updated htracked.handle htracked.wf hsync hbytes hinside hwrap hroom

theorem one_cluster_open : OpenFile one_cluster_state 0 2 0 [3] where
  entry := by
    refine ⟨2, liveDir_root, ⟨[2], one_cluster_root, List.mem_cons_self⟩, ?_⟩
    exact (view_ent_of_lt (by decide)).trans (one_cluster_table.2.2 0 (by decide))
  dir_cluster := rfl
  dir_entry_index := rfl
  size := by decide +kernel
  cells := one_cluster_cells
  fits := by decide

theorem write_updates_one_cluster :
    Updated one_cluster_state (fat32_write one_cluster_state 0 [0x41, 0x42]).2 0 2 0 [3] [0x41, 0x42] := by
  refine (write_updates_file one_cluster_tracked .start one_cluster_open (by decide) (by decide) ?_ ?_).2
  · exact Nat.le_add_right_of_le (by decide)
  · intro h
    cases h

/-- A volume with no free cluster: the file A has cluster 3, the file B the clusters 4 and 5, the others are lost. -/
def crammed_state : Fat32 :=
  { small_state with
    disk := Function.update (Function.update small_state.disk
      1 (Sector.ofFn fun j => little_endian.byteOf (if j / 4 = 4 then 5 else FAT32_EOC) (j % 4)))
      2 (put_entry (put_entry zero_buf 0 (ascii "A       ") (ascii "   ") FAT_ATTR_ARCHIVE 3 0)
        1 (ascii "B       ") (ascii "   ") FAT_ATTR_ARCHIVE 4 1024)
    open_files := fun i => if i.val = 0 then ⟨true, 3, 3, 0, 0, 0, 2, 0, ascii "A"⟩ else small_state.open_files i }

/-- The file A is filled to the end of its cluster, B is deleted and A is written on. -/
def crammed_history : List Op :=
  [.write 0 (List.replicate 512 0x41), .unlink (ascii "B"), .write 0 [0x42]]

def shifted_state : Fat32 := (run 8 crammed_state crammed_history).getD crammed_state

/-- The state after the history, and the last write in it. -/
theorem shifted_computed : (run 8 crammed_state crammed_history).isSome = true ∧
    shifted_state.open_files 0 = ⟨true, 3, 4, 0, 513, 513, 2, 0, ascii "A"⟩ ∧ handle shifted_state 0 = some 0 ∧
    (∀ c ∈ [2, 4], get_next_cluster small_volume shifted_state.disk c = FAT32_EOC) ∧
    get_next_cluster small_volume shifted_state.disk 3 = 4 ∧ IsFree small_volume shifted_state.disk 5 ∧
    (slot small_volume shifted_state.disk 2 0).file_size = 513 ∧
    (∀ i < slots_per_cluster small_volume,
      named_object (slot small_volume shifted_state.disk 2 i) = if i = 0 then some (false, 3) else none) ∧
    get_next_cluster small_volume (fat32_write shifted_state 0 [0x43]).2.disk 3 = 4 ∧
    get_next_cluster small_volume (fat32_write shifted_state 0 [0x43]).2.disk 4 = FAT32_EOC ∧
    file_byte small_volume (fat32_write shifted_state 0 [0x43]).2.disk [3, 4] 513 = 0 := by
  decide +kernel

theorem shifted_run : run 8 crammed_state crammed_history = some shifted_state := by
  obtain ⟨st, hst⟩ := Option.isSome_iff_exists.mp shifted_computed.1
  rw [shifted_state, hst, Option.getD_some]

theorem shifted_vol : shifted_state.vol = small_volume := run_vol shifted_run

theorem shifted_cells : Cells small_volume shifted_state.disk 3 [3, 4] := by
  obtain ⟨-, -, -, hend, hnext, -⟩ := shifted_computed
  exact cells_step (by decide) hnext (cells_last (by decide) (hend 4 (by decide)))

theorem crammed_table : (∀ c ∈ [2, 3, 5], get_next_cluster small_volume crammed_state.disk c = FAT32_EOC) ∧
    get_next_cluster small_volume crammed_state.disk 4 = 5 ∧
    ∀ i < slots_per_cluster small_volume, named_object (slot small_volume crammed_state.disk 2 i) =
      if i = 0 then some (false, 3) else if i = 1 then some (false, 4) else none := by
  decide +kernel

theorem crammed_cells : Cells small_volume crammed_state.disk 3 [3] ∧ Cells small_volume crammed_state.disk 4 [4, 5] := by
  obtain ⟨hend, hnext, -⟩ := crammed_table
  exact ⟨cells_last (by decide) (hend 3 (by decide)),
    cells_step (by decide) hnext (cells_last (by decide) (hend 5 (by decide)))⟩

theorem crammed_wf : WellFormed small_volume crammed_state.disk := by
  refine (wellFormed_of_flat_root small_volume_sane small_root_inRange (crammed_table.1 2 (by decide))
    (fun i => if i = 0 then [3] else if i = 1 then [4, 5] else []) (fun i hi isDir c hobj => ?_) fun i j hne x hx => ?_).1
  · change named_object (slot small_volume crammed_state.disk 2 i) = _ at hobj
    rw [crammed_table.2.2 i hi] at hobj
    split at hobj
    case isTrue hzero =>
      cases hobj
      rw [if_pos hzero]
      exact ⟨rfl, crammed_cells.1, by decide⟩
    case isFalse hzero =>
      split at hobj
      case isTrue hone =>
        cases hobj
        rw [if_neg hzero, if_pos hone]
        exact ⟨rfl, crammed_cells.2, by decide⟩
      case isFalse => cases hobj
  · grind

theorem crammed_tracked : Tracked crammed_state 0 0 where
  handle := by decide
  wf := crammed_wf
  entry := by
    have hroot : Cells small_volume crammed_state.disk 2 [2] := cells_last small_root_inRange (crammed_table.1 2 (by decide))
    refine ⟨2, 2, 0, liveDir_root, ⟨[2], hroot, List.mem_cons_self⟩, ?_⟩
    exact (view_ent_of_lt (by decide)).trans (crammed_table.2.2 0 (by decide))
  dir_cluster := small_root_inRange
  dir_entry_index := by decide
  position := by decide
  file_size := by decide
  sync := ⟨[3], crammed_cells.1, rfl, rfl, rfl⟩

theorem shifted_wf : WellFormed small_volume shifted_state.disk := by
  obtain ⟨-, -, -, hend, -, -, -, hslots, -⟩ := shifted_computed
  exact (wellFormed_of_one_file small_volume_sane small_root_inRange (hend 2 (by decide)) shifted_cells hslots
    (by decide)).1

theorem shifted_open : OpenFile shifted_state 0 2 0 [3, 4] := by
  obtain ⟨-, hfile, -, hend, -, -, hsize, hslots, -⟩ := shifted_computed
  have hroot : Cells small_volume shifted_state.disk 2 [2] := cells_last small_root_inRange (hend 2 (by decide))
  refine ⟨?_, by rw [hfile], by rw [hfile], ?_, ?_, ?_⟩ <;> rw [hfile, shifted_vol]
  · refine ⟨2, liveDir_root, ⟨[2], hroot, List.mem_cons_self⟩, ?_⟩
    exact (view_ent_of_lt (by decide)).trans (hslots 0 (by decide))
  · exact hsize
  · exact shifted_cells
  · decide

/-- The handle of A stands in cluster 4 of its file, with its offset one byte behind its position: the
    next byte lands in front of its place. -/
theorem write_misses_its_place :
    Tracked crammed_state 0 0 ∧ run 8 crammed_state crammed_history = some shifted_state ∧
      WellFormed shifted_state.vol shifted_state.disk ∧ handle shifted_state 0 = some 0 ∧
      OpenFile shifted_state 0 2 0 [3, 4] ∧ (shifted_state.open_files 0).position = 513 ∧
      0 < (spare shifted_state.vol shifted_state.disk).card ∧
      ¬ Updated shifted_state (fat32_write shifted_state 0 [0x43]).2 0 2 0 [3, 4] [0x43] := by
  have hvol := shifted_vol
  obtain ⟨-, hfile, hhandle, -, -, hfree, -, -, hnext, hend, hzero⟩ := shifted_computed
  refine ⟨crammed_tracked, shifted_run, by rw [hvol]; exact shifted_wf, hhandle, shifted_open, by rw [hfile], ?_, ?_⟩
  · have hspare : small_volume.InRange 5 ∧ IsFree small_volume shifted_state.disk 5 := ⟨by decide, hfree⟩
    rw [hvol]
    exact Finset.card_pos.mpr ⟨5, mem_spare.mpr hspare⟩
  · rintro ⟨hvol', hsize, ⟨l, hl, hpatched⟩, -, -⟩
    rw [hvol', hvol, hfile] at hl hpatched
    rw [hfile] at hsize
    have hcells : Cells small_volume (fat32_write shifted_state 0 [0x43]).2.disk 3 [3, 4] :=
      cells_step (by decide) hnext (cells_last (by decide) hend)
    obtain rfl := hl.unique hcells
    have hbyte := hpatched.inside 513 le_rfl (by decide)
    rw [hsize, file_content_get (by decide) (by decide) (by decide), hzero] at hbyte
    exact absurd hbyte (by decide)

end os_dev.fat32
