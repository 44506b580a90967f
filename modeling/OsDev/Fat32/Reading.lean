import OsDev.Fat32.Content
import OsDev.Fat32.Blank

open os_dev.ata os_dev.libc link_chain

namespace os_dev.fat32

variable {v : Volume} {d : Disk} {c : ℕ} {l : List ℕ}

def eoc (cluster : ℕ) : Bool := cluster = FAT32_EOC

theorem eoc_of_readable (x : ℕ) (hx : v.Readable x) : eoc x = false := decide_eq_false hx.ne_eoc

theorem eoc_eoc : eoc FAT32_EOC = true := by decide

theorem eoc_or_bad_of_readable (x : ℕ) (hx : v.Readable x) : eoc_or_bad x = false :=
  decide_eq_false (not_or.mpr ⟨hx.ne_eoc, hx.ne_bad⟩)

theorem eoc_or_bad_eoc : eoc_or_bad FAT32_EOC = true := by decide

/-- The two loops read alike: `fat32_read` keeps in the handle what `fat32_read_at` keeps in
    its local variables. -/
theorem read_loop_eq (v : Volume) (d : Disk) (len n : ℕ) (file : fat32_file_t) (bytes_read : ℕ)
    (hposition : file.position < 2 ^ 32) :
    read_loop v d len n file bytes_read =
      ({ file with
        current_cluster := (read_at_loop v d eoc len n file.current_cluster file.cluster_offset bytes_read).2.1
        cluster_offset := (read_at_loop v d eoc len n file.current_cluster file.cluster_offset bytes_read).2.2
        position := u32 (file.position +
          (read_at_loop v d eoc len n file.current_cluster file.cluster_offset bytes_read).1.length) },
        (read_at_loop v d eoc len n file.current_cluster file.cluster_offset bytes_read).1) := by
  have hsame : u32 file.position = file.position := u32_of_lt hposition
  induction n generalizing file bytes_read with
  | zero => simp only [read_loop, read_at_loop, List.length_nil, Nat.add_zero, hsame]
  | succ n ih =>
    simp only [read_loop, read_at_loop, eoc]
    by_cases hmore : bytes_read < len
    case neg => simp only [if_neg hmore, List.length_nil, Nat.add_zero, hsame]
    by_cases hend : file.current_cluster = FAT32_EOC
    case pos =>
      have heoc : decide (file.current_cluster = FAT32_EOC) = true := decide_eq_true hend
      simp only [if_pos hmore, if_pos hend, if_pos heoc, List.length_nil, Nat.add_zero, hsame]
    simp only [if_pos hmore, if_neg hend, decide_eq_true_eq]
    split
    case isTrue => simp only [List.length_nil, Nat.add_zero, hsame]
    case isFalse hread =>
      generalize min (512 - file.cluster_offset % 512) (len - bytes_read) = can
      have hadd : ∀ m k, u32 (u32 (m + can) + k) = u32 (m + (can + k)) := by
        intro m k
        rw [u32, u32, u32, Nat.mod_add_mod, Nat.add_assoc]
      have hlt : u32 (file.position + can) < 2 ^ 32 := Nat.mod_lt _ (by decide)
      split
      · rw [ih _ _ hlt (u32_of_lt hlt)]
        simp only [List.length_append, slice_length, hadd]
      · rw [ih _ _ hlt (u32_of_lt hlt)]
        simp only [List.length_append, slice_length, hadd]

variable {st : Fat32} {fd : Int} {i : Fin 8} {pos : ℕ}

/-- An open file whose chain can be read and is long enough for its size. -/
structure ReadableFile (st : Fat32) (fd : Int) (i : Fin 8) (l : List ℕ) : Prop where
  handle : handle st fd = some i
  cluster_pos : 0 < st.vol.bpb.sectors_per_cluster
  cluster_byte : st.vol.bpb.sectors_per_cluster < 256
  chain : FileChain st.vol st.disk (st.open_files i).first_cluster l
  fits : (st.open_files i).file_size ≤ l.length * cluster_size st.vol

/-- The cached place of a handle is the place of its position. -/
structure InSync (v : Volume) (l : List ℕ) (file : fat32_file_t) (pos : ℕ) : Prop where
  position : file.position = pos
  cluster : file.current_cluster = cluster_at v l pos
  offset : file.cluster_offset = pos % cluster_size v

/-- A handle moved to `pos`. -/
def moved_to (st : Fat32) (i : Fin 8) (l : List ℕ) (pos : ℕ) : Fat32 :=
  { st with open_files := Function.update st.open_files i { st.open_files i with
      current_cluster := cluster_at st.vol l pos
      cluster_offset := pos % cluster_size st.vol
      position := pos } }

theorem moved_to_file (st : Fat32) (i : Fin 8) (l : List ℕ) (pos : ℕ) :
    (moved_to st i l pos).open_files i = { st.open_files i with
      current_cluster := cluster_at st.vol l pos
      cluster_offset := pos % cluster_size st.vol
      position := pos } := Function.update_self _ _ _

theorem moved_to_inSync : InSync (moved_to st i l pos).vol l ((moved_to st i l pos).open_files i) pos := by
  rw [moved_to_file]
  exact ⟨rfl, rfl, rfl⟩

theorem InSync.eq_moved_to (h : InSync st.vol l (st.open_files i) pos) : moved_to st i l pos = st := by
  obtain ⟨rfl, hcluster, hoffset⟩ := h
  rw [moved_to, ← hcluster, ← hoffset]
  exact congrArg (fun files => { st with open_files := files }) (Function.update_eq_self i st.open_files)

/-- A handle number stays valid while its slot does. -/
theorem handle_update (h : handle st fd = some i) (file : fat32_file_t) (hvalid : file.valid = true) (d : Disk) :
    handle { st with disk := d, open_files := Function.update st.open_files i file } fd = some i := by
  unfold handle at h ⊢
  split at h
  case isFalse => cases h
  case isTrue hfd =>
    simp only [dif_pos hfd] at h ⊢
    split at h
    case isFalse => cases h
    case isTrue =>
      obtain rfl := Option.some.inj h
      simp only [Function.update_self, hvalid, if_true]

theorem moved_to_handle (h : handle st fd = some i) : handle (moved_to st i l pos) fd = some i := by
  refine handle_update h _ ?_ st.disk
  exact handle_valid h

theorem ReadableFile.moved (h : ReadableFile st fd i l) (pos : ℕ) : ReadableFile (moved_to st i l pos) fd i l := by
  refine ⟨moved_to_handle h.handle, h.cluster_pos, h.cluster_byte, ?_, ?_⟩
  · rw [moved_to_file]
    exact h.chain
  · rw [moved_to_file]
    exact h.fits

theorem cap_sub_eq (len : ℕ) {size cap : ℕ} (hfits : size ≤ cap) (hpos : pos < size) :
    min (if size < pos + len then size - pos else len) (cap - pos) = min len (size - pos) := by
  split <;> omega

theorem ReadableFile.read_eq (h : ReadableFile st fd i l) (hsync : InSync st.vol l (st.open_files i) pos) (len : ℕ)
    (hlen : pos + len < 2 ^ 32) :
    fat32_read st fd len = (int32 (min len ((st.open_files i).file_size - pos)),
      file_slice st.vol st.disk l pos (min len ((st.open_files i).file_size - pos)),
      moved_to st i l (pos + min len ((st.open_files i).file_size - pos))) := by
  simp only [fat32_read, h.handle, hsync.position]
  split
  case isTrue hend =>
    rw [Nat.sub_eq_zero_of_le hend, Nat.min_zero, Nat.add_zero, hsync.eq_moved_to]
    rfl
  case isFalse hend =>
    have hcap := cap_sub_eq len h.fits (not_le.mp hend)
    rw [u32_of_lt hlen]
    simp only [gt_iff_lt]
    generalize hm : (if (st.open_files i).file_size < pos + len then (st.open_files i).file_size - pos else len) = m at hcap ⊢
    rw [read_loop_eq _ _ _ _ _ _ (by rw [hsync.position]; omega), hsync.cluster, hsync.offset,
      read_at_loop_eq h.cluster_pos h.cluster_byte h.chain eoc_of_readable eoc_eoc m m pos 0 (by omega), Nat.sub_zero, hcap, hsync.position]
    simp only [file_slice_length]
    rw [u32_of_lt (by omega)]
    rfl

theorem seek_walk_eoc (n : ℕ) : seek_walk v d n FAT32_EOC = FAT32_EOC := by
  cases n with
  | zero => rfl
  | succ n => rw [seek_walk, if_pos (.inl rfl)]

theorem seek_walk_eq (h : FileChain v d c l) (n q : ℕ) :
    seek_walk v d n (l.getD q FAT32_EOC) = l.getD (q + n) FAT32_EOC := by
  induction n generalizing q with
  | zero => rfl
  | succ n ih =>
    by_cases hlt : q < l.length
    · have hmem : l.getD q FAT32_EOC ∈ l := by
        rw [List.getD_eq_getElem _ _ hlt]
        exact List.getElem_mem hlt
      have hreadable := h.ok_of_mem hmem
      rw [seek_walk, if_neg (not_or.mpr ⟨hreadable.ne_eoc, hreadable.ne_bad⟩), h.next_getD hlt, ih (q + 1)]
      congr 1
      omega
    · rw [List.getD_eq_default _ _ (by omega), List.getD_eq_default _ _ (by omega), seek_walk_eoc]

theorem read_at_walk_eq (h : FileChain v d c l) (n q : ℕ) (hq : q + n ≤ l.length) :
    read_at_walk v d n (l.getD q FAT32_EOC) = some (l.getD (q + n) FAT32_EOC) := by
  induction n generalizing q with
  | zero => rfl
  | succ n ih =>
    have hlt : q < l.length := by omega
    have hmem : l.getD q FAT32_EOC ∈ l := by
      rw [List.getD_eq_getElem _ _ hlt]
      exact List.getElem_mem hlt
    have hreadable := h.ok_of_mem hmem
    rw [read_at_walk, if_neg (not_or.mpr ⟨hreadable.ne_eoc, hreadable.ne_bad⟩), h.next_getD hlt, ih (q + 1) (by omega)]
    congr 2
    omega

theorem fat32_seek_eq (hfd : handle st fd = some i) (hpos : 0 < st.vol.bpb.sectors_per_cluster)
    (hl : FileChain st.vol st.disk (st.open_files i).first_cluster l) (offset : ℕ) :
    fat32_seek st fd offset = some (0, moved_to st i l (min offset (st.open_files i).file_size)) := by
  have hcs := cluster_size_pos hpos
  have hclamp : (if offset > (st.open_files i).file_size then (st.open_files i).file_size else offset) =
      min offset (st.open_files i).file_size := by
    split <;> omega
  have hwalk := seek_walk_eq hl (min offset (st.open_files i).file_size / cluster_size st.vol) 0
  rw [hl.getD_zero, Nat.zero_add] at hwalk
  simp only [fat32_seek, hfd, hclamp, if_neg hcs.ne', hwalk]
  rfl

theorem ReadableFile.seek_eq (h : ReadableFile st fd i l) (offset : ℕ) :
    fat32_seek st fd offset = some (0, moved_to st i l (min offset (st.open_files i).file_size)) :=
  fat32_seek_eq h.handle h.cluster_pos h.chain offset

theorem ReadableFile.read_at_eq (h : ReadableFile st fd i l) {offset len : ℕ} (hlen : offset + len < 2 ^ 32) :
    fat32_read_at st fd offset len = some (int32 (min len ((st.open_files i).file_size - offset)),
      file_slice st.vol st.disk l offset (min len ((st.open_files i).file_size - offset)), st) := by
  have hcs := cluster_size_pos h.cluster_pos
  simp only [fat32_read_at, h.handle]
  split
  case isTrue hend =>
    rw [Nat.sub_eq_zero_of_le hend, Nat.min_zero]
    rfl
  case isFalse hend =>
    have hfits := h.fits
    have hcap := cap_sub_eq len hfits (not_le.mp hend)
    have hindex : offset / cluster_size st.vol ≤ l.length := by
      refine Nat.div_le_of_le_mul ?_
      rw [Nat.mul_comm]
      omega
    have hwalk := read_at_walk_eq h.chain (offset / cluster_size st.vol) 0 (by omega)
    rw [h.chain.getD_zero, Nat.zero_add] at hwalk
    rw [if_neg hcs.ne', u32_of_lt hlen, hwalk]
    simp only [gt_iff_lt]
    generalize hm : (if (st.open_files i).file_size < offset + len then (st.open_files i).file_size - offset else len) = m
      at hcap ⊢
    have hloop := read_at_loop_eq h.cluster_pos h.cluster_byte h.chain eoc_or_bad_of_readable eoc_or_bad_eoc m m offset 0
      (by omega)
    rw [Nat.sub_zero, hcap, cluster_at] at hloop
    rw [hloop, file_slice_length]

/-- Consecutive reads of the lengths `lens`: the bytes delivered and the state afterwards. -/
def read_all (st : Fat32) (fd : Int) : List ℕ → List UInt8 × Fat32
  | [] => ([], st)
  | len :: lens =>
    let res := fat32_read st fd len
    let rest := read_all res.2.2 fd lens
    (res.2.1 ++ rest.1, rest.2)

/-- However a sequential read is split, it delivers the same bytes. -/
theorem ReadableFile.read_all_eq (h : ReadableFile st fd i l) (hsync : InSync st.vol l (st.open_files i) pos) (lens : List ℕ)
    (hlen : pos + lens.sum < 2 ^ 32) :
    (read_all st fd lens).1 = file_slice st.vol st.disk l pos (min lens.sum ((st.open_files i).file_size - pos)) := by
  induction lens generalizing st pos with
  | nil =>
    rw [List.sum_nil, Nat.zero_min]
    rfl
  | cons len lens ih =>
    rw [List.sum_cons] at hlen ⊢
    generalize hn : min len ((st.open_files i).file_size - pos) = n
    have hread := h.read_eq hsync len (by omega)
    rw [hn] at hread
    have hrest := ih (h.moved (pos + n)) moved_to_inSync (by omega)
    have hsize : ((moved_to st i l (pos + n)).open_files i).file_size = (st.open_files i).file_size := by
      rw [moved_to_file]
    rw [hsize] at hrest
    simp only [read_all, hread]
    rw [hrest]
    change file_slice st.vol st.disk l pos n ++ file_slice st.vol st.disk l (pos + n) _ = _
    rw [file_slice_append]
    congr 1
    omega

theorem file_content_piece (hpos : 0 < v.bpb.sectors_per_cluster) {size : ℕ} (hfits : size ≤ l.length * cluster_size v)
    (offset len : ℕ) :
    ((file_content v d l size).drop offset).take len = file_slice v d l offset (min len (size - offset)) := by
  rw [file_content, chain_data_eq hpos, file_slice, file_slice]
  refine List.ext_getElem (by simp; omega) fun k hk _ => ?_
  simp only [List.getElem_take, List.getElem_drop, List.getElem_map, List.getElem_range, Nat.zero_add]

/-- The bytes that a read of `len` bytes at `offset` is to deliver. -/
def wanted (st : Fat32) (i : Fin 8) (l : List ℕ) (offset len : ℕ) : List UInt8 :=
  ((file_content st.vol st.disk l (st.open_files i).file_size).drop offset).take len

theorem ReadableFile.wanted_eq (h : ReadableFile st fd i l) (offset len : ℕ) :
    wanted st i l offset len =
      file_slice st.vol st.disk l offset (min len ((st.open_files i).file_size - offset)) :=
  file_content_piece h.cluster_pos h.fits offset len

/-- Positional and sequential reads deliver the content of the file, however they are split. -/
theorem reads_agree (h : ReadableFile st fd i l) (offset len : ℕ) (hlen : offset + len < 2 ^ 32) :
    fat32_read_at st fd offset len =
        some (int32 (wanted st i l offset len).length, wanted st i l offset len, st) ∧
      (∃ st', fat32_seek st fd offset = some (0, st') ∧
        (fat32_read st' fd len).1 = int32 (wanted st i l offset len).length ∧
        (fat32_read st' fd len).2.1 = wanted st i l offset len ∧
        ∀ lens : List ℕ, lens.sum = len → (read_all st' fd lens).1 = wanted st i l offset len) ∧
      (InSync st.vol l (st.open_files i) offset → ∀ lens : List ℕ, lens.sum = len →
        (read_all st fd lens).1 = (fat32_read st fd len).2.1) := by
  have hseek := h.seek_eq offset
  generalize hstart : min offset (st.open_files i).file_size = start at hseek
  have hfile : ((moved_to st i l start).open_files i).file_size = (st.open_files i).file_size := by
    rw [moved_to_file]
  have hmoved := (h.moved start).read_eq moved_to_inSync len (by omega)
  rw [hfile] at hmoved
  -- a seek past the end stops there, where nothing is left to read
  have hslice : file_slice st.vol st.disk l start (min len ((st.open_files i).file_size - start)) = wanted st i l offset len := by
    rw [h.wanted_eq]
    by_cases hend : (st.open_files i).file_size ≤ offset
    · rw [Nat.sub_eq_zero_of_le hend, show (st.open_files i).file_size - start = 0 by omega, Nat.min_zero]
      rfl
    · rw [show start = offset by omega]
  have hlength : (wanted st i l offset len).length = min len ((st.open_files i).file_size - start) := by
    rw [← hslice, file_slice_length]
  refine ⟨?_, ⟨_, hseek, ?_, ?_, fun lens hsum => ?_⟩, fun hsync lens hsum => ?_⟩
  · rw [h.read_at_eq hlen, h.wanted_eq, file_slice_length]
  · rw [hmoved, hlength]
  · rw [hmoved]
    exact hslice
  · have hall := (h.moved start).read_all_eq moved_to_inSync lens (by omega)
    rw [hfile, hsum] at hall
    exact hall.trans hslice
  · rw [h.read_all_eq hsync lens (by omega), h.read_eq hsync len hlen, hsum]

/-- A file of 600 bytes in two clusters, open and at its start. -/
def text_state : Fat32 :=
  { small_state with
    disk := Function.update (Function.update
      (set_next_cluster small_volume (set_next_cluster small_volume small_state.disk 3 4) 4 FAT32_EOC)
      3 fun _ => 0x41) 4 fun _ => 0x42
    open_files := fun i => if i.val = 0 then ⟨true, 3, 3, 0, 600, 0, 2, 0, ascii "A"⟩ else small_state.open_files i }

theorem text_chain : FileChain text_state.vol text_state.disk 3 [3, 4] := by
  have hthree : small_volume.InRange 3 := by decide
  have hfour : small_volume.InRange 4 := by decide
  exact .step (small_volume_sane.readable hthree) (show _ = 4 by decide +kernel)
    (.last (small_volume_sane.readable hfour) (by decide +kernel))

theorem text_file : ReadableFile text_state 0 0 [3, 4] where
  handle := by decide
  cluster_pos := by decide
  cluster_byte := by decide
  chain := text_chain
  fits := by decide

/-- Across the end of the first cluster and past the end of the file. -/
theorem reads_agree_text :
    fat32_read_at text_state 0 510 600 =
      some (90, [0x41, 0x41] ++ List.replicate 88 0x42, text_state) := by
  have hwanted : wanted text_state 0 [3, 4] 510 600 = [0x41, 0x41] ++ List.replicate 88 0x42 := by decide +kernel
  have hread := (reads_agree text_file 510 600 (by decide)).1
  rw [hwanted] at hread
  exact hread

end os_dev.fat32
