import OsDev.Fat32.SectorWrites
import OsDev.Fat32.Writing
import OsDev.Fat32.Integrity

open os_dev.ata os_dev.libc link_chain

namespace os_dev.fat32

variable {v : Volume} {d d' : Disk} {c : ℕ} {l : List ℕ} {file : fat32_file_t} {pos : ℕ}

/-- Where a call may write: to a cluster that is on the file's chain at that moment, to the table, or
    to the sector of the file's directory entry. -/
def Place.LandsIn (v : Volume) (file : fat32_file_t) (d : Disk) : Place → Prop
  | .data cluster offset => (∃ l, Cells v d file.first_cluster l ∧ cluster ∈ l) ∧ offset < cluster_size v ∧
    Place.lba v (.data cluster offset) = data_sector v cluster (offset / 512)
  | .table cluster => Place.lba v (.table cluster) < v.data_lba
  | .entry cluster index => cluster = file.dir_cluster ∧ index = file.dir_entry_index ∧
    Place.lba v (.entry cluster index) = data_sector v cluster (index / 16)

theorem Place.LandsIn.of_same {file' : fat32_file_t} {p : Place} (h : p.LandsIn v file' d)
    (hfirst : file'.first_cluster = file.first_cluster) (hdir : file'.dir_cluster = file.dir_cluster)
    (hindex : file'.dir_entry_index = file.dir_entry_index) : p.LandsIn v file d := by
  cases p with
  | data cluster offset => rwa [Place.LandsIn, hfirst] at h
  | table cluster => exact h
  | entry cluster index => rwa [Place.LandsIn, hdir, hindex] at h

theorem landsIn_data (hv : v.Sane) (hl : Cells v d file.first_cluster l) {cluster offset : ℕ} (hc : cluster ∈ l)
    (hoffset : offset < cluster_size v) : Place.LandsIn v file d (.data cluster offset) := by
  have hsize := cluster_size_eq v
  exact ⟨⟨l, hl, hc⟩, hoffset, hv.sector_lba_eq (hl.inRange hc) (by omega)⟩

theorem landsIn_table (hv : v.Sane) {cluster : ℕ} (hc : v.InRange cluster) : Place.LandsIn v file d (.table cluster) := by
  obtain ⟨hlt, -, hlba, -⟩ := hv.table_sector hc.inTable
  rw [Place.LandsIn, Place.lba, hlba]
  exact hlt

theorem clear_calls_landsIn (hv : v.Sane) (hl : Cells v d file.first_cluster l) {y n s : ℕ} (hy : y ∈ l)
    (hn : s + n ≤ v.bpb.sectors_per_cluster) : ∀ w ∈ clear_calls v y n s d, w.place.LandsIn v file w.device := by
  induction n generalizing s d with
  | zero =>
    intro w hw
    cases hw
  | succ n ih =>
    have hsize := cluster_size_eq v
    intro w hw
    obtain rfl | hw := List.mem_cons.mp hw
    · exact landsIn_data hv hl hy (by omega)
    · refine ih (hl.congr_words hv fun x hx => ?_) (by omega) w hw
      -- clearing a sector does not touch the table
      rw [SectorWrite.performed, Place.lba, Nat.mul_div_cancel_left s (by decide),
        hv.write_sector (hl.inRange hy) (by omega)]
      exact fat_word_update_data hv (hl.inRange hx).inTable

theorem linked_cells (h : WellFormed v d) {o : Option (ℕ × ℕ)} {x y : ℕ} (ho : Owns v d o c) (hl : Cells v d c l)
    (hx : x ∈ l) (hlast : get_next_cluster v d x = FAT32_EOC) (hy : v.InRange y) (hfree : IsFree v d y) :
    Cells v (set_next_cluster v (set_next_cluster v d x y) y FAT32_EOC) c (l ++ [y]) := by
  have hcells := append_cells h (.of_cells ho hl hx) hlast hy hfree ho hl
  rw [if_pos hx] at hcells
  refine Cells.congr_words h.sane hcells fun z hz => ?_
  exact (h.sane.fat_word_congr (hcells.inRange hz).inTable fun lba hlba => h.sane.zero_cluster_table hy hlba _).symm

theorem advance_calls_landsIn (h : WellFormed v d) {p k i n : ℕ} (hlists : Lists v d p k i false file.first_cluster)
    (hl : Cells v d file.first_cluster l) (hinside : pos < l.length * cluster_size v) (hstep : pos % 512 + n ≤ 512)
    (hcluster : file.current_cluster = cluster_at v l pos) (hoffset : file.cluster_offset = pos % cluster_size v + n)
    (hroom : (pos + n) / cluster_size v + 1 ≤ l.length + (spare v d).card) :
    ∀ w ∈ advance_calls v d file, w.place.LandsIn v file w.device := by
  intro w hw
  unfold advance_calls at hw
  split at hw
  case isFalse => cases hw
  case isTrue hend =>
    obtain ⟨hend, hlast, -⟩ := hend
    rw [hoffset] at hend
    have hmem := cluster_at_mem hinside
    obtain ⟨-, hspare⟩ := spare_of_last h.sane hl hinside hstep hend (by rwa [← hcluster]) hroom
    obtain ⟨-, hfresh, hfree⟩ := h.sane.find_free_of_spare hspare
    rw [← hcluster] at hmem
    -- two table words, then the sectors of the new cluster
    obtain rfl | hw := List.mem_cons.mp hw
    · exact landsIn_table h.sane (hl.inRange hmem)
    obtain rfl | hw := List.mem_cons.mp hw
    · exact landsIn_table h.sane hfresh
    · refine clear_calls_landsIn h.sane (linked_cells h hlists.owns hl hmem hlast hfresh hfree) ?_ ?_ w hw
      · exact List.mem_append_right l List.mem_cons_self
      · omega

/-- Every call of one round of the loop writes to the table or to the file's chain. -/
theorem Positioned.round_landsIn (h : Positioned v d file l pos) (buf : Sector) {bytes : List UInt8}
    (hwrap : pos + bytes.length < 2 ^ 32) (hroom : RoomFor v d l pos bytes.length) :
    ∀ w ∈ chunk_call v d file buf bytes ::
      advance_calls v (write_chunk v d file buf bytes).1 (write_chunk v d file buf bytes).2.1,
      w.place.LandsIn v file w.device := by
  intro w hw
  obtain rfl | hw := List.mem_cons.mp hw
  · refine landsIn_data h.wf.sane h.cells ?_ ?_
    · rw [h.sync.cluster]
      exact cluster_at_mem h.inside
    · rw [h.sync.offset]
      exact Nat.mod_lt _ (cluster_size_pos h.wf.sane.cluster_pos)
  · obtain ⟨p, k, i, hlists⟩ := h.entry
    obtain ⟨htree, hcells, hspare⟩ := h.chunk buf bytes
    obtain ⟨hstep, hfile⟩ := h.chunk_file buf bytes hwrap
    have hcan := (can_write_le file bytes).2.1
    have hdiv : (pos + can_write file bytes) / cluster_size v ≤ (pos + bytes.length) / cluster_size v :=
      Nat.div_le_div_right (by omega)
    unfold RoomFor at hroom
    generalize (write_chunk v d file buf bytes).2.1 = file₁ at hfile hw
    generalize (write_chunk v d file buf bytes).1 = d₁ at htree hcells hspare hw
    have hfirst : file₁.first_cluster = file.first_cluster := by rw [hfile]
    have hlands := advance_calls_landsIn (n := can_write file bytes) htree.wf
      (by rw [hfirst]; exact (htree.lists p k i false _).mpr hlists) (by rwa [hfirst]) h.inside hstep
      (by rw [hfile]; exact h.sync.cluster) (by rw [hfile]) (by rw [hspare]; omega) w hw
    exact hlands.of_same hfirst (by rw [hfile]) (by rw [hfile])

/-- Every call of the loop writes to the table or to the file's chain. -/
theorem Positioned.loop_landsIn (h : Positioned v d file l pos) (n : ℕ) (buf : Sector) (bytes : List UInt8)
    (hwrap : pos + bytes.length < 2 ^ 32) (hroom : RoomFor v d l pos bytes.length) :
    ∀ w ∈ loop_calls v n d file buf bytes, w.place.LandsIn v file w.device := by
  induction n generalizing d file l pos buf bytes with
  | zero =>
    intro w hw
    cases hw
  | succ n ih =>
    intro w hw
    rw [loop_calls] at hw
    by_cases hbytes : bytes = []
    · rw [if_pos hbytes] at hw
      cases hw
    · rw [if_neg hbytes] at hw
      obtain ⟨hgo, new, hround⟩ := h.round buf bytes hwrap hroom
      have hhere := h.round_landsIn buf hwrap hroom w
      have hlen := length_take_can_write file bytes
      have hle := (can_write_le file bytes).2.1
      have hsum : can_write file bytes + (bytes.drop (can_write file bytes)).length = bytes.length := by
        rw [List.length_drop]
        omega
      simp only [hgo, if_true] at hw
      obtain hw | hw := List.mem_append.mp hw
      · exact hhere hw
      · have hrest := ih (hround.positioned h) (write_chunk v d file buf bytes).2.2 (bytes.drop (can_write file bytes))
          (by rw [hlen]; omega) (hround.roomFor _ (by rwa [hlen, hsum])) w hw
        exact hrest.of_same hround.first_cluster (by rw [hround.same]) (by rw [hround.same])

variable {st st' : Fat32} {fd : Int} {i : Fin 8}

/-- A call on a given handle. -/
inductive HandleOp
  | read (len : ℕ)
  | write (bytes : List UInt8)
  | seek (pos : ℕ)

def HandleOp.on (fd : Int) : HandleOp → Op
  | .read len => .read fd len
  | .write bytes => .write fd bytes
  | .seek pos => .seek fd pos

/-- A valid handle of a regular file whose cached place is that of its position. -/
structure Tracked (st : Fat32) (fd : Int) (i : Fin 8) : Prop where
  handle : handle st fd = some i
  wf : WellFormed st.vol st.disk
  entry : ∃ p k s, Lists st.vol st.disk p k s false (st.open_files i).first_cluster
  dir_cluster : st.vol.InRange (st.open_files i).dir_cluster
  dir_entry_index : (st.open_files i).dir_entry_index < slots_per_cluster st.vol
  position : (st.open_files i).position < 2 ^ 32
  file_size : (st.open_files i).file_size < 2 ^ 32
  sync : ∃ l, Cells st.vol st.disk (st.open_files i).first_cluster l ∧
    InSync st.vol l (st.open_files i) (st.open_files i).position

/-- A call that stays in the file: a write that is not empty starts in a cluster of the file and
    finds the clusters it needs, and no position wraps in 32 bits. -/
def Careful (st : Fat32) (i : Fin 8) : HandleOp → Prop
  | .read len => (st.open_files i).position + len < 2 ^ 32 ∨
    ∃ l, Cells st.vol st.disk (st.open_files i).first_cluster l ∧ l.length * cluster_size st.vol < 2 ^ 32
  | .write bytes => bytes = [] ∨
    ∃ l, Cells st.vol st.disk (st.open_files i).first_cluster l ∧
      (st.open_files i).position < l.length * cluster_size st.vol ∧
      (st.open_files i).position + bytes.length < 2 ^ 32 ∧
      RoomFor st.vol st.disk l (st.open_files i).position bytes.length
  | .seek _ => True

/-- What happens elsewhere: the handle, its file's entry and its file's clusters stay. -/
structure Elsewhere (st st' : Fat32) (fd : Int) (i : Fin 8) : Prop where
  vol : st'.vol = st.vol
  handle : handle st' fd = some i
  file : st'.open_files i = st.open_files i
  wf : WellFormed st'.vol st'.disk
  entry : ∃ p k s, Lists st'.vol st'.disk p k s false (st'.open_files i).first_cluster
  cells : ∀ l, Cells st.vol st.disk (st.open_files i).first_cluster l → Cells st'.vol st'.disk (st'.open_files i).first_cluster l

/-- The states that careful calls on a handle lead to, whatever happens elsewhere in between. -/
inductive Reached (fd : Int) (i : Fin 8) (st : Fat32) : Fat32 → Prop
  | start : Reached fd i st st
  | call {st' st'' : Fat32} (op : HandleOp) (hrun : Reached fd i st st') (hcareful : Careful st' i op)
      (hstep : step 0 st' (op.on fd) = some st'') : Reached fd i st st''
  | elsewhere {st' st'' : Fat32} (hrun : Reached fd i st st') (hother : Elsewhere st' st'' fd i) : Reached fd i st st''

theorem Tracked.elsewhere (h : Tracked st fd i) (hother : Elsewhere st st' fd i) : Tracked st' fd i := by
  obtain ⟨l, hl, hsync⟩ := h.sync
  have hfile := hother.file
  refine ⟨hother.handle, hother.wf, hother.entry, ?_, ?_, ?_, ?_, l, hother.cells l hl, ?_⟩
  · rw [hfile, hother.vol]
    exact h.dir_cluster
  · rw [hfile, hother.vol]
    exact h.dir_entry_index
  · rw [hfile]
    exact h.position
  · rw [hfile]
    exact h.file_size
  · rw [hfile, hother.vol]
    exact hsync

theorem Tracked.update (hfd : fat32.handle st fd = some i) (hwf : WellFormed st.vol d) (hvalid : file.valid = true)
    (hentry : ∃ p k s, Lists st.vol d p k s false file.first_cluster) (hin : st.vol.InRange file.dir_cluster)
    (hi : file.dir_entry_index < slots_per_cluster st.vol) (hposition : file.position < 2 ^ 32)
    (hsize : file.file_size < 2 ^ 32) (hl : Cells st.vol d file.first_cluster l) (hsync : InSync st.vol l file file.position) :
    Tracked { st with disk := d, open_files := Function.update st.open_files i file } fd i := by
  refine ⟨handle_update hfd file hvalid d, hwf, ?_, ?_, ?_, ?_, ?_, l, ?_, ?_⟩ <;> simp only [Function.update_self]
  · exact hentry
  · exact hin
  · exact hi
  · exact hposition
  · exact hsize
  · exact hl
  · exact hsync

/-- Moving the handle along its file keeps it tracked. -/
theorem Tracked.moved (h : Tracked st fd i) (hl : Cells st.vol st.disk (st.open_files i).first_cluster l)
    (hpos : pos < 2 ^ 32) : Tracked (moved_to st i l pos) fd i := by
  refine Tracked.update (l := l) h.handle h.wf ?_ ?_ ?_ ?_ ?_ ?_ ?_ ?_
  · exact handle_valid h.handle
  · exact h.entry
  · exact h.dir_cluster
  · exact h.dir_entry_index
  · exact hpos
  · exact h.file_size
  · exact hl
  · exact ⟨rfl, rfl, rfl⟩

/-- A read moves the handle along its file, up to the end of the chain. -/
theorem read_moves (hfd : handle st fd = some i) (hpos : 0 < st.vol.bpb.sectors_per_cluster)
    (hbyte : st.vol.bpb.sectors_per_cluster < 256) (hl : FileChain st.vol st.disk (st.open_files i).first_cluster l)
    (hsync : InSync st.vol l (st.open_files i) pos) (hsmall : pos < 2 ^ 32) (len : ℕ) :
    ∃ n, n ≤ len ∧ pos + n ≤ max pos (l.length * cluster_size st.vol) ∧
      (pos + n < 2 ^ 32 → (fat32_read st fd len).2.2 = moved_to st i l (pos + n)) := by
  simp only [fat32_read, hfd, hsync.position]
  by_cases hend : (st.open_files i).file_size ≤ pos
  · refine ⟨0, Nat.zero_le _, by omega, fun _ => ?_⟩
    rw [if_pos hend, Nat.add_zero, hsync.eq_moved_to]
  · generalize hm : (if u32 (pos + len) > (st.open_files i).file_size then (st.open_files i).file_size - pos else len) = m
    have hle : m ≤ len := by
      unfold u32 at hm
      have hmod := Nat.mod_le (pos + len) (2 ^ 32)
      split at hm <;> omega
    refine ⟨min m (l.length * cluster_size st.vol - pos), by omega, by omega, fun hwrap => ?_⟩
    rw [if_neg hend, read_loop_eq _ _ _ _ _ _ (by rw [hsync.position]; exact hsmall), hsync.cluster, hsync.offset,
      read_at_loop_eq hpos hbyte hl eoc_of_readable eoc_eoc m m pos 0 (by omega), Nat.sub_zero, hsync.position]
    simp only [file_slice_length]
    rw [u32_of_lt hwrap]
    rfl

/-- What `fat32_write` does from a place inside of the file. -/
theorem Positioned.fat32_write_eq (hfd : handle st fd = some i) (h : Positioned st.vol st.disk (st.open_files i) l pos)
    (bytes : List UInt8) (hbytes : bytes ≠ []) (hwrap : pos + bytes.length < 2 ^ 32)
    (hroom : RoomFor st.vol st.disk l pos bytes.length) :
    ∃ d file new, Advances st.vol st.disk d (st.open_files i) file l new pos bytes ∧
      fat32_write st fd bytes = (int32 bytes.length,
        if file.position > file.file_size then
          { st with
            disk := write_back_size st.vol d { file with file_size := file.position }
            open_files := Function.update st.open_files i { file with file_size := file.position } }
        else { st with disk := d, open_files := Function.update st.open_files i file }) := by
  obtain ⟨d, file, new, hloop, hadv⟩ := h.loop bytes.length st.vol.uninit bytes le_rfl hwrap hroom
  refine ⟨d, file, new, hadv, ?_⟩
  have hpos := List.length_pos_of_ne_nil hbytes
  simp only [fat32_write, hfd, hloop, hpos, true_and]
  split <;> rfl

/-- Writing a size back leaves the table alone. -/
theorem write_back_size_word (hv : v.Sane) (file : fat32_file_t) (hin : v.InRange file.dir_cluster)
    (hi : file.dir_entry_index < slots_per_cluster v) {x : ℕ} (hx : v.InTable x) : fat_word v (write_back_size v d file) x = fat_word v d x := by
  rw [write_back_size_eq hv d hin hi]
  exact fat_word_update_data hv hx

theorem write_nil (hfd : handle st fd = some i) : (fat32_write st fd []).2 = st := by
  simp [fat32_write, hfd, write_loop]

theorem Tracked.write (h : Tracked st fd i) {bytes : List UInt8} (hcareful : Careful st i (.write bytes)) :
    Tracked (fat32_write st fd bytes).2 fd i := by
  obtain rfl | ⟨l, hl, hinside, hwrap, hroom⟩ := hcareful
  · rwa [write_nil h.handle]
  by_cases hbytes : bytes = []
  · rwa [hbytes, write_nil h.handle]
  obtain ⟨l', hl', hsync⟩ := h.sync
  obtain rfl := hl'.unique hl
  obtain ⟨p, k, s, hlists⟩ := h.entry
  obtain ⟨d, file, new, hadv, heq⟩ := Positioned.fat32_write_eq h.handle ⟨h.wf, h.entry, hl, hsync, hinside⟩ bytes hbytes hwrap hroom
  have hsync' := hadv.sync
  have hcells := hadv.cells
  have hentry : ∃ p k s, Lists st.vol d p k s false file.first_cluster := by
    refine ⟨p, k, s, ?_⟩
    rw [hadv.first_cluster]
    exact (hadv.tree.lists p k s false _).mpr hlists
  have hvalid : file.valid = true := by
    rw [hadv.same]
    exact handle_valid h.handle
  have hin : st.vol.InRange file.dir_cluster := by
    rw [hadv.same]
    exact h.dir_cluster
  have hi : file.dir_entry_index < slots_per_cluster st.vol := by
    rw [hadv.same]
    exact h.dir_entry_index
  have hposition : file.position < 2 ^ 32 := by rwa [hsync'.position]
  rw [← hadv.first_cluster] at hcells
  rw [← hsync'.position] at hsync'
  rw [heq]
  split
  case isTrue =>
    obtain ⟨p, k, s, hentry⟩ := hentry
    have htree := hadv.tree.wf.write_size { file with file_size := file.position } hin hi
    refine Tracked.update (l := l' ++ new) h.handle htree.wf hvalid ?_ hin hi hposition hposition ?_ ?_
    · exact ⟨p, k, s, (htree.lists p k s false _).mpr hentry⟩
    · refine Cells.congr_words h.wf.sane hcells fun x hx => ?_
      exact write_back_size_word h.wf.sane { file with file_size := file.position } hin hi (hcells.inRange hx).inTable
    · exact ⟨hsync'.position, hsync'.cluster, hsync'.offset⟩
  case isFalse =>
    have hsize : file.file_size < 2 ^ 32 := by
      rw [hadv.same]
      exact h.file_size
    exact Tracked.update h.handle hadv.tree.wf hvalid hentry hin hi hposition hsize hcells hsync'

theorem Tracked.step (h : Tracked st fd i) {op : HandleOp} (hcareful : Careful st i op)
    (hstep : step 0 st (op.on fd) = some st') : Tracked st' fd i := by
  obtain ⟨l, hl, hsync⟩ := h.sync
  have hchain := Cells.fileChain h.wf.sane hl
  cases op with
  | read len =>
    obtain ⟨n, hlen, hcap, hmove⟩ := read_moves h.handle h.wf.sane.cluster_pos h.wf.sane.cluster_byte hchain hsync h.position len
    have hsmall := h.position
    have hwrap : (st.open_files i).position + n < 2 ^ 32 := by
      obtain hlt | ⟨l', hl', hlt⟩ := hcareful
      · omega
      · rw [hl'.unique hl] at hlt
        omega
    obtain rfl := Option.some.inj hstep
    rw [hmove hwrap]
    exact h.moved hl hwrap
  | write bytes =>
    obtain rfl := Option.some.inj hstep
    exact h.write hcareful
  | seek pos =>
    rw [HandleOp.on, fat32.step, fat32_seek_eq h.handle h.wf.sane.cluster_pos hchain] at hstep
    obtain rfl := Option.some.inj hstep
    have hsize := h.file_size
    exact h.moved hl (by omega)

theorem Reached.tracked (h : Reached fd i st st') (hstart : Tracked st fd i) : Tracked st' fd i := by
  induction h with
  | start => exact hstart
  | call op _ hcareful hstep ih => exact ih.step hcareful hstep
  | elsewhere _ hother ih => exact ih.elsewhere hother

/-- The cached place of a handle lies in its file: the offset in a cluster, and the cluster, where
    there is one, that of the position. -/
def InPlace (st : Fat32) (i : Fin 8) : Prop :=
  ∃ l, Cells st.vol st.disk (st.open_files i).first_cluster l ∧
    (st.open_files i).cluster_offset < cluster_size st.vol ∧
    ∀ q x, (st.open_files i).position / cluster_size st.vol = q → l[q]? = some x → (st.open_files i).current_cluster = x

theorem Tracked.inPlace (h : Tracked st fd i) : InPlace st i := by
  obtain ⟨l, hl, hsync⟩ := h.sync
  refine ⟨l, hl, ?_, ?_⟩
  · rw [hsync.offset]
    exact Nat.mod_lt _ (cluster_size_pos h.wf.sane.cluster_pos)
  · rintro q x rfl hx
    rw [hsync.cluster, cluster_at, List.getD_eq_getElem?_getD, hx, Option.getD_some]

/-- Every call of `ata_write_sectors` in a careful write lands in the file's chain, in the table or in
    the sector of the file's directory entry. -/
theorem Tracked.write_calls_landsIn (h : Tracked st fd i) {bytes : List UInt8} (hcareful : Careful st i (.write bytes)) :
    ∀ w ∈ write_calls st i bytes, w.place.LandsIn st.vol (st.open_files i) w.device := by
  intro w hw
  obtain rfl | ⟨l, hl, hinside, hwrap, hroom⟩ := hcareful
  · cases hw
  obtain ⟨l', hl', hsync⟩ := h.sync
  obtain rfl := hl'.unique hl
  have hplaced : Positioned st.vol st.disk (st.open_files i) l' (st.open_files i).position :=
    ⟨h.wf, h.entry, hl, hsync, hinside⟩
  obtain ⟨d, file, new, hloop, hadv⟩ := hplaced.loop bytes.length st.vol.uninit bytes le_rfl hwrap hroom
  have hdir : file.dir_cluster = (st.open_files i).dir_cluster := by rw [hadv.same]
  have hindex : file.dir_entry_index = (st.open_files i).dir_entry_index := by rw [hadv.same]
  simp only [write_calls, hloop] at hw
  obtain hw | hw := List.mem_append.mp hw
  · exact hplaced.loop_landsIn bytes.length st.vol.uninit bytes hwrap hroom w hw
  split at hw
  case isTrue =>
    obtain rfl := List.mem_singleton.mp hw
    refine ⟨hdir, hindex, h.wf.sane.sector_lba_eq ?_ ?_⟩
    · rw [hdir]
      exact h.dir_cluster
    · rw [hindex]
      exact sector_of_slot h.dir_entry_index
  case isFalse => cases hw

/-- In every state that careful calls on a handle lead to, the handle is in place, and the next careful
    write changes the device by calls that land in the file's chain, the table and the sector of its
    directory entry. -/
theorem write_footprint (hstart : Tracked st fd i) (hrun : Reached fd i st st') :
    InPlace st' i ∧ ∀ bytes, Careful st' i (.write bytes) →
      Performs st'.vol st'.disk (write_calls st' i bytes) (fat32_write st' fd bytes).2.disk ∧
      ∀ w ∈ write_calls st' i bytes, w.place.LandsIn st'.vol (st'.open_files i) w.device := by
  have h := hrun.tracked hstart
  exact ⟨h.inPlace, fun bytes hcareful => ⟨fat32_write_performs h.handle bytes, h.write_calls_landsIn hcareful⟩⟩

/-- A volume with one file of exactly one cluster, open at its start. -/
def one_cluster_state : Fat32 :=
  { small_state with
    disk := Function.update (set_next_cluster small_volume small_state.disk 3 FAT32_EOC) 2
      (put_entry zero_buf 0 (ascii "A       ") (ascii "   ") FAT_ATTR_ARCHIVE 3 512)
    open_files := fun i => if i.val = 0 then ⟨true, 3, 3, 0, 512, 0, 2, 0, ascii "A"⟩ else small_state.open_files i }

theorem one_cluster_table : get_next_cluster small_volume one_cluster_state.disk 2 = FAT32_EOC ∧
    get_next_cluster small_volume one_cluster_state.disk 3 = FAT32_EOC ∧
    ∀ i < slots_per_cluster small_volume,
      named_object (slot small_volume one_cluster_state.disk 2 i) = if i = 0 then some (false, 3) else none := by
  decide +kernel

theorem one_cluster_root : Cells small_volume one_cluster_state.disk 2 [2] := .last small_root_inRange one_cluster_table.1

theorem one_cluster_cells : Cells small_volume one_cluster_state.disk 3 [3] :=
  .last (show small_volume.InRange 3 by decide) one_cluster_table.2.1

theorem one_cluster_wf : WellFormed small_volume one_cluster_state.disk :=
  (wellFormed_of_one_file small_volume_sane small_root_inRange one_cluster_table.1 one_cluster_cells
    one_cluster_table.2.2 (by decide)).1

theorem one_cluster_tracked : Tracked one_cluster_state 0 0 where
  handle := by decide
  wf := one_cluster_wf
  entry := by
    refine ⟨2, 2, 0, liveDir_root, ⟨[2], one_cluster_root, List.mem_cons_self⟩, ?_⟩
    exact (view_ent_of_lt (by decide)).trans (one_cluster_table.2.2 0 (by decide))
  dir_cluster := small_root_inRange
  dir_entry_index := by decide
  position := by decide
  file_size := by decide
  sync := ⟨[3], one_cluster_cells, rfl, rfl, rfl⟩

/-- The same after a seek to the last two bytes. -/
def at_tail_state : Fat32 := { one_cluster_state with
  open_files := Function.update one_cluster_state.open_files ⟨0, Nat.succ_pos 7⟩ ⟨true, 3, 3, 510, 512, 510, 2, 0, ascii "A"⟩ }

theorem at_tail_reached : Reached 0 0 one_cluster_state at_tail_state := .call (.seek 510) .start trivial rfl

theorem at_tail_careful : Careful at_tail_state 0 (.write [1, 2, 3, 4]) := by
  have hspare : 0 < (spare at_tail_state.vol at_tail_state.disk).card :=
    Finset.card_pos.mpr ⟨4, mem_spare.mpr ⟨show small_volume.InRange 4 by decide,
      show IsFree small_volume one_cluster_state.disk 4 by decide +kernel⟩⟩
  have hlast : ((at_tail_state.open_files 0).position + [1, 2, 3, 4].length) / cluster_size at_tail_state.vol = 1 := by decide
  refine .inr ⟨[3], one_cluster_cells, by decide, by decide, ?_⟩
  unfold RoomFor
  simp only [List.length_cons, List.length_nil] at hlast ⊢
  omega

/-- Four bytes across the end of the only cluster: two calls for the data, one each for the words of the two
    clusters, one that clears the new cluster, and one for the size. -/
theorem write_footprint_one_cluster : InPlace at_tail_state 0 ∧ InPlace (fat32_write at_tail_state 0 [1, 2, 3, 4]).2 0 ∧
    Performs small_volume at_tail_state.disk (write_calls at_tail_state 0 [1, 2, 3, 4])
      (fat32_write at_tail_state 0 [1, 2, 3, 4]).2.disk ∧
    (∀ w ∈ write_calls at_tail_state 0 [1, 2, 3, 4], w.place.LandsIn small_volume (at_tail_state.open_files 0) w.device) ∧
    (write_calls at_tail_state 0 [1, 2, 3, 4]).map (·.place) =
      [.data 3 510, .table 3, .table 4, .data 4 0, .data 4 0, .entry 2 0] := by
  obtain ⟨hplace, hwrites⟩ := write_footprint one_cluster_tracked at_tail_reached
  obtain ⟨hperforms, hlands⟩ := hwrites _ at_tail_careful
  have hafter : Reached 0 0 one_cluster_state (fat32_write at_tail_state 0 [1, 2, 3, 4]).2 :=
    .call (.write [1, 2, 3, 4]) at_tail_reached at_tail_careful rfl
  exact ⟨hplace, (write_footprint one_cluster_tracked hafter).1, hperforms, hlands, by decide +kernel⟩

/-- A seek to the end of a file that fills its cluster leads to the end-of-chain mark, and the next
    write is addressed through it. -/
theorem write_through_end_mark :
    Tracked one_cluster_state 0 0 ∧ ∃ st, step 0 one_cluster_state (.seek 0 512) = some st ∧ handle st 0 = some 0 ∧
      Performs st.vol st.disk (write_calls st 0 [0x42]) (fat32_write st 0 [0x42]).2.disk ∧
      ∃ w ∈ write_calls st 0 [0x42], w.place = .data FAT32_EOC 0 ∧
        ¬ w.place.LandsIn st.vol (st.open_files 0) w.device := by
  refine ⟨one_cluster_tracked, _, rfl, rfl, fat32_write_performs rfl _, _, List.mem_cons_self, ?_, ?_⟩
  · decide +kernel
  · rintro ⟨⟨l, hl, hmem⟩, -⟩
    exact not_inRange_eoc (hl.inRange hmem)

end os_dev.fat32
