import OsDev.Fat32.Reading

open os_dev.ata os_dev.libc link_chain

namespace os_dev.fat32

variable {v : Volume} {d : Disk}

/-- The place behind the sector of a place, a cluster and an offset in it. -/
def next_place (v : Volume) (d : Disk) (p : ℕ × ℕ) : ℕ × ℕ :=
  let off := u32 (p.2 + (512 - p.2 % 512))
  if off ≥ cluster_size v then (get_next_cluster v d p.1, 0) else (p.1, off)

/-- Nothing can be read at a place: its cluster number is a mark or its sector is not on the drive. -/
def Blocked (stops : ℕ → Bool) (v : Volume) (p : ℕ × ℕ) : Prop :=
  stops p.1 = true ∨ ¬ v.drive.Holds (u32 (cluster_to_lba v p.1 + p.2 / 512))

/-- From a place on, at most `m` bytes can be read. -/
def StopsWithin (v : Volume) (d : Disk) (stops : ℕ → Bool) (p : ℕ × ℕ) (m : ℕ) : Prop :=
  ∃ i, Blocked stops v ((next_place v d)^[i] p) ∧ 512 * i ≤ m + p.2 % 512

theorem next_place_aligned (p : ℕ × ℕ) : (next_place v d p).2 % 512 = 0 := by
  unfold next_place
  dsimp only
  by_cases hend : u32 (p.2 + (512 - p.2 % 512)) ≥ cluster_size v
  · rw [if_pos hend, Nat.zero_mod]
  · rw [if_neg hend, u32]
    omega

theorem loop_of_blocked {stops : ℕ → Bool} {p : ℕ × ℕ} (h : Blocked stops v p) (len n bytes_read : ℕ) :
    (read_at_loop v d stops len n p.1 p.2 bytes_read).1 = [] := by
  cases n with
  | zero => rfl
  | succ n =>
    obtain hstops | hread := h
    · rw [read_at_loop, if_pos hstops]
      split <;> rfl
    · simp [read_at_loop, read_of_not_holds hread]

/-- One round at a place that can be read. -/
theorem loop_of_not_blocked {stops : ℕ → Bool} {p : ℕ × ℕ} (h : ¬ Blocked stops v p) (len n bytes_read : ℕ)
    (hmore : bytes_read < len) :
    (read_at_loop v d stops len (n + 1) p.1 p.2 bytes_read).1.length =
      if len - bytes_read < 512 - p.2 % 512 then len - bytes_read
      else 512 - p.2 % 512 + (read_at_loop v d stops len n (next_place v d p).1 (next_place v d p).2
        (bytes_read + (512 - p.2 % 512))).1.length := by
  obtain ⟨hstops, hread⟩ := not_or.mp h
  simp only [read_at_loop, if_pos hmore, if_neg hstops, read_of_holds (not_not.mp hread), ne_eq, not_true_eq_false, if_false,
    List.length_append, slice_length]
  by_cases hlast : len - bytes_read < 512 - p.2 % 512
  case pos =>
    -- the last round leaves nothing to read
    rw [if_pos hlast, min_eq_right hlast.le, show bytes_read + (len - bytes_read) = len by omega]
    have hdone : ∀ n a b, (read_at_loop v d stops len n a b len).1 = [] := by
      intro n a b
      cases n with
      | zero => rfl
      | succ n => rw [read_at_loop, if_neg (lt_irrefl len)]
    rw [hdone, List.length_nil, Nat.add_zero]
  case neg => rw [if_neg hlast, min_eq_left (not_lt.mp hlast), next_place]

theorem loop_length_le (stops : ℕ → Bool) (len n : ℕ) (p : ℕ × ℕ) (bytes_read : ℕ) :
    (read_at_loop v d stops len n p.1 p.2 bytes_read).1.length ≤ len - bytes_read := by
  induction n generalizing p bytes_read with
  | zero => exact Nat.zero_le _
  | succ n ih =>
    by_cases hblocked : Blocked stops v p
    · rw [loop_of_blocked hblocked]
      exact Nat.zero_le _
    by_cases hmore : bytes_read < len
    · have hrest := ih (next_place v d p) (bytes_read + (512 - p.2 % 512))
      rw [loop_of_not_blocked hblocked len n bytes_read hmore]
      split <;> omega
    · rw [read_at_loop, if_neg hmore]
      exact Nat.zero_le _

/-- The loop delivers less than it was asked for only when the chain stops. -/
theorem loop_length_le_iff (stops : ℕ → Bool) (len n : ℕ) (p : ℕ × ℕ) (bytes_read m : ℕ) (hn : len - bytes_read ≤ n)
    (hm : m < len - bytes_read) :
    (read_at_loop v d stops len n p.1 p.2 bytes_read).1.length ≤ m ↔ StopsWithin v d stops p m := by
  induction n generalizing p bytes_read m with
  | zero => omega
  | succ n ih =>
    by_cases hblocked : Blocked stops v p
    · rw [loop_of_blocked hblocked]
      exact iff_of_true (Nat.zero_le m) ⟨0, hblocked, by omega⟩
    · rw [loop_of_not_blocked hblocked len n bytes_read (by omega)]
      have hshift : StopsWithin v d stops p m ↔
          512 - p.2 % 512 ≤ m ∧ StopsWithin v d stops (next_place v d p) (m - (512 - p.2 % 512)) := by
        have haligned := next_place_aligned (v := v) (d := d) p
        constructor
        · rintro ⟨i, hi, hle⟩
          cases i with
          | zero => exact absurd hi hblocked
          | succ i => exact ⟨by omega, i, hi, by omega⟩
        · rintro ⟨hle, i, hi, hle'⟩
          exact ⟨i + 1, hi, by omega⟩
      rw [hshift]
      split
      case isTrue hlast => omega
      case isFalse hfull =>
        by_cases hle : 512 - p.2 % 512 ≤ m
        · rw [and_iff_right hle, ← ih (next_place v d p) (bytes_read + (512 - p.2 % 512)) _ (by omega) (by omega)]
          omega
        · exact iff_of_false (by omega) fun h => hle h.1

/-- The walk to an offset follows the links, unless it meets a mark before. -/
theorem read_at_walk_iff (n c : ℕ) :
    ((∃ k < n, eoc_or_bad ((get_next_cluster v d)^[k] c) = true) → read_at_walk v d n c = none) ∧
      ((¬ ∃ k < n, eoc_or_bad ((get_next_cluster v d)^[k] c) = true) →
        read_at_walk v d n c = some ((get_next_cluster v d)^[n] c)) := by
  induction n generalizing c with
  | zero =>
    refine ⟨?_, fun _ => rfl⟩
    rintro ⟨k, hk, -⟩
    exact absurd hk (Nat.not_lt_zero k)
  | succ n ih =>
    obtain ⟨hmark, hclear⟩ := ih (get_next_cluster v d c)
    rw [read_at_walk]
    by_cases hc : c = FAT32_EOC ∨ c = FAT32_BAD
    · rw [if_pos hc]
      exact ⟨fun _ => rfl, fun h => absurd ⟨0, by omega, decide_eq_true hc⟩ h⟩
    · rw [if_neg hc]
      constructor
      · rintro ⟨k, hk, heoc⟩
        cases k with
        | zero => exact absurd (of_decide_eq_true heoc) hc
        | succ k => exact hmark ⟨k, by omega, heoc⟩
      · intro h
        refine hclear ?_
        rintro ⟨k, hk, heoc⟩
        exact h ⟨k + 1, by omega, heoc⟩

variable {st : Fat32} {fd : Int} {i : Fin 8}

/-- `fat32_read_at` returns, with no more bytes than the file has from `offset` on. -/
def ReadAtWithin (st : Fat32) (fd : Int) (i : Fin 8) (offset len : ℕ) : Prop :=
  ∃ bytes, fat32_read_at st fd offset len = some (int32 bytes.length, bytes, st) ∧
    bytes.length ≤ (st.open_files i).file_size - offset

/-- `fat32_read` returns no more bytes than the file has from its position on. -/
def ReadWithin (st : Fat32) (fd : Int) (i : Fin 8) (len : ℕ) : Prop :=
  ∃ bytes st', fat32_read st fd len = (int32 bytes.length, bytes, st') ∧
    bytes.length ≤ (st.open_files i).file_size - (st.open_files i).position

/-- The chain of a file holds no more than `m` bytes from `offset` on that can be read. -/
def ChainStops (st : Fat32) (i : Fin 8) (offset m : ℕ) : Prop :=
  (∃ k < offset / cluster_size st.vol,
      eoc_or_bad ((get_next_cluster st.vol st.disk)^[k] (st.open_files i).first_cluster) = true) ∨
    StopsWithin st.vol st.disk eoc_or_bad
      ((get_next_cluster st.vol st.disk)^[offset / cluster_size st.vol] (st.open_files i).first_cluster,
        offset % cluster_size st.vol) m

/-- The clamp to the end of the file, which fails when the sum wraps. -/
theorem clamp_spec {pos len size : ℕ} (hpos : pos < size) (hsize : size < 2 ^ 32) (hlen : len < 2 ^ 32) :
    (if u32 (pos + len) > size then size - pos else len) = if pos + len < 2 ^ 32 then min len (size - pos) else len := by
  unfold u32
  by_cases hwrap : pos + len < 2 ^ 32
  · rw [Nat.mod_eq_of_lt hwrap, if_pos hwrap]
    split <;> omega
  · rw [if_neg hwrap, Nat.mod_eq_sub_mod (by omega), Nat.mod_eq_of_lt (by omega), if_neg (by omega)]

/-- Whether a read of `len` bytes at `pos` stays in the file. -/
theorem clamped_le_iff {pos len size : ℕ} (hpos : pos < size) (hsize : size < 2 ^ 32) (hlen : len < 2 ^ 32)
    (stops : ℕ → Bool) (p : ℕ × ℕ) {m : ℕ} (hm : (if u32 (pos + len) > size then size - pos else len) = m) :
    (read_at_loop v d stops m m p.1 p.2 0).1.length ≤ size - pos ↔
      pos + len < 2 ^ 32 ∨ StopsWithin v d stops p (size - pos) := by
  rw [clamp_spec hpos hsize hlen] at hm
  have hle := loop_length_le (v := v) (d := d) stops m m p 0
  by_cases hwrap : pos + len < 2 ^ 32
  · rw [if_pos hwrap] at hm
    exact iff_of_true (by omega) (.inl hwrap)
  · rw [if_neg hwrap] at hm
    rw [or_iff_right hwrap]
    exact loop_length_le_iff stops m m p 0 (size - pos) (by omega) (by omega)

theorem read_at_within_iff (h : handle st fd = some i) {offset len : ℕ} (hlen : len < 2 ^ 32)
    (hsize : (st.open_files i).file_size < 2 ^ 32) :
    ReadAtWithin st fd i offset len ↔
      (st.open_files i).file_size ≤ offset ∨ 0 < cluster_size st.vol ∧
        (offset + len < 2 ^ 32 ∨ ChainStops st i offset ((st.open_files i).file_size - offset)) := by
  unfold ReadAtWithin
  by_cases hend : (st.open_files i).file_size ≤ offset
  · refine iff_of_true ⟨[], ?_, Nat.zero_le _⟩ (.inl hend)
    simp only [fat32_read_at, h, ge_iff_le, if_pos hend]
    rfl
  rw [or_iff_right hend]
  by_cases hzero : cluster_size st.vol = 0
  · refine iff_of_false ?_ fun hand => hand.1.ne' hzero
    rintro ⟨bytes, hread, -⟩
    simp only [fat32_read_at, h, ge_iff_le, if_neg hend, if_pos hzero] at hread
    cases hread
  rw [and_iff_right (Nat.pos_of_ne_zero hzero)]
  generalize hm : (if u32 (offset + len) > (st.open_files i).file_size then (st.open_files i).file_size - offset else len) = m
  obtain ⟨hmark, hclear⟩ := read_at_walk_iff (v := st.vol) (d := st.disk) (offset / cluster_size st.vol)
    (st.open_files i).first_cluster
  by_cases hwalk : ∃ k < offset / cluster_size st.vol,
      eoc_or_bad ((get_next_cluster st.vol st.disk)^[k] (st.open_files i).first_cluster) = true
  · refine iff_of_true ⟨[], ?_, Nat.zero_le _⟩ (.inr (.inl hwalk))
    simp only [fat32_read_at, h, ge_iff_le, if_neg hend, if_neg hzero, hmark hwalk]
    rfl
  · rw [ChainStops, or_iff_right hwalk, ← clamped_le_iff (not_le.mp hend) hsize hlen eoc_or_bad _ hm]
    have hread : ∀ bytes, fat32_read_at st fd offset len = some (int32 bytes.length, bytes, st) ↔
        bytes = (read_at_loop st.vol st.disk eoc_or_bad m m
          ((get_next_cluster st.vol st.disk)^[offset / cluster_size st.vol] (st.open_files i).first_cluster)
          (offset % cluster_size st.vol) 0).1 := by
      intro bytes
      simp only [fat32_read_at, h, ge_iff_le, if_neg hend, if_neg hzero, hclear hwalk, hm, Option.some.injEq, Prod.mk.injEq,
        and_true]
      exact ⟨fun heq => heq.2.symm, fun heq => ⟨by rw [heq], heq.symm⟩⟩
    simp only [hread, exists_eq_left]

theorem read_within_iff (h : handle st fd = some i) {len : ℕ} (hlen : len < 2 ^ 32)
    (hsize : (st.open_files i).file_size < 2 ^ 32) (hposition : (st.open_files i).position < 2 ^ 32) :
    ReadWithin st fd i len ↔
      (st.open_files i).file_size ≤ (st.open_files i).position ∨ (st.open_files i).position + len < 2 ^ 32 ∨
        StopsWithin st.vol st.disk eoc ((st.open_files i).current_cluster, (st.open_files i).cluster_offset)
          ((st.open_files i).file_size - (st.open_files i).position) := by
  unfold ReadWithin
  by_cases hend : (st.open_files i).file_size ≤ (st.open_files i).position
  · refine iff_of_true ⟨[], st, ?_, Nat.zero_le _⟩ (.inl hend)
    simp only [fat32_read, h, ge_iff_le, if_pos hend]
    rfl
  rw [or_iff_right hend]
  generalize hm : (if u32 ((st.open_files i).position + len) > (st.open_files i).file_size then
    (st.open_files i).file_size - (st.open_files i).position else len) = m
  rw [← clamped_le_iff (not_le.mp hend) hsize hlen eoc _ hm]
  simp only [fat32_read, h, ge_iff_le, if_neg hend, hm, read_loop_eq _ _ _ _ _ _ hposition, Prod.mk.injEq]
  constructor
  · rintro ⟨bytes, st', ⟨-, rfl, -⟩, hle⟩
    exact hle
  · intro hle
    exact ⟨_, _, ⟨rfl, rfl, rfl⟩, hle⟩

/-- A read stays in the file exactly when its end does not wrap in 32 bits, or the chain stops in time. -/
theorem reads_within_file_iff (h : handle st fd = some i) (offset len : ℕ) (hlen : len < 2 ^ 32)
    (hsize : (st.open_files i).file_size < 2 ^ 32) (hposition : (st.open_files i).position < 2 ^ 32) :
    (ReadAtWithin st fd i offset len ↔
      (st.open_files i).file_size ≤ offset ∨ 0 < cluster_size st.vol ∧
        (offset + len < 2 ^ 32 ∨ ChainStops st i offset ((st.open_files i).file_size - offset))) ∧
    (ReadWithin st fd i len ↔
      (st.open_files i).file_size ≤ (st.open_files i).position ∨ (st.open_files i).position + len < 2 ^ 32 ∨
        StopsWithin st.vol st.disk eoc ((st.open_files i).current_cluster, (st.open_files i).cluster_offset)
          ((st.open_files i).file_size - (st.open_files i).position)) :=
  ⟨read_at_within_iff h hlen hsize, read_within_iff h hlen hsize hposition⟩

theorem reads_within_file_text : ReadAtWithin text_state 0 0 500 4000 ∧ ReadWithin text_state 0 0 4000 := by
  have hiff := reads_within_file_iff (i := 0) (show handle text_state 0 = some 0 by decide) 500 4000 (by decide) (by decide)
    (by decide)
  exact ⟨hiff.1.mpr (.inr ⟨by decide, .inl (by decide)⟩), hiff.2.mpr (.inr (.inl (by decide)))⟩

theorem text_loop_length {stops : ℕ → Bool} (hstops : ∀ x, text_state.vol.Readable x → stops x = false)
    (heoc : stops FAT32_EOC = true) :
    (read_at_loop text_state.vol text_state.disk stops (2 ^ 32 - 1) (2 ^ 32 - 1) 3 500 0).1.length = 524 := by
  have hread := read_at_loop_eq (by decide) (by decide) text_chain hstops heoc (2 ^ 32 - 1) (2 ^ 32 - 1) 500 0 (by decide)
  have hplace : cluster_at text_state.vol [3, 4] 500 = 3 := by decide
  have hoffset : 500 % cluster_size text_state.vol = 500 := by decide
  rw [hplace, hoffset] at hread
  rw [hread, file_slice_length]
  decide

/-- The end of a read of `2 ^ 32 - 1` bytes at 500 wraps to 499, so that the file's 600 bytes
    do not bound it: it delivers both clusters to their end. -/
theorem reads_past_end :
    ¬ ReadAtWithin text_state 0 0 500 (2 ^ 32 - 1) ∧ ¬ ReadWithin (moved_to text_state 0 [3, 4] 500) 0 0 (2 ^ 32 - 1) := by
  have hhandle : handle text_state 0 = some 0 := by decide
  have hclamp : (if u32 (500 + (2 ^ 32 - 1)) > 600 then 600 - 500 else 2 ^ 32 - 1) = 2 ^ 32 - 1 := by decide
  constructor
  · rintro ⟨bytes, hread, hle⟩
    have hlength := text_loop_length eoc_or_bad_of_readable eoc_or_bad_eoc
    have hsize : (text_state.open_files 0).file_size = 600 := rfl
    have hcluster : cluster_size text_state.vol = 512 := rfl
    have hwalk : read_at_walk text_state.vol text_state.disk (500 / 512) (text_state.open_files 0).first_cluster = some 3 := rfl
    rw [hsize] at hle
    simp only [fat32_read_at, hhandle, hsize, hcluster, hclamp, hwalk] at hread
    simp only [ge_iff_le, Nat.reduceLeDiff, Nat.reduceMod, if_false, OfNat.ofNat_ne_zero, Option.some.injEq,
      Prod.mk.injEq] at hread
    obtain ⟨-, rfl, -⟩ := hread
    omega
  · rintro ⟨bytes, st', hread, hle⟩
    have hmoved : handle (moved_to text_state 0 [3, 4] 500) 0 = some 0 := by decide
    have hlength := text_loop_length eoc_of_readable eoc_eoc
    have hsize : ((moved_to text_state 0 [3, 4] 500).open_files 0).file_size = 600 := rfl
    have hposition : ((moved_to text_state 0 [3, 4] 500).open_files 0).position = 500 := rfl
    rw [hsize, hposition] at hle
    simp only [fat32_read, hmoved, hsize, hposition, hclamp] at hread
    rw [if_neg (by decide), read_loop_eq _ _ _ _ _ _ (by decide)] at hread
    have hbytes := (Prod.mk.inj (Prod.mk.inj hread).2).1
    have hcluster : ((moved_to text_state 0 [3, 4] 500).open_files 0).current_cluster = 3 := by decide
    have hoffset : ((moved_to text_state 0 [3, 4] 500).open_files 0).cluster_offset = 500 := by decide
    rw [hcluster, hoffset] at hbytes
    rw [← hbytes] at hle
    change (read_at_loop text_state.vol text_state.disk eoc _ _ 3 500 0).1.length ≤ _ at hle
    omega

end os_dev.fat32
