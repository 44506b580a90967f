import OsDev.Fat32.Reading

open os_dev.ata os_dev.libc link_chain

namespace os_dev.fat32

variable {v : Volume} {d : Disk} {c pos size : ℕ} {l : List ℕ} {st : Fat32} {fd : Int} {i : Fin 8} {file : fat32_file_t}

/-- How far reads of 512 bytes, one after the other, reach into the clusters of a file. Where its size
    is so close to `2 ^ 32` that the end of the last piece wraps, the size does not stop them. -/
def reach (v : Volume) (l : List ℕ) (size : ℕ) : ℕ :=
  if 2 ^ 32 - 512 < size then l.length * cluster_size v else min size (l.length * cluster_size v)

/-- What these reads deliver. -/
def delivered (v : Volume) (d : Disk) (l : List ℕ) (size : ℕ) : List UInt8 := file_content v d l (reach v l size)

/-- The place of a handle, `pos` bytes into its chain; its position may have wrapped. -/
structure AtPlace (v : Volume) (l : List ℕ) (file : fat32_file_t) (pos : ℕ) : Prop where
  position : file.position = u32 pos
  cluster : file.current_cluster = cluster_at v l pos
  offset : file.cluster_offset = pos % cluster_size v

/-- A place that such reads come to: where the position can wrap it lies between two sectors. -/
structure ReadTo (v : Volume) (l : List ℕ) (size pos : ℕ) : Prop where
  le : pos ≤ reach v l size
  border : 2 ^ 32 - 512 < size → pos % 512 = 0

theorem reach_le : reach v l size ≤ l.length * cluster_size v := by
  unfold reach
  split
  · exact le_rfl
  · exact min_le_right _ _

theorem delivered_length : (delivered v d l size).length = reach v l size := by
  rw [delivered, file_content, List.length_take, chain_data_length]
  exact min_eq_left reach_le

/-- The length that is left of a read of 512 bytes, cut to the end of the file and to the end of the chain. -/
theorem ReadTo.piece_length (h : ReadTo v l size pos) (hmore : u32 pos < size) :
    min (if u32 (u32 pos + 512) > size then size - u32 pos else 512) (l.length * cluster_size v - pos) =
      min 512 (reach v l size - pos) := by
  have hle := h.le
  unfold reach at *
  unfold u32 at *
  split at hle
  case isTrue hwraps =>
    have hborder := h.border hwraps
    rw [if_pos hwraps, if_neg (by omega)]
  case isFalse hsmall =>
    rw [if_neg hsmall]
    split <;> omega

theorem ReadTo.done (h : ReadTo v l size pos) (hend : u32 pos ≥ size) : reach v l size - pos = 0 := by
  have hle := h.le
  unfold reach at *
  unfold u32 at hend
  split at hle
  case isTrue hwraps =>
    have hborder := h.border hwraps
    omega
  case isFalse hsmall =>
    rw [if_neg hsmall]
    omega

theorem ReadTo.next (h : ReadTo v l size pos) : ReadTo v l size (pos + min 512 (reach v l size - pos)) := by
  refine ⟨by have := h.le; omega, fun hwraps => ?_⟩
  have hborder := h.border hwraps
  have hcap : l.length * cluster_size v = 512 * (l.length * v.bpb.sectors_per_cluster) := by
    rw [cluster_size_eq, Nat.mul_left_comm]
  rw [reach, if_pos hwraps]
  omega

/-- One read of a piece: it delivers the next 512 bytes, or what is left of them. -/
theorem ReadTo.read_eq (h : ReadTo v l size pos) (hfd : handle st fd = some i) (hvol : st.vol = v)
    (hpos : 0 < v.bpb.sectors_per_cluster) (hbyte : v.bpb.sectors_per_cluster < 256) (hl : FileChain v st.disk c l)
    (hsize : (st.open_files i).file_size = size) (hplace : AtPlace v l (st.open_files i) pos) :
    ∃ file', AtPlace v l file' (pos + min 512 (reach v l size - pos)) ∧ file'.file_size = size ∧ file'.valid = true ∧
      fat32_read st fd 512 = (int32 (min 512 (reach v l size - pos)), ((delivered v st.disk l size).drop pos).take 512,
        { st with open_files := Function.update st.open_files i file' }) := by
  subst hvol hsize
  have hvalid := handle_valid hfd
  have hpiece : ((delivered st.vol st.disk l (st.open_files i).file_size).drop pos).take 512 =
      file_slice st.vol st.disk l pos (min 512 (reach st.vol l (st.open_files i).file_size - pos)) :=
    file_content_piece hpos reach_le pos 512
  simp only [fat32_read, hfd, hplace.position]
  split
  case isTrue hend =>
    have hzero := h.done hend
    refine ⟨st.open_files i, ?_, rfl, hvalid, ?_⟩
    · rwa [hzero]
    · rw [hpiece, hzero, Function.update_eq_self]
      rfl
  case isFalse hmore =>
    have hlength := h.piece_length (not_le.mp hmore)
    simp only [gt_iff_lt] at hlength ⊢
    generalize (if (st.open_files i).file_size < u32 (u32 pos + 512) then (st.open_files i).file_size - u32 pos else 512) = m
      at hlength ⊢
    have hlt : (st.open_files i).position < 2 ^ 32 := by
      rw [hplace.position]
      exact Nat.mod_lt _ (by decide)
    rw [read_loop_eq _ _ _ _ _ _ hlt, hplace.cluster, hplace.offset,
      read_at_loop_eq hpos hbyte hl eoc_of_readable eoc_eoc m m pos 0 (by omega), Nat.sub_zero, hlength, hpiece]
    generalize min 512 (reach st.vol l (st.open_files i).file_size - pos) = n
    simp only [file_slice_length, hplace.position]
    refine ⟨{ st.open_files i with
      current_cluster := cluster_at st.vol l (pos + n)
      cluster_offset := (pos + n) % cluster_size st.vol
      position := u32 (u32 pos + n) }, ⟨?_, rfl, rfl⟩, rfl, hvalid, rfl⟩
    simp only [u32, Nat.mod_add_mod]

end os_dev.fat32
