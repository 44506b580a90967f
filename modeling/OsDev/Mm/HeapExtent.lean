import OsDev.Mm.HeapBacking
import OsDev.Mm.HeapRuns

open fuel block_list
open os_dev.pmm os_dev.vmm
open os_dev.heap (Heap Represents HEAP_START HEADER_SIZE header_at init_heap first_block)

namespace os_dev.boot

variable {b : Vm Pmm} {root pdpt : ℕ}

/-- The first block ends where the heap does, and the block list tiles the heap. -/
structure FirstBlockFits (st : Heap) : Prop where
  size : (header_at st.mem st.heap_start).size + HEADER_SIZE = st.dynamic_heap_size
  tiles : ∃ blocks, Represents st blocks ∧ span HEADER_SIZE blocks = st.dynamic_heap_size

/-- The 32-bit size field is right for a heap from 16 bytes to 4 GB and 15 bytes. -/
theorem firstBlockFits_iff (mem : ℕ → UInt8) (size : ℕ) :
    FirstBlockFits (init_heap mem size) ↔ 16 ≤ size ∧ size < 2 ^ 32 + 16 := by
  have hH := heap.HEADER_SIZE_eq
  have hrep := heap.init_heap_represents mem size
  have hheader : (header_at (init_heap mem size).mem (init_heap mem size).heap_start).size = (first_block size).size := by
    have hfirst := hrep.seg.1
    rw [hfirst]
    rfl
  have hfirst : (first_block size).size = (size + 2 ^ 64 - HEADER_SIZE) % 2 ^ 32 := rfl
  have hsize : (init_heap mem size).dynamic_heap_size = size := rfl
  constructor
  · intro h
    have heq := h.size
    rw [hheader, hfirst, hsize] at heq
    omega
  · rintro ⟨hlow, hhigh⟩
    have heq : (first_block size).size + HEADER_SIZE = size := by
      rw [hfirst]
      omega
    refine ⟨by rw [hheader, hsize, heq], [first_block size], hrep, ?_⟩
    rw [span_cons, span_nil, hsize, Nat.add_zero, Nat.add_comm, heq]

theorem heap_size_cases (st : Pmm) : ∃ n, heap_size st = 1024 * n ∧ 0 < n := by
  unfold heap_size HEAP_START
  dsimp only
  split
  · exact ⟨pmm_get_total_memory_kb st - 8192 * 1024 - 8 * 1024, by omega, by omega⟩
  · exact ⟨16 * 1024, rfl, by decide⟩

/-- After `kmalloc_init` the first block has the heap's size exactly if there is a frame
    for the first page, and the heap is asked to be 4 GB at most or gets no frame for the
    page behind them. -/
theorem first_block_fits_iff (hspace : HeapSpace b root pdpt)
    (htotal : pmm_get_total_memory_kb b.frames ≤ 4 * PMM_BLOCKS) (mem : ℕ → UInt8) :
    FirstBlockFits (init_heap mem (kmalloc_init (4096 * root) b).2) ↔
      answer b.frames 0 ≠ 0 ∧ (heap_size b.frames ≤ 2 ^ 32 ∨ answer b.frames (asked b root (2 ^ 20)) = 0) := by
  obtain ⟨stop, hsize, hend⟩ := kmalloc_init_end hspace htotal
  obtain ⟨n, hn, hpos⟩ := heap_size_cases b.frames
  have hpages : heap_pages b.frames = (heap_size b.frames + 4095) / 4096 := rfl
  have hlimit := heap_pages_lt htotal
  have hle := hend.le
  rw [firstBlockFits_iff, hsize]
  have hfirst : answer b.frames 0 ≠ 0 ↔ 0 < stop := by
    refine ⟨fun hne => Nat.pos_of_ne_zero fun hzero => hne ?_, hend.granted 0⟩
    exact hend.ended_of_le (k := 0) hspace hlimit hzero.le (by omega)
  have hlast : heap_size b.frames ≤ 2 ^ 32 ∨ answer b.frames (asked b root (2 ^ 20)) = 0 ↔
      heap_size b.frames ≤ 2 ^ 32 ∨ stop ≤ 2 ^ 20 := by
    refine or_congr_right' fun hlarge => ⟨fun hzero => ?_, fun hstop => hend.ended_of_le hspace hlimit hstop (by omega)⟩
    exact Nat.le_of_not_lt fun hlt => hend.granted _ hlt hzero
  rw [hfirst, hlast]
  omega

theorem first_block_fits_iff_scarce :
    FirstBlockFits (init_heap (fun _ => 0) (kmalloc_init (4096 * 300) scarce).2) ↔
      answer scarce.frames 0 ≠ 0 ∧
        (heap_size scarce.frames ≤ 2 ^ 32 ∨ answer scarce.frames (asked scarce 300 (2 ^ 20)) = 0) :=
  first_block_fits_iff scarce_space (by decide) _

/-- Each page asks for one frame, and now and then for a table. -/
theorem asked_le_tables (b : Vm Pmm) (root k : ℕ) : asked b root k ≤ k + (k + 511) / 512 + (k + 2 ^ 18 - 1) / 2 ^ 18 := by
  induction k with
  | zero => exact Nat.zero_le _
  | succ k ih =>
    have htwo := missing_le b root (page_va k) 2
    have hthree := missing_le b root (page_va k) 3
    rw [asked, needs_pd, needs_pt]
    split <;> split <;> omega

/-- The heap of the large machine is larger than 4 GB, and the first block much smaller. -/
theorem large_first_block_cut :
    ∃ b, before_heap 2 large_info (fun _ => 0) half_megabyte large_tables 0xFEE00000 MULTIBOOT2_MAGIC 0x9000 = some b ∧
      ∀ mem, ¬ FirstBlockFits (init_heap mem (kmalloc_init large_tables.pml4_table b).2) := by
  obtain ⟨b, hb⟩ := large_boot
  obtain ⟨hspace, -, htotal⟩ := @boot_space b 300 _ _ _ _ _ _ _ _ large_in rfl (by decide) hb
  obtain ⟨stop, hsize, hend⟩ := kmalloc_init_end hspace htotal
  refine ⟨b, hb, fun mem hfits => ?_⟩
  have hlarge := large_heap_size hb
  have hasked := asked_le_tables b 300 (2 ^ 20)
  have hstop : 2 ^ 20 < stop := by
    by_contra hle
    refine (large_heap hb).answers (asked b 300 (2 ^ 20)) (by omega)
      (hend.ended_of_le hspace (heap_pages_lt htotal) (Nat.le_of_not_lt hle) ?_)
    unfold heap_pages
    omega
  obtain ⟨n, hn, -⟩ := heap_size_cases b.frames
  have hfits := (firstBlockFits_iff mem _).mp hfits
  rw [show large_tables.pml4_table = 4096 * 300 from rfl, hsize] at hfits
  omega

end os_dev.boot
