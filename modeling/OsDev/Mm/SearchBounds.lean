import OsDev.Mm.HeapBoot
import OsDev.Mm.LowestFit

open bitmap fuel

namespace os_dev.pmm

variable {st : Pmm} {s : FrameState}

/-- The bytes of `pmm_bitmap` that `pmm_alloc_block` reads in its two passes, and the one
    that it writes, which `pmm_set_bit` reads again. -/
def alloc_accesses (st : Pmm) : List ℕ :=
  let low := st.last_free_bit
  scan_reads st.pmm_bitmap low (PMM_BITMAP_SIZE - low / 8) (low / 8) ++
    match scan st.pmm_bitmap low (PMM_BITMAP_SIZE - low / 8) (low / 8) with
    | some block => [block / 8]
    | none =>
      scan_reads st.pmm_bitmap 256 (low / 8 + 1 - 256 / 8) (256 / 8) ++
        match scan st.pmm_bitmap 256 (low / 8 + 1 - 256 / 8) (256 / 8) with
        | some block => [block / 8]
        | none => []

/-- The call stays inside the bitmap, and returns 0 or the address of a tracked block. -/
structure AllocInside (st : Pmm) : Prop where
  accesses : ∀ i ∈ alloc_accesses st, i < PMM_BITMAP_SIZE
  result : (pmm_alloc_block st).1 = 0 ∨ ∃ block < PMM_BLOCKS, (pmm_alloc_block st).1 = block * PMM_BLOCK_SIZE

/-- The hint is behind the last tracked block, and no block from 256 on is free. -/
structure AtEnd (st : Pmm) : Prop where
  hint : st.last_free_bit = PMM_BLOCKS
  full : ∀ c, 256 ≤ c → c < PMM_BLOCKS → ¬ Free st c

/-- While the hint has not left the bitmap, only the search at its end does. -/
theorem allocInside_iff (hhint : st.last_free_bit ≤ PMM_BLOCKS) : AllocInside st ↔ ¬ AtEnd st := by
  have hN := PMM_BLOCKS_eq
  have hsize : PMM_BITMAP_SIZE * 8 = PMM_BLOCKS := rfl
  constructor
  · rintro hinside hend
    have hhint := hend.hint
    -- the second pass reads the byte behind the bitmap
    have hread : PMM_BITMAP_SIZE ∈ scan_reads st.pmm_bitmap 256 (st.last_free_bit / 8 + 1 - 256 / 8) (256 / 8) :=
      mem_scan_reads (by omega) (by omega) fun c hc _ hlt => not_not.mp (hend.full c hc (by omega))
    refine Nat.lt_irrefl PMM_BITMAP_SIZE (hinside.accesses _ (List.mem_append_right _ ?_))
    obtain ⟨block, -, hfirst⟩ | ⟨hnone, -⟩ := scan_cases st.pmm_bitmap st.last_free_bit
      (PMM_BITMAP_SIZE - st.last_free_bit / 8) (st.last_free_bit / 8)
    · have hge := hfirst.low_le
      have hlt := hfirst.lt_high
      omega
    · rw [hnone]
      exact List.mem_append_left _ hread
  · intro hend
    have hfirst_reads : ∀ i ∈ scan_reads st.pmm_bitmap st.last_free_bit (PMM_BITMAP_SIZE - st.last_free_bit / 8)
        (st.last_free_bit / 8), i < PMM_BITMAP_SIZE := fun i hi => by
      have := scan_reads_bounds hi
      omega
    obtain ⟨block, hscan, hfirst⟩ | ⟨hscan, -⟩ := scan_cases st.pmm_bitmap st.last_free_bit
      (PMM_BITMAP_SIZE - st.last_free_bit / 8) (st.last_free_bit / 8)
    · have hlt := hfirst.lt_high
      refine ⟨fun i hi => ?_, .inr ⟨block, by omega, by rw [pmm_alloc_block, hscan]; rfl⟩⟩
      simp only [alloc_accesses, hscan, List.mem_append, List.mem_singleton] at hi
      obtain hi | rfl := hi
      · exact hfirst_reads i hi
      · omega
    obtain ⟨block, hscan₂, hfirst₂⟩ | ⟨hscan₂, hnone⟩ := scan_cases st.pmm_bitmap 256
      (st.last_free_bit / 8 + 1 - 256 / 8) (256 / 8)
    · -- with the hint at the end, a free block comes before it
      have hlt : block < PMM_BLOCKS := by
        have hlt := hfirst₂.lt_high
        obtain hbelow | heq := Nat.lt_or_eq_of_le hhint
        · omega
        · by_contra hge
          exact hend ⟨heq, fun c hc hlt => not_not_intro (hfirst₂.before c (by omega) (by omega))⟩
      refine ⟨fun i hi => ?_, .inr ⟨block, hlt, by rw [pmm_alloc_block, hscan, hscan₂]; rfl⟩⟩
      simp only [alloc_accesses, hscan, hscan₂, List.mem_append, List.mem_singleton] at hi
      obtain hi | hi | rfl := hi
      · exact hfirst_reads i hi
      · have := scan_reads_le hscan₂ hi
        omega
      · omega
    · refine ⟨fun i hi => ?_, .inl (by rw [pmm_alloc_block, hscan, hscan₂])⟩
      simp only [alloc_accesses, hscan, hscan₂, List.append_nil, List.mem_append] at hi
      obtain hi | hi := hi
      · exact hfirst_reads i hi
      · have hbounds := scan_reads_bounds hi
        obtain hbelow | heq := Nat.lt_or_eq_of_le hhint
        · omega
        · exact absurd ⟨heq, fun c hc hlt => not_not_intro (hnone c hc (by omega) (by omega))⟩ hend

/-- The allocations of a run stay inside the bitmap. -/
def RunsInside (s : FrameState) : FrameOp → Prop
  | .alloc => AllocInside s.st
  | .free _ => True

/-- No allocation is asked for at the end. -/
def BeforeEnd (s : FrameState) : FrameOp → Prop
  | .alloc => ¬ AtEnd s.st
  | .free _ => True

theorem free_hint_le (st : Pmm) (addr : ℕ) : (pmm_free_block st addr).last_free_bit ≤ st.last_free_bit := by
  simp only [pmm_free_block]
  split
  · rw [clear_bit_last] at *
    exact Nat.le_of_lt ‹_›
  · rw [clear_bit_last]

/-- The hint leaves the bitmap in no step but an allocation at the end. -/
theorem BeforeEnd.hint {op : FrameOp} (h : BeforeEnd s op) (hhint : s.st.last_free_bit ≤ PMM_BLOCKS) :
    (frame_step s op).st.last_free_bit ≤ PMM_BLOCKS := by
  have hN := PMM_BLOCKS_eq
  have htake : ∀ block < PMM_BLOCKS, (take_block s.st block).2.last_free_bit ≤ PMM_BLOCKS := by
    intro block hlt
    have hlast : (take_block s.st block).2.last_free_bit = block + 1 := Nat.mod_eq_of_lt (by omega)
    omega
  cases op with
  | free addr => exact (free_hint_le s.st addr).trans hhint
  | alloc =>
    rw [alloc_step_st]
    obtain ⟨block, hfirst, heq⟩ | ⟨-, ⟨block, hfirst, heq⟩ | ⟨-, hover, -⟩ | ⟨-, -, heq⟩⟩ := alloc_cases hhint
    · exact heq ▸ htake block hfirst.lt_high
    · exact heq ▸ htake block hfirst.lt_high
    · exact absurd ⟨hover.hint, hover.full⟩ h
    · rwa [heq]

/-- The steps of a run meet one condition exactly if they meet another, when both agree
    in the states that the run reaches. -/
theorem Follows.iff {P Q : FrameState → FrameOp → Prop} {I : FrameState → Prop} (hsame : ∀ s op, I s → (P s op ↔ Q s op))
    (hstep : ∀ s op, I s → Q s op → I (frame_step s op)) {ops : List FrameOp} (hs : I s) :
    Follows P s ops ↔ Follows Q s ops := by
  induction ops generalizing s with
  | nil => exact Iff.rfl
  | cons op ops ih =>
    rw [Follows, Follows, hsame s op hs]
    exact and_congr_right fun hop => ih (hstep s op hs hop)

variable {mem memory : Memory} {kernel : KernelImage} {magic mbd : ℕ}

/-- Whatever memory map `pmm_init` has read and whatever is freed: the allocations of a
    run stay inside the bitmap exactly if none is asked for with the hint behind the last
    tracked block and no block from 256 on free. -/
theorem frame_run_inside_iff (hinit : Returns (fun fuel => pmm_init fuel mem kernel magic mbd (static_pmm memory)) st)
    (ops : List FrameOp) : Follows RunsInside (.start st) ops ↔ Follows BeforeEnd (.start st) ops := by
  have hN := PMM_BLOCKS_eq
  obtain ⟨fuel, hfuel⟩ := hinit.exists
  have hhint := (boot.pmm_init_started hfuel).hint
  refine Follows.iff (I := fun s => s.st.last_free_bit ≤ PMM_BLOCKS) (fun s op hs => ?_) (fun s op hs hop => hop.hint hs) ?_
  · cases op with
    | alloc => exact allocInside_iff hs
    | free addr => exact Iff.rfl
  · change st.last_free_bit ≤ PMM_BLOCKS
    omega

theorem frame_run_inside_iff_edge :
    ∃ st, Returns (fun fuel => pmm_init fuel edge_info half_megabyte MULTIBOOT1_MAGIC 0x9000 (static_pmm fun _ => 0)) st ∧
      (Follows RunsInside (.start st) [.alloc, .alloc] ↔ Follows BeforeEnd (.start st) [.alloc, .alloc]) := by
  obtain ⟨st, hinit, -⟩ := edge_init
  exact ⟨st, hinit, frame_run_inside_iff hinit _⟩

/-- The second allocation of that map reads behind the bitmap. -/
theorem edge_alloc_outside :
    ∃ st, Returns (fun fuel => pmm_init fuel edge_info half_megabyte MULTIBOOT1_MAGIC 0x9000 (static_pmm fun _ => 0)) st ∧
      ¬ Follows RunsInside (.start st) [.alloc, .alloc] := by
  obtain ⟨st, hinit, -⟩ := edge_init
  have hover := edge_overruns (pmm_init_initialised edge_map edge_below hinit)
  refine ⟨st, hinit, fun hinside => ?_⟩
  exact (allocInside_iff hover.hint.le).mp hinside.2.1 ⟨hover.hint, hover.full⟩

end os_dev.pmm
