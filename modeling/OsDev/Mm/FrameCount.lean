import OsDev.Mm.LowestFit

open little_endian bitmap fuel

namespace os_dev.pmm

variable {st : Pmm} {s : FrameState} {block : ℕ}

/-- Only tracked frames are freed, and no allocation runs over the end of the bitmap. -/
def StaysTracked (s : FrameState) : FrameOp → Prop
  | .alloc => ¬ Overruns s.st
  | .free addr => addr / PMM_BLOCK_SIZE < PMM_BLOCKS

/-- Only frames that an allocation has returned are freed, possibly more than once. -/
def FreesObtained (s : FrameState) : FrameOp → Prop
  | .alloc => True
  | .free addr => addr ∈ s.obtained

/-- The counter agrees with the bitmap, with the hint in range. -/
structure CountInv (st : Pmm) : Prop where
  high : st.last_free_bit ≤ PMM_BLOCKS
  counted : Counted st

/-- What an allocation that stays in the bitmap does: take a tracked free block, or
    nothing. -/
theorem alloc_tracked_cases (hhint : st.last_free_bit ≤ PMM_BLOCKS) (hin : ¬ Overruns st) :
    (∃ block, block < PMM_BLOCKS ∧ Free st block ∧ pmm_alloc_block st = take_block st block) ∨
      pmm_alloc_block st = (0, st) := by
  obtain ⟨block, hfirst, heq⟩ | ⟨-, ⟨block, hfirst, heq⟩ | ⟨block, hover, -⟩ | ⟨-, -, heq⟩⟩ := alloc_cases hhint
  · exact .inl ⟨block, hfirst.lt_high, hfirst.clear, heq⟩
  · exact .inl ⟨block, hfirst.lt_high, hfirst.clear, heq⟩
  · exact absurd hover hin
  · exact .inr heq

theorem free_tracked {addr : ℕ} (haddr : addr / PMM_BLOCK_SIZE < PMM_BLOCKS) :
    addr / PMM_BLOCK_SIZE % 2 ^ 32 = addr / PMM_BLOCK_SIZE := by
  rw [PMM_BLOCKS_eq] at haddr
  exact Nat.mod_eq_of_lt (by omega)

theorem CountInv.step (h : CountInv s.st) {op : FrameOp} (hop : StaysTracked s op) :
    CountInv (frame_step s op).st := by
  have hN := PMM_BLOCKS_eq
  cases op with
  | alloc =>
    rw [alloc_step_st]
    obtain ⟨block, hblock, -, heq⟩ | heq := alloc_tracked_cases h.high hop
    · rw [heq]
      refine ⟨?_, h.counted.set_bit hblock⟩
      simp only [take_block]
      omega
    · rwa [heq]
  | free addr =>
    have hcounted := h.counted.clear_bit hop
    have hhigh := h.high
    simp only [frame_step, pmm_free_block, free_tracked hop]
    split
    · exact ⟨Nat.le_of_lt hop, hcounted⟩
    · exact ⟨by rwa [clear_bit_last], hcounted⟩

/-- Runs that free only what was handed out stay inside the memory `ram` that was
    counted as the total. -/
structure RamInv (ram : Finset ℕ) (s : FrameState) : Prop where
  total : s.st.total_memory_kb = ram.card * 4
  free : ∀ c, c < PMM_BLOCKS → Free s.st c → c ∈ ram
  obtained : ∀ addr ∈ s.obtained, addr / PMM_BLOCK_SIZE ∈ ram

theorem RamInv.step {ram : Finset ℕ} (h : RamInv ram s) (hhint : s.st.last_free_bit ≤ PMM_BLOCKS) {op : FrameOp}
    (hop : StaysTracked s op) (hobtained : FreesObtained s op) : RamInv ram (frame_step s op) := by
  cases op with
  | alloc =>
    obtain ⟨block, hblock, hfree, heq⟩ | heq := alloc_tracked_cases hhint hop
    · have htotal : (take_block s.st block).2.total_memory_kb = ram.card * 4 := (set_bit_total _ _).trans h.total
      have hrest : ∀ c, c < PMM_BLOCKS → Free (take_block s.st block).2 c → c ∈ ram :=
        fun c hc hfree => h.free c hc ((free_take_block ..).mp hfree).2
      simp only [frame_step, heq]
      split
      · exact ⟨htotal, hrest, h.obtained⟩
      · refine ⟨htotal, hrest, fun addr hmem => ?_⟩
        obtain rfl | hmem := List.mem_cons.mp hmem
        · simp only [take_block]
          rw [Nat.mul_div_cancel _ (by decide)]
          exact h.free block hblock hfree
        · exact h.obtained addr hmem
    · rwa [frame_step_alloc_none s heq]
  | free addr =>
    have htotal : (pmm_free_block s.st addr).total_memory_kb = ram.card * 4 := by
      simp only [pmm_free_block]
      split
      · exact (clear_bit_total ..).trans h.total
      · exact (clear_bit_total ..).trans h.total
    refine ⟨htotal, fun c hc hfree => ?_, h.obtained⟩
    have hfree : Free (pmm_clear_bit s.st (addr / PMM_BLOCK_SIZE)) c := by
      simp only [frame_step, pmm_free_block, free_tracked hop] at hfree
      split at hfree <;> exact hfree
    obtain rfl | hfree := (free_clear_bit ..).mp hfree
    · exact h.obtained addr hobtained
    · exact h.free c hc hfree

theorem RamInv.run {ram : Finset ℕ} {ops : List FrameOp} (h : RamInv ram s) (hcount : CountInv s.st)
    (hops : Follows StaysTracked s ops) (hobtained : Follows FreesObtained s ops) : RamInv ram (frame_run s ops) := by
  induction ops generalizing s with
  | nil => exact h
  | cons op ops ih =>
    exact ih (h.step hcount.high hops.1 hobtained.1) (hcount.step hops.1) hops.2 hobtained.2

/-- Used and free blocks make up the total. -/
theorem RamInv.used_add_free {ram : Finset ℕ} (h : RamInv ram s) (hcounted : Counted s.st) :
    pmm_get_used_blocks s.st + pmm_get_free_blocks s.st = pmm_get_total_memory_kb s.st / 4 := by
  have hle : s.st.free_blocks ≤ ram.card := by
    rw [hcounted]
    refine Finset.card_le_card fun c hc => ?_
    obtain ⟨hlt, hclear⟩ := mem_clear_bits.mp hc
    exact h.free c hlt hclear
  simp only [pmm_get_used_blocks, pmm_get_free_blocks, pmm_get_total_memory_kb, h.total]
  rw [if_neg (by omega)]
  omega

variable {mem memory : Memory} {kernel : KernelImage} {magic mbd : ℕ} {entries : List mmap_entry_t}

/-- In every run on tracked frames that does not run over the end of the bitmap, the
    counter is the number of clear bits, and the statistics add up as long as only
    frames from the allocator are freed. -/
theorem frame_run_counts (hmap : Returns (fun fuel => memory_map fuel mem magic mbd) entries)
    (hbelow : BelowLimit entries)
    (hinit : Returns (fun fuel => pmm_init fuel mem kernel magic mbd (static_pmm memory)) st) (ops : List FrameOp)
    (hops : Follows StaysTracked (.start st) ops) :
    (frame_run (.start st) ops).st.free_blocks =
        (clear_bits (frame_run (.start st) ops).st.pmm_bitmap PMM_BLOCKS).card ∧
      (frame_run (.start st) ops).st.free_blocks ≤ PMM_BLOCKS ∧
      (Follows FreesObtained (.start st) ops →
        pmm_get_used_blocks (frame_run (.start st) ops).st + pmm_get_free_blocks (frame_run (.start st) ops).st =
          pmm_get_total_memory_kb (frame_run (.start st) ops).st / 4) := by
  have hN := PMM_BLOCKS_eq
  have hspec := pmm_init_initialised hmap hbelow hinit
  have hhint := hspec.hint
  have hstart : CountInv (FrameState.start st).st := ⟨by simp only [FrameState.start]; omega, hspec.counted⟩
  have hinv : CountInv (frame_run (.start st) ops).st :=
    Follows.preserved (I := fun s => CountInv s.st) (fun _ _ hs hop => hs.step hop) hstart hops
  refine ⟨hinv.counted, hinv.counted.le, fun hobtained => ?_⟩
  obtain ⟨ram, hram, htotal⟩ := hspec.total
  have hramStart : RamInv ram (.start st) := by
    refine ⟨htotal, fun c hc hfree => ?_, fun addr hmem => absurd hmem List.not_mem_nil⟩
    obtain ⟨hfreed, -⟩ | ⟨hge, -⟩ := (hspec.free c).mp hfree
    · exact (hram c).mpr hfreed
    · omega
  exact (hramStart.run hstart hops hobtained).used_add_free hinv.counted

/-- A search over the end takes an untracked block off the counter. -/
theorem Overruns.miscounts (h : Overruns st) (hcounted : Counted st) {c : ℕ} (hc : c < PMM_BLOCKS)
    (hfree : Free st c) : ¬ Counted (pmm_alloc_block st).2 := by
  obtain ⟨block, hblock, hclear, heq⟩ := h.alloc
  have hpos : 0 < st.free_blocks := by
    rw [hcounted]
    exact Finset.card_pos.mpr ⟨c, mem_clear_bits.mpr ⟨hc, hfree⟩⟩
  have hout : block ∉ clear_bits st.pmm_bitmap PMM_BLOCKS := by
    rw [mem_clear_bits]
    omega
  rw [heq]
  simp only [Counted, take_block, pmm_set_bit]
  rw [if_neg hclear]
  simp only [if_pos hpos]
  rw [clear_bits_mark, Finset.erase_eq_of_notMem hout, ← hcounted]
  omega

theorem edge_first_alloc_stays {st : Pmm}
    (h : Initialised half_megabyte MULTIBOOT1_MAGIC edge_entries (fun _ => 0) st) :
    Follows StaysTracked (.start st) [.alloc] :=
  ⟨first_clear_not_overruns (edge_first h), trivial⟩

theorem frame_run_counts_edge :
    ∃ st, Returns (fun fuel => memory_map fuel edge_info MULTIBOOT1_MAGIC 0x9000) edge_entries ∧
      BelowLimit edge_entries ∧
      Returns (fun fuel => pmm_init fuel edge_info half_megabyte MULTIBOOT1_MAGIC 0x9000 (static_pmm fun _ => 0)) st ∧
      Follows StaysTracked (.start st) [.alloc] ∧ Follows FreesObtained (.start st) [.alloc] ∧
      (frame_run (.start st) [.alloc]).st.free_blocks =
        (clear_bits (frame_run (.start st) [.alloc]).st.pmm_bitmap PMM_BLOCKS).card ∧
      pmm_get_used_blocks (frame_run (.start st) [.alloc]).st + pmm_get_free_blocks (frame_run (.start st) [.alloc]).st =
        pmm_get_total_memory_kb (frame_run (.start st) [.alloc]).st / 4 := by
  obtain ⟨st, hinit, -⟩ := edge_init
  have hstays := edge_first_alloc_stays (pmm_init_initialised edge_map edge_below hinit)
  obtain ⟨hcounted, -, hadd⟩ := frame_run_counts edge_map edge_below hinit [.alloc] hstays
  exact ⟨st, edge_map, edge_below, hinit, hstays, ⟨trivial, trivial⟩, hcounted, hadd ⟨trivial, trivial⟩⟩

/-- The second allocation of that map runs over the end and counts a block that is
    still free as taken: the second page. -/
theorem edge_alloc_miscounts :
    ∃ st, Returns (fun fuel => memory_map fuel edge_info MULTIBOOT1_MAGIC 0x9000) edge_entries ∧
      BelowLimit edge_entries ∧
      Returns (fun fuel => pmm_init fuel edge_info half_megabyte MULTIBOOT1_MAGIC 0x9000 (static_pmm fun _ => 0)) st ∧
      ¬ (frame_run (.start st) [.alloc, .alloc]).st.free_blocks =
        (clear_bits (frame_run (.start st) [.alloc, .alloc]).st.pmm_bitmap PMM_BLOCKS).card := by
  obtain ⟨st, hinit, hinitrd, hramdisk⟩ := edge_init
  have hspec := pmm_init_initialised edge_map edge_below hinit
  have hstart := HintInv.start hspec.hint
  have hover := edge_overruns hspec
  have hcount : CountInv (frame_step (.start st) .alloc).st :=
    CountInv.step ⟨hstart.high, hspec.counted⟩ (edge_first_alloc_stays hspec).1
  have hfree : Free (frame_step (.start st) .alloc).st 1 := by
    rw [hstart.step_first (edge_first hspec), free_take_block]
    refine ⟨by decide, (hspec.free 1).mpr (.inl ⟨⟨_, List.mem_cons_self, ?_⟩, ?_⟩)⟩
    · simp only [FreesBlock, if_true, MultibootFrees]
      decide
    · simp [Protected, hinitrd, hramdisk, half_megabyte, PMM_BLOCK_SIZE]
  refine ⟨st, edge_map, edge_below, hinit, ?_⟩
  change ¬ Counted (frame_step (frame_step (.start st) .alloc) .alloc).st
  rw [alloc_step_st (frame_step (.start st) .alloc)]
  exact hover.miscounts hcount.counted (by decide) hfree

end os_dev.pmm
