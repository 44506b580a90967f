import OsDev.Mm.Pmm

open bitmap

namespace os_dev.pmm

variable {st : Pmm} {block : ℕ}

theorem PMM_BLOCKS_eq : PMM_BLOCKS = 4194304 := rfl

/-- A tracked or untracked block whose bit is clear. -/
def Free (st : Pmm) (block : ℕ) : Prop := ¬ Taken st.pmm_bitmap block

theorem free_set_bit (st : Pmm) (block c : ℕ) : Free (pmm_set_bit st block) c ↔ c ≠ block ∧ Free st c := by
  unfold pmm_set_bit Free
  split
  · constructor
    · exact fun h => ⟨fun heq => h (heq ▸ ‹_›), h⟩
    · exact fun h => h.2
  · simp only [taken_mark, not_or, ne_eq]

theorem free_clear_bit (st : Pmm) (block c : ℕ) : Free (pmm_clear_bit st block) c ↔ c = block ∨ Free st c := by
  unfold pmm_clear_bit Free
  split
  · simp only [taken_unmark, not_and_or, not_not, ne_eq]
  · constructor
    · exact .inr
    · rintro (rfl | h)
      · assumption
      · exact h

/-- The counter is the number of clear bits of the bitmap. -/
def Counted (st : Pmm) : Prop := st.free_blocks = (clear_bits st.pmm_bitmap PMM_BLOCKS).card

theorem Counted.le (h : Counted st) : st.free_blocks ≤ PMM_BLOCKS := by
  rw [h]
  exact (Finset.card_filter_le _ _).trans (Finset.card_range _).le

theorem Counted.set_bit (h : Counted st) (hblock : block < PMM_BLOCKS) : Counted (pmm_set_bit st block) := by
  unfold pmm_set_bit
  split
  · exact h
  · rename_i hfree
    have hmem : block ∈ clear_bits st.pmm_bitmap PMM_BLOCKS := mem_clear_bits.mpr ⟨hblock, hfree⟩
    have hpos : 0 < st.free_blocks := by
      rw [h]
      exact Finset.card_pos.mpr ⟨block, hmem⟩
    rw [Counted, clear_bits_mark, Finset.card_erase_of_mem hmem, ← h]
    exact if_pos hpos

theorem Counted.clear_bit (h : Counted st) (hblock : block < PMM_BLOCKS) : Counted (pmm_clear_bit st block) := by
  unfold pmm_clear_bit
  split
  · rename_i htaken
    have hnot : block ∉ clear_bits st.pmm_bitmap PMM_BLOCKS := fun hmem => (mem_clear_bits.mp hmem).2 htaken
    have hle := h.le
    rw [PMM_BLOCKS_eq] at hle
    rw [Counted, clear_bits_unmark hblock, Finset.card_insert_of_notMem hnot, ← h]
    exact Nat.mod_eq_of_lt (by omega)
  · exact h

@[simp] theorem set_bit_last (st : Pmm) (block : ℕ) : (pmm_set_bit st block).last_free_bit = st.last_free_bit := by
  unfold pmm_set_bit
  split <;> rfl

@[simp] theorem clear_bit_last (st : Pmm) (block : ℕ) : (pmm_clear_bit st block).last_free_bit = st.last_free_bit := by
  unfold pmm_clear_bit
  split <;> rfl

@[simp] theorem set_bit_total (st : Pmm) (block : ℕ) :
    (pmm_set_bit st block).total_memory_kb = st.total_memory_kb := by
  unfold pmm_set_bit
  split <;> rfl

@[simp] theorem clear_bit_total (st : Pmm) (block : ℕ) :
    (pmm_clear_bit st block).total_memory_kb = st.total_memory_kb := by
  unfold pmm_clear_bit
  split <;> rfl

theorem set_bit_byte (st : Pmm) {block i : ℕ} (hi : i ≠ block / 8) :
    (pmm_set_bit st block).pmm_bitmap i = st.pmm_bitmap i := by
  unfold pmm_set_bit
  split
  · rfl
  · exact Function.update_of_ne hi _ _

theorem clear_bit_byte (st : Pmm) {block i : ℕ} (hi : i ≠ block / 8) :
    (pmm_clear_bit st block).pmm_bitmap i = st.pmm_bitmap i := by
  unfold pmm_clear_bit
  split
  · exact Function.update_of_ne hi _ _
  · rfl

/-- The second search pass reads the byte behind the bitmap and finds a clear bit there. -/
structure Overruns (st : Pmm) : Prop where
  hint : st.last_free_bit = PMM_BLOCKS
  full : ∀ c, 256 ≤ c → c < PMM_BLOCKS → ¬ Free st c
  beyond : st.pmm_bitmap PMM_BITMAP_SIZE ≠ 0xFF

/-- What `pmm_alloc_block` does while the hint is inside the bitmap or at its end: the
    first pass finds a block, the second one does, none does, or the search runs over
    the end of the bitmap. -/
theorem alloc_cases (hhint : st.last_free_bit ≤ PMM_BLOCKS) :
    (∃ block, FirstClear st.pmm_bitmap st.last_free_bit PMM_BLOCKS block ∧ pmm_alloc_block st = take_block st block) ∨
      (∀ c, st.last_free_bit ≤ c → c < PMM_BLOCKS → ¬ Free st c) ∧
        ((∃ block, FirstClear st.pmm_bitmap 256 PMM_BLOCKS block ∧ pmm_alloc_block st = take_block st block) ∨
          (∃ block, Overruns st ∧ PMM_BLOCKS ≤ block ∧ block < PMM_BLOCKS + 8 ∧ Free st block ∧
            pmm_alloc_block st = take_block st block) ∨
          (∀ c, 256 ≤ c → c < st.last_free_bit → ¬ Free st c) ∧ ¬ Overruns st ∧ pmm_alloc_block st = (0, st)) := by
  have hN := PMM_BLOCKS_eq
  have hsize : PMM_BITMAP_SIZE * 8 = PMM_BLOCKS := rfl
  unfold pmm_alloc_block
  obtain ⟨block, hscan, hfirst⟩ | ⟨hscan, hnone⟩ := scan_cases st.pmm_bitmap st.last_free_bit
    (PMM_BITMAP_SIZE - st.last_free_bit / 8) (st.last_free_bit / 8)
  · rw [hscan]
    refine .inl ⟨block, ⟨?_, ?_, hfirst.clear, fun c hc => hfirst.before c (by omega)⟩, rfl⟩
    · have := hfirst.low_le
      omega
    · have := hfirst.lt_high
      omega
  · rw [hscan]
    have hnone' : ∀ c, st.last_free_bit ≤ c → c < PMM_BLOCKS → ¬ Free st c := by
      intro c hlow hhigh
      exact not_not_intro (hnone c hlow (by omega) (by omega))
    refine .inr ⟨hnone', ?_⟩
    obtain ⟨block, hscan₂, hfirst⟩ | ⟨hscan₂, hnone₂⟩ := scan_cases st.pmm_bitmap 256
      (st.last_free_bit / 8 + 1 - 256 / 8) (256 / 8)
    · simp only [hscan₂]
      have hlow := hfirst.low_le
      have hhigh := hfirst.lt_high
      by_cases hin : block < PMM_BLOCKS
      · exact .inl ⟨block, ⟨by omega, hin, hfirst.clear, fun c hc => hfirst.before c (by omega)⟩, rfl⟩
      · refine .inr (.inl ⟨block, ⟨by omega, fun c hc hlt => ?_, fun hfull => ?_⟩, by omega, by omega, hfirst.clear, rfl⟩)
        · exact not_not_intro (hfirst.before c (by omega) (by omega))
        · -- the clear bit lies in the byte behind the bitmap
          have htaken := (byte_full_iff st.pmm_bitmap PMM_BITMAP_SIZE).mp hfull (block - PMM_BLOCKS) (by omega)
          rw [show 8 * PMM_BITMAP_SIZE + (block - PMM_BLOCKS) = block by omega] at htaken
          exact hfirst.clear htaken
    · simp only [hscan₂]
      refine .inr (.inr ⟨fun c hlow hhigh => not_not_intro (hnone₂ c hlow (by omega) (by omega)), fun hover => ?_, trivial⟩)
      refine hover.beyond ((byte_full_iff st.pmm_bitmap PMM_BITMAP_SIZE).mpr fun j hj => ?_)
      have hlast := hover.hint
      exact hnone₂ _ (by omega) (by omega) (by omega)

end os_dev.pmm
