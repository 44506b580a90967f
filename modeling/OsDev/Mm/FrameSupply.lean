import OsDev.Mm.LowestFit
import Mathlib.Order.Interval.Finset.Nat

open bitmap

namespace os_dev.pmm

variable {st : Pmm} {block : ℕ}

/-- Wherever the hint is, an allocation takes a block whose bit is clear, or finds none
    and changes nothing. -/
theorem alloc_block_cases (st : Pmm) :
    pmm_alloc_block st = (0, st) ∨
      ∃ block, min st.last_free_bit 256 ≤ block ∧ block < max PMM_BLOCKS (st.last_free_bit + 8) ∧ Free st block ∧
        pmm_alloc_block st = take_block st block := by
  have hsize : PMM_BITMAP_SIZE * 8 = PMM_BLOCKS := rfl
  unfold pmm_alloc_block
  obtain ⟨block, hscan, hfirst⟩ | ⟨hscan, -⟩ := scan_cases st.pmm_bitmap st.last_free_bit
    (PMM_BITMAP_SIZE - st.last_free_bit / 8) (st.last_free_bit / 8)
  · have hlow := hfirst.low_le
    have hhigh := hfirst.lt_high
    rw [hscan]
    exact .inr ⟨block, by omega, by omega, hfirst.clear, rfl⟩
  · rw [hscan]
    obtain ⟨block, hscan₂, hfirst⟩ | ⟨hscan₂, -⟩ := scan_cases st.pmm_bitmap 256
      (st.last_free_bit / 8 + 1 - 256 / 8) (256 / 8)
    · have hlow := hfirst.low_le
      have hhigh := hfirst.lt_high
      simp only [hscan₂]
      exact .inr ⟨block, by omega, by omega, hfirst.clear, rfl⟩
    · simp only [hscan₂]
      exact .inl trivial

/-- The allocator after `j` allocations, and what the next one returns. -/
def after (st : Pmm) : ℕ → Pmm
  | 0 => st
  | j + 1 => (pmm_alloc_block (after st j)).2

def answer (st : Pmm) (j : ℕ) : ℕ := (pmm_alloc_block (after st j)).1

theorem after_add (st : Pmm) (i j : ℕ) : after (after st i) j = after st (i + j) := by
  induction j with
  | zero => rfl
  | succ j ih => rw [after, ih, ← Nat.add_assoc, after]

theorem answer_after (st : Pmm) (i j : ℕ) : answer (after st i) j = answer st (i + j) := by
  rw [answer, after_add, answer]

/-- The hint of an allocator in use: behind the first megabyte, and far from the end of
    its 32 bits. -/
structure Roving (st : Pmm) (limit : ℕ) : Prop where
  low : 256 ≤ st.last_free_bit
  high : st.last_free_bit ≤ limit

theorem Roving.alloc {limit : ℕ} (h : Roving st limit) (hblocks : PMM_BLOCKS ≤ limit) (hlimit : limit + 8 < 2 ^ 32) :
    Roving (pmm_alloc_block st).2 (limit + 8) ∧
      ((pmm_alloc_block st).1 = 0 ∧ (pmm_alloc_block st).2 = st ∨
        ∃ block, (pmm_alloc_block st).1 = 4096 * block ∧ 0 < block ∧ block < 2 ^ 32 ∧ Free st block ∧
          ∀ c, Free (pmm_alloc_block st).2 c ↔ c ≠ block ∧ Free st c) := by
  have hlow := h.low
  have hhigh := h.high
  obtain heq | ⟨block, hblock, hbound, hfree, heq⟩ := alloc_block_cases st
  · rw [heq]
    exact ⟨⟨hlow, hhigh.trans (Nat.le_add_right limit 8)⟩, .inl ⟨rfl, rfl⟩⟩
  · rw [heq]
    have hlast : (take_block st block).2.last_free_bit = block + 1 := Nat.mod_eq_of_lt (by omega)
    refine ⟨⟨by omega, by omega⟩, .inr ⟨block, Nat.mul_comm _ _, by omega, by omega, hfree, fun c => free_take_block ..⟩⟩

theorem Roving.after {limit : ℕ} (h : Roving st limit) (hblocks : PMM_BLOCKS ≤ limit) {j : ℕ}
    (hlimit : limit + 8 * j < 2 ^ 32) : Roving (after st j) (limit + 8 * j) := by
  induction j with
  | zero => exact h
  | succ j ih => exact ((ih (by omega)).alloc (by omega) (by omega)).1

/-- Once there is no frame left there never is again. -/
theorem Roving.exhausted {limit : ℕ} (h : Roving st limit) (hblocks : PMM_BLOCKS ≤ limit) (hlimit : limit + 8 < 2 ^ 32)
    (hzero : answer st 0 = 0) (j : ℕ) : pmm.after st j = st := by
  have hsame : (pmm_alloc_block st).2 = st := by
    obtain ⟨-, hsame⟩ | ⟨block, heq, hpos, -⟩ := (h.alloc hblocks hlimit).2
    · exact hsame
    · have hzero : (pmm_alloc_block st).1 = 0 := hzero
      omega
  induction j with
  | zero => rfl
  | succ j ih => rw [pmm.after, ih, hsame]

/-- The free blocks of a range. -/
def free_between (st : Pmm) (low high : ℕ) : Finset ℕ :=
  (Finset.Ico low high).filter fun c => ¬ Taken st.pmm_bitmap c

theorem mem_free_between {low high c : ℕ} : c ∈ free_between st low high ↔ low ≤ c ∧ c < high ∧ Free st c := by
  simp only [free_between, Finset.mem_filter, Finset.mem_Ico, and_assoc]
  rfl

/-- No free block below the hint, from 256 on. -/
def Hinted (st : Pmm) : Prop := ∀ c, 256 ≤ c → c < st.last_free_bit → c < PMM_BLOCKS → ¬ Free st c

/-- An allocator that keeps its hint in order for a number of allocations. -/
structure Supply (st : Pmm) (bound : ℕ) : Prop where
  low : 256 ≤ st.last_free_bit
  high : max PMM_BLOCKS st.last_free_bit + 8 * bound < 2 ^ 32
  hinted : Hinted st

/-- An allocation takes the lowest free block from 256 on. When there is none, it may
    only find one behind the end of the bitmap. -/
theorem Supply.alloc_lowest {bound : ℕ} (h : Supply st bound) :
    (∃ block, FirstClear st.pmm_bitmap 256 PMM_BLOCKS block ∧ pmm_alloc_block st = take_block st block) ∨
      (∀ c, 256 ≤ c → c < PMM_BLOCKS → ¬ Free st c) ∧ (pmm_alloc_block st = (0, st) ∨
        ∃ block, PMM_BLOCKS ≤ block ∧ block < st.last_free_bit + 8 ∧ pmm_alloc_block st = take_block st block) := by
  have hsize : PMM_BITMAP_SIZE * 8 = PMM_BLOCKS := rfl
  have hlow := h.low
  unfold pmm_alloc_block
  obtain ⟨block, hscan, hfirst⟩ | ⟨hscan, hnone⟩ := scan_cases st.pmm_bitmap st.last_free_bit
    (PMM_BITMAP_SIZE - st.last_free_bit / 8) (st.last_free_bit / 8)
  · have hge := hfirst.low_le
    have hlt := hfirst.lt_high
    rw [hscan]
    refine .inl ⟨block, ⟨by omega, by omega, hfirst.clear, fun c hc hbelow => ?_⟩, rfl⟩
    by_cases hhint : c < st.last_free_bit
    · exact not_not.mp (h.hinted c hc hhint (by omega))
    · exact hfirst.before c (by omega) hbelow
  · have hnone : ∀ c, 256 ≤ c → c < PMM_BLOCKS → ¬ Free st c := by
      intro c hc hlt
      by_cases hhint : c < st.last_free_bit
      · exact h.hinted c hc hhint hlt
      · exact not_not_intro (hnone c (by omega) (by omega) (by omega))
    rw [hscan]
    refine .inr ⟨hnone, ?_⟩
    obtain ⟨block, hscan₂, hfirst⟩ | ⟨hscan₂, -⟩ := scan_cases st.pmm_bitmap 256
      (st.last_free_bit / 8 + 1 - 256 / 8) (256 / 8)
    · have hge := hfirst.low_le
      have hlt := hfirst.lt_high
      simp only [hscan₂]
      refine .inr ⟨block, ?_, by omega, rfl⟩
      by_contra hblock
      exact hnone block (by omega) (by omega) hfirst.clear
    · simp only [hscan₂]
      exact .inl trivial

theorem Supply.take {bound block : ℕ} (h : Supply st (bound + 1)) (hge : 256 ≤ block)
    (hlt : block < max PMM_BLOCKS (st.last_free_bit + 8))
    (hbelow : ∀ c, 256 ≤ c → c < block → c < PMM_BLOCKS → ¬ Free st c) : Supply (take_block st block).2 bound := by
  have hhigh := h.high
  have hlast : (take_block st block).2.last_free_bit = block + 1 := Nat.mod_eq_of_lt (by omega)
  refine ⟨by omega, by omega, fun c hc hlt hin => ?_⟩
  rw [free_take_block]
  rintro ⟨hne, hfree⟩
  exact hbelow c hc (by omega) hin hfree

theorem Supply.alloc {bound : ℕ} (h : Supply st (bound + 1)) : Supply (pmm_alloc_block st).2 bound := by
  have hhigh := h.high
  obtain ⟨block, hfirst, heq⟩ | ⟨hnone, heq | ⟨block, hge, hlt, heq⟩⟩ := h.alloc_lowest
  · have hlt := hfirst.lt_high
    rw [heq]
    exact h.take hfirst.low_le (by omega) fun c hc hbelow _ => not_not_intro (hfirst.before c hc hbelow)
  · rw [heq]
    exact ⟨h.low, (Nat.add_le_add_left (by omega) _).trans_lt hhigh, h.hinted⟩
  · have hN := PMM_BLOCKS_eq
    rw [heq]
    exact h.take (by omega) (by omega) fun c hc _ => hnone c hc

theorem Supply.after {bound : ℕ} (j : ℕ) (h : Supply st (j + bound)) : Supply (after st j) bound := by
  induction j generalizing bound with
  | zero => rwa [Nat.zero_add] at h
  | succ j ih =>
    rw [Nat.add_assoc, Nat.add_comm 1] at h
    exact Supply.alloc (ih h)

theorem free_between_eq_empty {low high : ℕ} (h : ∀ c, low ≤ c → c < high → ¬ Free st c) : free_between st low high = ∅ := by
  refine Finset.eq_empty_of_forall_notMem fun c hc => ?_
  obtain ⟨hlow, hlt, hfree⟩ := mem_free_between.mp hc
  exact h c hlow hlt hfree

/-- One request shrinks every range from 256 on that has a free block. -/
theorem Supply.card_alloc {bound high : ℕ} (h : Supply st bound) (hhigh : high ≤ PMM_BLOCKS) :
    (free_between (pmm_alloc_block st).2 256 high).card = (free_between st 256 high).card - 1 := by
  have herase : ∀ block, free_between (take_block st block).2 256 high = (free_between st 256 high).erase block := by
    intro block
    ext c
    rw [Finset.mem_erase, mem_free_between, mem_free_between, free_take_block]
    tauto
  obtain ⟨block, hfirst, heq⟩ | ⟨hnone, hrest⟩ := h.alloc_lowest
  · rw [heq, herase]
    by_cases hblock : block < high
    · exact Finset.card_erase_of_mem (mem_free_between.mpr ⟨hfirst.low_le, hblock, hfirst.clear⟩)
    · rw [free_between_eq_empty fun c hc hlt => not_not_intro (hfirst.before c hc (by omega))]
      rfl
  · have hempty : free_between st 256 high = ∅ := free_between_eq_empty fun c hc hlt => hnone c hc (by omega)
    obtain heq | ⟨block, -, -, heq⟩ := hrest
    · rw [heq, hempty]
      rfl
    · rw [heq, herase, hempty]
      rfl

theorem Supply.card_after {bound high : ℕ} (hhigh : high ≤ PMM_BLOCKS) (j : ℕ) (h : Supply st (j + bound)) :
    (free_between (pmm.after st j) 256 high).card = (free_between st 256 high).card - j := by
  induction j generalizing bound with
  | zero => exact (Nat.sub_zero _).symm
  | succ j ih =>
    rw [Nat.add_assoc] at h
    rw [Nat.sub_add_eq, ← ih h]
    exact (Supply.after j h).card_alloc hhigh

/-- A request gets a block below `high` exactly as long as there are some. -/
theorem Supply.answer_low_iff {bound high : ℕ} (hhigh : high ≤ PMM_BLOCKS) (j : ℕ) (h : Supply st (j + bound)) :
    answer st j < 4096 * high ∧ answer st j ≠ 0 ↔ j < (free_between st 256 high).card := by
  have hN := PMM_BLOCKS_eq
  have hcard := Supply.card_after hhigh j h
  have hanswer : ∀ block, pmm_alloc_block (pmm.after st j) = take_block (pmm.after st j) block → answer st j = 4096 * block := by
    intro block heq
    rw [answer, heq, take_block, PMM_BLOCK_SIZE, Nat.mul_comm]
  obtain ⟨block, hfirst, heq⟩ | ⟨hnone, hrest⟩ := (Supply.after j h).alloc_lowest
  · have hge := hfirst.low_le
    have heq := hanswer block heq
    by_cases hblock : block < high
    · have hpos : 0 < (free_between (pmm.after st j) 256 high).card :=
        Finset.card_pos.mpr ⟨block, mem_free_between.mpr ⟨hge, hblock, hfirst.clear⟩⟩
      omega
    · rw [free_between_eq_empty fun c hc hlt => not_not_intro (hfirst.before c hc (by omega)), Finset.card_empty] at hcard
      omega
  · rw [free_between_eq_empty fun c hc hlt => hnone c hc (by omega), Finset.card_empty] at hcard
    obtain heq | ⟨block, hge, -, heq⟩ := hrest
    · have hzero : answer st j = 0 := by rw [answer, heq]
      omega
    · have heq := hanswer block heq
      omega

/-- An allocator whose search does not run over the end of the bitmap: the hint is not at
    the end yet, and the last block is taken or the byte behind the bitmap is full. -/
structure Contained (st : Pmm) : Prop where
  high : st.last_free_bit < PMM_BLOCKS
  last : ¬ Free st (PMM_BLOCKS - 1) ∨ st.pmm_bitmap PMM_BITMAP_SIZE = 0xFF

theorem Contained.run {bound : ℕ} (h : Contained st) (hsupply : Supply st bound) (j : ℕ) :
    HintInv st (frame_run (.start st) (List.replicate j .alloc)) ∧
      (frame_run (.start st) (List.replicate j .alloc)).st = pmm.after st j := by
  have hhigh := h.high
  have hstart := HintInv.self hsupply.low h.high fun c hc hlt => hsupply.hinted c hc hlt (by omega)
  induction j with
  | zero => exact ⟨hstart, rfl⟩
  | succ j ih =>
    have hrun : frame_run (.start st) (List.replicate (j + 1) .alloc) =
        frame_step (frame_run (.start st) (List.replicate j .alloc)) .alloc := by
      rw [List.replicate_succ', frame_run, List.foldl_append, List.foldl_cons, List.foldl_nil, frame_run]
    rw [hrun, alloc_step_st, ih.2]
    exact ⟨ih.1.step h.last trivial, rfl⟩

/-- Such an allocator fails exactly when all its blocks are used up. -/
theorem Contained.answer_zero_iff {bound : ℕ} (h : Contained st) (j : ℕ) (hsupply : Supply st (j + bound)) :
    answer st j = 0 ↔ (free_between st 256 PMM_BLOCKS).card ≤ j := by
  have hlow := Supply.answer_low_iff le_rfl j hsupply
  obtain ⟨hinv, hst⟩ := h.run hsupply j
  obtain ⟨block, hfirst, heq⟩ | ⟨-, heq⟩ := hinv.alloc_lowest (hinv.not_overruns h.last)
  · have hge := hfirst.low_le
    have hlt := hfirst.lt_high
    have heq : answer st j = 4096 * block := by
      rw [answer, ← hst, heq, take_block, PMM_BLOCK_SIZE, Nat.mul_comm]
    omega
  · have hzero : answer st j = 0 := by rw [answer, ← hst, heq]
    omega

end os_dev.pmm
