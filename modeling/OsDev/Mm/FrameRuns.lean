import OsDev.Mm.PmmInit

open little_endian bitmap fuel

namespace os_dev.pmm

inductive FrameOp where
  | alloc
  | free (addr : ℕ)

/-- The allocator with a record of the frames that are held, and of all frames that
    have ever been handed out. -/
structure FrameState where
  st : Pmm
  held : List ℕ
  obtained : List ℕ

def FrameState.start (st : Pmm) : FrameState := ⟨st, [], []⟩

def frame_step (s : FrameState) : FrameOp → FrameState
  | .alloc =>
    let (addr, st) := pmm_alloc_block s.st
    if addr = 0 then { s with st } else ⟨st, addr :: s.held, addr :: s.obtained⟩
  | .free addr => { s with st := pmm_free_block s.st addr, held := s.held.erase addr }

def frame_run (s : FrameState) (ops : List FrameOp) : FrameState := ops.foldl frame_step s

/-- Every step of a run meets a condition in the state it starts from. -/
def Follows (P : FrameState → FrameOp → Prop) : FrameState → List FrameOp → Prop
  | _, [] => True
  | s, op :: ops => P s op ∧ Follows P (frame_step s op) ops

/-- Only frames currently held are freed. -/
def FreesHeld (s : FrameState) : FrameOp → Prop
  | .alloc => True
  | .free addr => addr ∈ s.held

theorem Follows.preserved {P : FrameState → FrameOp → Prop} {I : FrameState → Prop}
    (hstep : ∀ s op, I s → P s op → I (frame_step s op)) {ops : List FrameOp} {s : FrameState} (hs : I s)
    (h : Follows P s ops) : I (frame_run s ops) := by
  induction ops generalizing s with
  | nil => exact hs
  | cons op ops ih => exact ih (hstep s op hs h.1) h.2

theorem Follows.append {P : FrameState → FrameOp → Prop} {ops ops' : List FrameOp} {s : FrameState}
    (h : Follows P s ops) (h' : Follows P (frame_run s ops) ops') : Follows P s (ops ++ ops') := by
  induction ops generalizing s with
  | nil => exact h'
  | cons op ops ih => exact ⟨h.1, ih h.2 h'⟩

/-- Runs in which only held frames are freed, from the state `st₀`: the hint has no
    free block from 256 on below it, and the held frames are the blocks free in `st₀`
    and not free now. -/
structure HintInv (st₀ : Pmm) (s : FrameState) : Prop where
  low : 256 ≤ s.st.last_free_bit
  high : s.st.last_free_bit ≤ PMM_BLOCKS
  hint : ∀ c, 256 ≤ c → c < s.st.last_free_bit → ¬ Free s.st c
  beyond : s.st.pmm_bitmap PMM_BITMAP_SIZE = st₀.pmm_bitmap PMM_BITMAP_SIZE
  free : ∀ c, Free s.st c → Free st₀ c
  held : ∀ addr, addr ∈ s.held ↔
    ∃ c, addr = c * PMM_BLOCK_SIZE ∧ 256 ≤ c ∧ c < PMM_BLOCKS ∧ Free st₀ c ∧ ¬ Free s.st c
  nodup : s.held.Nodup
  top : s.st.last_free_bit = PMM_BLOCKS → Free st₀ (PMM_BLOCKS - 1)

variable {st st₀ : Pmm} {s : FrameState} {block : ℕ}

/-- A run may start wherever the hint has no free block below it and is not yet at the
    end. -/
theorem HintInv.self (hlow : 256 ≤ st.last_free_bit) (hhigh : st.last_free_bit < PMM_BLOCKS)
    (hhint : ∀ c, 256 ≤ c → c < st.last_free_bit → ¬ Free st c) : HintInv st (.start st) := by
  refine ⟨hlow, Nat.le_of_lt hhigh, hhint, rfl, fun _ => id, ?_, .nil, fun heq => absurd heq (Nat.ne_of_lt hhigh)⟩
  simp only [FrameState.start, List.not_mem_nil, false_iff]
  rintro addr ⟨c, -, -, -, hfree, hnot⟩
  exact hnot hfree

theorem HintInv.start (hhint : st.last_free_bit = 256) : HintInv st (.start st) := by
  have hN := PMM_BLOCKS_eq
  exact HintInv.self hhint.ge (by omega) fun c hc hlt => by omega

/-- The result of an allocation is the lowest free block from 256 on, unless the
    search runs over the end of the bitmap. -/
theorem HintInv.alloc_lowest (h : HintInv st₀ s) (hin : ¬ Overruns s.st) :
    (∃ block, FirstClear s.st.pmm_bitmap 256 PMM_BLOCKS block ∧ pmm_alloc_block s.st = take_block s.st block) ∨
      (∀ c, 256 ≤ c → c < PMM_BLOCKS → ¬ Free s.st c) ∧ pmm_alloc_block s.st = (0, s.st) := by
  have hlow := h.low
  obtain ⟨block, hfirst, heq⟩ | ⟨hnone, ⟨block, hfirst, heq⟩ | ⟨block, hover, -⟩ | ⟨-, -, heq⟩⟩ := alloc_cases h.high
  · refine .inl ⟨block, ⟨hlow.trans hfirst.low_le, hfirst.lt_high, hfirst.clear, fun c hc hlt => ?_⟩, heq⟩
    by_cases hbelow : c < s.st.last_free_bit
    · exact not_not.mp (h.hint c hc hbelow)
    · exact hfirst.before c (by omega) hlt
  · exact .inl ⟨block, hfirst, heq⟩
  · exact absurd hover hin
  · refine .inr ⟨fun c hc hlt => ?_, heq⟩
    by_cases hbelow : c < s.st.last_free_bit
    · exact h.hint c hc hbelow
    · exact hnone c (by omega) hlt

theorem free_take_block (st : Pmm) (block c : ℕ) : Free (take_block st block).2 c ↔ c ≠ block ∧ Free st c :=
  free_set_bit st block c

theorem HintInv.take (h : HintInv st₀ s) (hfirst : FirstClear s.st.pmm_bitmap 256 PMM_BLOCKS block)
    (obtained : List ℕ) :
    HintInv st₀ ⟨(take_block s.st block).2, block * PMM_BLOCK_SIZE :: s.held, obtained⟩ := by
  have hN := PMM_BLOCKS_eq
  have hlow := hfirst.low_le
  have hhigh := hfirst.lt_high
  have hlast : (take_block s.st block).2.last_free_bit = block + 1 := Nat.mod_eq_of_lt (by omega)
  have hsize : PMM_BITMAP_SIZE * 8 = PMM_BLOCKS := rfl
  refine ⟨hlast.symm ▸ by omega, hlast.symm ▸ by omega, fun c hc hlt => ?_, ?_, fun c hc => ?_, fun addr => ?_, ?_,
    fun hend => ?_⟩
  · rw [hlast] at hlt
    rw [free_take_block]
    rintro ⟨hne, hfree⟩
    exact hfree (hfirst.before c hc (by omega))
  · exact (set_bit_byte s.st (by omega)).trans h.beyond
  · exact h.free c ((free_take_block ..).mp hc).2
  · simp only [List.mem_cons, h.held, free_take_block, not_and_or, not_not, ne_eq]
    constructor
    · rintro (rfl | ⟨c, rfl, hc, hlt, hfree, hnot⟩)
      · exact ⟨block, rfl, hlow, hhigh, h.free block hfirst.clear, .inl rfl⟩
      · exact ⟨c, rfl, hc, hlt, hfree, .inr hnot⟩
    · rintro ⟨c, rfl, hc, hlt, hfree, rfl | hnot⟩
      · exact .inl rfl
      · exact .inr ⟨c, rfl, hc, hlt, hfree, hnot⟩
  · refine List.nodup_cons.mpr ⟨fun hmem => ?_, h.nodup⟩
    obtain ⟨c, heq, -, -, -, hnot⟩ := (h.held _).mp hmem
    rw [Nat.eq_of_mul_eq_mul_right (by decide) heq] at hfirst
    exact hnot hfirst.clear
  · rw [hlast] at hend
    rw [show PMM_BLOCKS - 1 = block by omega]
    exact h.free block hfirst.clear

theorem HintInv.release (h : HintInv st₀ s) {addr : ℕ} (hheld : addr ∈ s.held) :
    HintInv st₀ (frame_step s (.free addr)) := by
  have hN := PMM_BLOCKS_eq
  have hsize : PMM_BITMAP_SIZE * 8 = PMM_BLOCKS := rfl
  obtain ⟨c, rfl, hlow, hhigh, hfree₀, hnot⟩ := (h.held addr).mp hheld
  have hblock : c * PMM_BLOCK_SIZE / PMM_BLOCK_SIZE % 2 ^ 32 = c := by
    rw [Nat.mul_div_cancel _ (by decide)]
    exact Nat.mod_eq_of_lt (by omega)
  have hfree : ∀ x, Free (pmm_free_block s.st (c * PMM_BLOCK_SIZE)) x ↔ x = c ∨ Free s.st x := by
    intro x
    rw [← free_clear_bit]
    simp only [pmm_free_block, hblock]
    split <;> rfl
  have hlast : (pmm_free_block s.st (c * PMM_BLOCK_SIZE)).last_free_bit = min c s.st.last_free_bit := by
    simp only [pmm_free_block, hblock, clear_bit_last]
    split
    · exact (min_eq_left (Nat.le_of_lt ‹_›)).symm
    · rw [clear_bit_last]
      exact (min_eq_right (Nat.le_of_not_lt ‹_›)).symm
  have hbyte : (pmm_free_block s.st (c * PMM_BLOCK_SIZE)).pmm_bitmap PMM_BITMAP_SIZE = s.st.pmm_bitmap PMM_BITMAP_SIZE := by
    have hclear : (pmm_clear_bit s.st c).pmm_bitmap PMM_BITMAP_SIZE = s.st.pmm_bitmap PMM_BITMAP_SIZE :=
      clear_bit_byte s.st (by omega)
    rw [← hclear]
    simp only [pmm_free_block, hblock]
    split <;> rfl
  have hbelow := h.low
  have habove := h.high
  refine ⟨?_, ?_, fun x hx hlt => ?_, hbyte.trans h.beyond, fun x hx => ?_, fun addr => ?_, h.nodup.erase _,
    fun hend => ?_⟩
  · simp only [frame_step, hlast]
    omega
  · simp only [frame_step, hlast]
    omega
  · simp only [frame_step, hlast] at hlt ⊢
    rw [hfree]
    rintro (rfl | hx')
    · omega
    · exact h.hint x hx (by omega) hx'
  · obtain rfl | hx := (hfree x).mp hx
    · exact hfree₀
    · exact h.free x hx
  · simp only [frame_step, h.nodup.mem_erase_iff, h.held, hfree, not_or]
    constructor
    · rintro ⟨hne, x, rfl, hx, hlt, hx₀, hxnot⟩
      exact ⟨x, rfl, hx, hlt, hx₀, fun heq => hne (by rw [heq]), hxnot⟩
    · rintro ⟨x, rfl, hx, hlt, hx₀, hne, hxnot⟩
      exact ⟨fun heq => hne (Nat.eq_of_mul_eq_mul_right (by decide) heq), x, rfl, hx, hlt, hx₀, hxnot⟩
  · simp only [frame_step, hlast] at hend
    omega

/-- The search can run over the end only if the last tracked block was free at the
    start and the byte behind the bitmap is not full. -/
theorem HintInv.not_overruns (h : HintInv st₀ s)
    (hend : ¬ Free st₀ (PMM_BLOCKS - 1) ∨ st₀.pmm_bitmap PMM_BITMAP_SIZE = 0xFF) : ¬ Overruns s.st := by
  intro hover
  obtain hlast | hfull := hend
  · exact hlast (h.top hover.hint)
  · exact hover.beyond (h.beyond.trans hfull)

theorem alloc_step_st (s : FrameState) : (frame_step s .alloc).st = (pmm_alloc_block s.st).2 := by
  simp only [frame_step]
  split <;> rfl

theorem frame_step_alloc_take (s : FrameState) (hblock : 0 < block) (h : pmm_alloc_block s.st = take_block s.st block) :
    frame_step s .alloc = ⟨(take_block s.st block).2, block * PMM_BLOCK_SIZE :: s.held,
      block * PMM_BLOCK_SIZE :: s.obtained⟩ := by
  have hne : block * PMM_BLOCK_SIZE ≠ 0 := by
    simp only [PMM_BLOCK_SIZE]
    omega
  simp only [frame_step, h]
  exact if_neg hne

theorem frame_step_alloc_none (s : FrameState) (h : pmm_alloc_block s.st = (0, s.st)) : frame_step s .alloc = s := by
  simp only [frame_step, h, if_true]

theorem HintInv.step (h : HintInv st₀ s)
    (hend : ¬ Free st₀ (PMM_BLOCKS - 1) ∨ st₀.pmm_bitmap PMM_BITMAP_SIZE = 0xFF) {op : FrameOp} (hop : FreesHeld s op) :
    HintInv st₀ (frame_step s op) := by
  cases op with
  | alloc =>
    obtain ⟨block, hfirst, heq⟩ | ⟨-, heq⟩ := h.alloc_lowest (h.not_overruns hend)
    · have := hfirst.low_le
      rw [frame_step_alloc_take s (by omega) heq]
      exact h.take hfirst _
    · rwa [frame_step_alloc_none s heq]
  | free addr => exact h.release hop

end os_dev.pmm
