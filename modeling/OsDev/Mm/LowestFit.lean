import OsDev.Mm.FrameRuns

open little_endian bitmap fuel

namespace os_dev.pmm

variable {st st₀ : Pmm} {s : FrameState} {block : ℕ}

/-- What plain lowest-first fit answers: the lowest free block from 256 on, and 0
    exactly if there is none. -/
structure LowestFirst (st : Pmm) (addr : ℕ) : Prop where
  lowest : ∀ block, FirstClear st.pmm_bitmap 256 PMM_BLOCKS block → addr = block * PMM_BLOCK_SIZE
  null : addr = 0 ↔ ∀ c, 256 ≤ c → c < PMM_BLOCKS → ¬ Free st c

theorem HintInv.lowest_first (h : HintInv st₀ s) (hin : ¬ Overruns s.st) :
    LowestFirst s.st (pmm_alloc_block s.st).1 := by
  obtain ⟨block, hfirst, heq⟩ | ⟨hnone, heq⟩ := h.alloc_lowest hin
  · have hlow := hfirst.low_le
    rw [heq]
    refine ⟨fun block' hfirst' => ?_, iff_of_false ?_ fun hnone => ?_⟩
    · rw [hfirst.unique hfirst']
      rfl
    · simp only [take_block, PMM_BLOCK_SIZE]
      omega
    · exact hnone block hlow hfirst.lt_high hfirst.clear
  · rw [heq]
    exact ⟨fun block hfirst => absurd hfirst.clear (hnone block hfirst.low_le hfirst.lt_high), iff_of_true rfl hnone⟩

/-- A search that runs over the end hands out a block that is not tracked. -/
theorem Overruns.alloc (h : Overruns st) :
    ∃ block, PMM_BLOCKS ≤ block ∧ Free st block ∧ pmm_alloc_block st = take_block st block := by
  have hN := PMM_BLOCKS_eq
  obtain ⟨block, hfirst, -⟩ | ⟨-, ⟨block, hfirst, -⟩ | ⟨block, -, hlow, -, hfree, heq⟩ | ⟨-, hin, -⟩⟩ :=
    alloc_cases h.hint.le
  · have hlow := hfirst.low_le
    have hhigh := hfirst.lt_high
    rw [h.hint] at hlow
    omega
  · exact absurd hfirst.clear (h.full block hfirst.low_le hfirst.lt_high)
  · exact ⟨block, hlow, hfree, heq⟩
  · exact absurd h hin

theorem Overruns.not_lowest_first (h : Overruns st) : ¬ LowestFirst st (pmm_alloc_block st).1 := by
  have hN := PMM_BLOCKS_eq
  obtain ⟨block, hlow, -, heq⟩ := h.alloc
  intro hfirst
  have hzero := hfirst.null.mpr h.full
  rw [heq] at hzero
  simp only [take_block, PMM_BLOCK_SIZE] at hzero
  omega

theorem first_clear_not_overruns (hfirst : FirstClear st.pmm_bitmap 256 PMM_BLOCKS block) : ¬ Overruns st :=
  fun h => h.full block hfirst.low_le hfirst.lt_high hfirst.clear

/-- The first clear block is the one that the next allocation returns. -/
theorem HintInv.alloc_first (h : HintInv st₀ s) (hfirst : FirstClear s.st.pmm_bitmap 256 PMM_BLOCKS block) :
    pmm_alloc_block s.st = take_block s.st block := by
  obtain ⟨block', hfirst', heq⟩ | ⟨hnone, -⟩ := h.alloc_lowest (first_clear_not_overruns hfirst)
  · rw [hfirst.unique hfirst', heq]
  · exact absurd hfirst.clear (hnone block hfirst.low_le hfirst.lt_high)

theorem HintInv.step_first (h : HintInv st₀ s) (hfirst : FirstClear s.st.pmm_bitmap 256 PMM_BLOCKS block) :
    frame_step s .alloc = ⟨(take_block s.st block).2, block * PMM_BLOCK_SIZE :: s.held,
      block * PMM_BLOCK_SIZE :: s.obtained⟩ := by
  have hlow := hfirst.low_le
  exact frame_step_alloc_take s (by omega) (h.alloc_first hfirst)

/-- Allocations alone lead to the state in which a given free block comes next. -/
theorem HintInv.reach (h : HintInv st₀ s) {c : ℕ} (hlow : 256 ≤ c) (hhigh : c < PMM_BLOCKS) (hfree : Free s.st c) :
    ∃ ops, Follows FreesHeld s ops ∧ HintInv st₀ (frame_run s ops) ∧
      FirstClear (frame_run s ops).st.pmm_bitmap 256 PMM_BLOCKS c := by
  -- over the number of clear bits, one of which each allocation takes
  induction hcard : (clear_bits s.st.pmm_bitmap PMM_BLOCKS).card using Nat.strong_induction_on generalizing s with
  | _ card ih =>
    obtain ⟨block, hfirst, hle⟩ := exists_first_clear hlow hhigh hfree
    by_cases heq : block = c
    · exact ⟨[], trivial, h, heq ▸ hfirst⟩
    · have hstep := h.step_first hfirst
      have hfree' : Free (frame_step s .alloc).st c := by
        rw [hstep, free_take_block]
        exact ⟨fun hc => heq hc.symm, hfree⟩
      have hless : (clear_bits (frame_step s .alloc).st.pmm_bitmap PMM_BLOCKS).card < card := by
        have hbits : (take_block s.st block).2.pmm_bitmap = mark s.st.pmm_bitmap block := by
          simp only [take_block, pmm_set_bit]
          rw [if_neg hfirst.clear]
        rw [hstep, hbits, clear_bits_mark, ← hcard]
        exact Finset.card_erase_lt_of_mem (mem_clear_bits.mpr ⟨hfirst.lt_high, hfirst.clear⟩)
      have hinv : HintInv st₀ (frame_step s .alloc) := hstep ▸ h.take hfirst _
      obtain ⟨ops, hops, hinv', hfirst'⟩ := ih _ hless hinv hfree' rfl
      exact ⟨.alloc :: ops, ⟨trivial, hops⟩, hinv', hfirst'⟩

/-- Once the last tracked block is taken the next search runs over the end. -/
theorem HintInv.overruns_of_last (h : HintInv st₀ s)
    (hfirst : FirstClear s.st.pmm_bitmap 256 PMM_BLOCKS (PMM_BLOCKS - 1))
    (hbeyond : st₀.pmm_bitmap PMM_BITMAP_SIZE ≠ 0xFF) : Overruns (frame_step s .alloc).st := by
  have hN := PMM_BLOCKS_eq
  have hinv := h.take hfirst ((PMM_BLOCKS - 1) * PMM_BLOCK_SIZE :: s.obtained)
  rw [h.step_first hfirst]
  refine ⟨?_, fun c hlow hhigh => ?_, fun hfull => hbeyond (hinv.beyond.symm.trans hfull)⟩
  · simp only [take_block]
    omega
  · rw [free_take_block]
    rintro ⟨hne, hfree⟩
    exact hfree (hfirst.before c hlow (by omega))

variable {fuel : ℕ} {mem memory : Memory} {kernel : KernelImage} {magic mbd : ℕ} {entries : List mmap_entry_t}

theorem pmm_init_initialised (hmap : Returns (fun fuel => memory_map fuel mem magic mbd) entries)
    (hbelow : BelowLimit entries)
    (hinit : Returns (fun fuel => pmm_init fuel mem kernel magic mbd (static_pmm memory)) st) :
    Initialised kernel magic entries memory st := by
  obtain ⟨fuel, hmap, hinit⟩ := (hmap.and hinit).exists
  exact pmm_init_spec hmap hbelow hinit

/-- The last tracked block is never protected. -/
theorem Initialised.free_last (h : Initialised kernel magic entries memory st) :
    Free st (PMM_BLOCKS - 1) ↔ Freed magic entries (PMM_BLOCKS - 1) := by
  have hN := PMM_BLOCKS_eq
  rw [h.free]
  constructor
  · rintro (⟨hfreed, -⟩ | ⟨hle, -⟩)
    · exact hfreed
    · omega
  · intro hfreed
    refine .inl ⟨hfreed, fun hprotected => ?_⟩
    have := h.covers _ hprotected
    omega

theorem Initialised.beyond (h : Initialised kernel magic entries memory st) (hbelow : BelowLimit entries) :
    st.pmm_bitmap PMM_BITMAP_SIZE = 0xFF ↔ memory PMM_BITMAP_SIZE = 0xFF := by
  have hsize : PMM_BITMAP_SIZE * 8 = PMM_BLOCKS := rfl
  rw [byte_full_iff, byte_full_iff]
  refine forall₂_congr fun j hj => not_iff_not.mp ((h.free _).trans ?_)
  constructor
  · rintro (⟨hfreed, -⟩ | ⟨-, hclear⟩)
    · have := freed_lt hbelow hfreed
      omega
    · exact hclear
  · exact fun hclear => .inr ⟨by omega, hclear⟩

/-- A multiboot1 block at `0x9000` whose map has two available entries: the second
    page, and the last tracked page but for its last byte. -/
def edge_info : Memory := fun i =>
  ([(0x9000, 0x40), (0x902C, 48), (0x9031, 0x91), (0x9100, 20), (0x9105, 0x10), (0x910D, 0x10), (0x9114, 1),
    (0x9118, 20), (0x911D, 0xF0), (0x911E, 0xFF), (0x911F, 0xFF), (0x9120, 0x03), (0x9124, 0xFF), (0x9125, 0x0F),
    (0x912C, 1)].lookup i).getD 0

def edge_entries : List mmap_entry_t := [⟨0x1000, 0x1000, 1⟩, ⟨0x3FFFFF000, 0xFFF, 1⟩]

def half_megabyte : KernelImage := ⟨0x100000, 0x180000, by decide, by decide, by decide⟩

theorem edge_map : Returns (fun fuel => memory_map fuel edge_info MULTIBOOT1_MAGIC 0x9000) edge_entries :=
  (memory_map_stable edge_info MULTIBOOT1_MAGIC 0x9000).returns (n := 3) (by decide +kernel)

theorem edge_below : BelowLimit edge_entries := by
  intro entry hmem
  simp only [edge_entries, List.mem_cons, List.not_mem_nil, or_false] at hmem
  obtain rfl | rfl := hmem <;> decide

theorem edge_init : ∃ st, Returns (fun fuel => pmm_init fuel edge_info half_megabyte MULTIBOOT1_MAGIC 0x9000
    (static_pmm fun _ => 0)) st ∧ st.initrd_brain_loaded = false ∧ st.ramdisk_loaded = false := by
  have hloaded : (pmm_init 3 edge_info half_megabyte MULTIBOOT1_MAGIC 0x9000 (static_pmm fun _ => 0)).map
      (fun st => (st.initrd_brain_loaded, st.ramdisk_loaded)) = some (false, false) := by decide +kernel
  obtain ⟨st, hst, heq⟩ := Option.map_eq_some_iff.mp hloaded
  simp only [Prod.mk.injEq] at heq
  exact ⟨st, (pmm_init_stable edge_info half_megabyte MULTIBOOT1_MAGIC 0x9000 _).returns hst, heq⟩

/-- The last tracked block is the only free one from 256 on. -/
theorem edge_first {st : Pmm} (h : Initialised half_megabyte MULTIBOOT1_MAGIC edge_entries (fun _ => 0) st) :
    FirstClear st.pmm_bitmap 256 PMM_BLOCKS (PMM_BLOCKS - 1) := by
  have hN := PMM_BLOCKS_eq
  refine ⟨by omega, by omega, ?_, fun c hlow hlt => ?_⟩
  · refine h.free_last.mpr ⟨_, List.mem_cons_of_mem _ List.mem_cons_self, ?_⟩
    simp only [FreesBlock, if_true, MultibootFrees]
    decide
  · by_contra hclear
    obtain ⟨⟨entry, hmem, hfrees⟩, -⟩ | ⟨hge, -⟩ := (h.free c).mp hclear
    · simp only [FreesBlock, if_true, MultibootFrees, PMM_BLOCK_SIZE] at hfrees
      simp only [edge_entries, List.mem_cons, List.not_mem_nil, or_false] at hmem
      obtain rfl | rfl := hmem
      · simp only at hfrees
        omega
      · simp only at hfrees
        omega
    · omega

/-- The roving hint is lowest-first fit in every run exactly if the memory map does
    not reach into the last tracked block, or the byte behind the bitmap happens to be
    full. -/
theorem alloc_lowest_first_iff (hmap : Returns (fun fuel => memory_map fuel mem magic mbd) entries)
    (hbelow : BelowLimit entries)
    (hinit : Returns (fun fuel => pmm_init fuel mem kernel magic mbd (static_pmm memory)) st) :
    (∀ ops, Follows FreesHeld (.start st) ops →
      LowestFirst (frame_run (.start st) ops).st (pmm_alloc_block (frame_run (.start st) ops).st).1) ↔
    ¬ Freed magic entries (PMM_BLOCKS - 1) ∨ memory PMM_BITMAP_SIZE = 0xFF := by
  have hN := PMM_BLOCKS_eq
  have hspec := pmm_init_initialised hmap hbelow hinit
  have hstart := HintInv.start hspec.hint
  constructor
  · intro hall
    by_contra hnot
    obtain ⟨hfreed, hfull⟩ := not_or.mp hnot
    have hfree := hspec.free_last.mpr (not_not.mp hfreed)
    obtain ⟨ops, hops, hinv, hfirst⟩ := hstart.reach (by omega) (by omega) hfree
    have hover := hinv.overruns_of_last hfirst (fun hbyte => hfull ((hspec.beyond hbelow).mp hbyte))
    have hrun : frame_run (.start st) (ops ++ [.alloc]) = frame_step (frame_run (.start st) ops) .alloc := by
      simp only [frame_run, List.foldl_append, List.foldl_cons, List.foldl_nil]
    have hfollows : Follows FreesHeld (.start st) (ops ++ [.alloc]) := hops.append ⟨trivial, trivial⟩
    have hlowest := hall _ hfollows
    rw [hrun] at hlowest
    exact hover.not_lowest_first hlowest
  · intro hend ops hops
    rw [← hspec.free_last, ← hspec.beyond hbelow] at hend
    have hinv : HintInv st (frame_run (.start st) ops) :=
      Follows.preserved (fun _ _ hs hop => hs.step hend hop) hstart hops
    exact hinv.lowest_first (hinv.not_overruns hend)

theorem alloc_lowest_first_iff_edge :
    ∃ st, Returns (fun fuel => memory_map fuel edge_info MULTIBOOT1_MAGIC 0x9000) edge_entries ∧
      BelowLimit edge_entries ∧
      Returns (fun fuel => pmm_init fuel edge_info half_megabyte MULTIBOOT1_MAGIC 0x9000 (static_pmm fun _ => 0)) st ∧
      ((∀ ops, Follows FreesHeld (.start st) ops →
        LowestFirst (frame_run (.start st) ops).st (pmm_alloc_block (frame_run (.start st) ops).st).1) ↔
      ¬ Freed MULTIBOOT1_MAGIC edge_entries (PMM_BLOCKS - 1) ∨ (0 : UInt8) = 0xFF) := by
  obtain ⟨st, hinit, -⟩ := edge_init
  exact ⟨st, edge_map, edge_below, hinit, alloc_lowest_first_iff edge_map edge_below hinit⟩

theorem edge_overruns {st : Pmm} (h : Initialised half_megabyte MULTIBOOT1_MAGIC edge_entries (fun _ => 0) st) :
    Overruns (frame_step (.start st) .alloc).st :=
  (HintInv.start h.hint).overruns_of_last (edge_first h) fun hfull => absurd ((h.beyond edge_below).mp hfull) (by decide)

/-- After one allocation the frames of that map from 256 on are used up, and the next
    call returns an address all the same. -/
theorem edge_alloc_overruns :
    ∃ st, Returns (fun fuel => memory_map fuel edge_info MULTIBOOT1_MAGIC 0x9000) edge_entries ∧
      BelowLimit edge_entries ∧
      Returns (fun fuel => pmm_init fuel edge_info half_megabyte MULTIBOOT1_MAGIC 0x9000 (static_pmm fun _ => 0)) st ∧
      Follows FreesHeld (.start st) [.alloc] ∧
      ¬ LowestFirst (frame_run (.start st) [.alloc]).st (pmm_alloc_block (frame_run (.start st) [.alloc]).st).1 := by
  obtain ⟨st, hinit, -⟩ := edge_init
  have hover := edge_overruns (pmm_init_initialised edge_map edge_below hinit)
  exact ⟨st, edge_map, edge_below, hinit, ⟨trivial, trivial⟩, hover.not_lowest_first⟩

end os_dev.pmm
