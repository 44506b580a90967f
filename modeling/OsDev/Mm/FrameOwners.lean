import OsDev.Mm.LowestFit

open little_endian bitmap fuel

namespace os_dev.pmm

variable {st st₀ : Pmm} {s : FrameState} {block : ℕ}

/-- The memory map reports a byte as available. -/
def Available (entries : List mmap_entry_t) (byte : ℕ) : Prop :=
  ∃ entry ∈ entries, entry.type = 1 ∧ entry.addr ≤ byte ∧ byte < entry.addr + entry.len

/-- A byte of the frame at `addr`. -/
def InFrame (addr byte : ℕ) : Prop := addr ≤ byte ∧ byte < addr + PMM_BLOCK_SIZE

/-- The frame at `addr` may be handed out: nobody holds it, all of it is available
    memory, and it meets neither page 0 nor the kernel nor a module. -/
structure ExclusiveFrame (kernel : KernelImage) (entries : List mmap_entry_t) (st : Pmm) (held : List ℕ)
    (addr : ℕ) : Prop where
  aligned : PMM_BLOCK_SIZE ∣ addr
  fresh : addr ∉ held
  available : ∀ byte, InFrame addr byte → Available entries byte
  page_zero : PMM_BLOCK_SIZE ≤ addr
  kernel_image : ∀ byte, InFrame addr byte → ¬ (kernel.kernel_start ≤ byte ∧ byte < kernel.kernel_end)
  initrd : st.initrd_brain_loaded = true → ∀ byte, InFrame addr byte →
    ¬ (st.initrd_brain_start ≤ byte ∧ byte < st.initrd_brain_end)
  ramdisk : st.ramdisk_loaded = true → ∀ byte, InFrame addr byte →
    ¬ (st.ramdisk_start ≤ byte ∧ byte < st.ramdisk_start + st.ramdisk_size)

/-- The frame of an unprotected block meets nothing that is protected. -/
theorem exclusive_frame {kernel : KernelImage} {entries : List mmap_entry_t} {held : List ℕ}
    (hblock : ¬ Protected kernel st block) (hfresh : block * PMM_BLOCK_SIZE ∉ held)
    (havailable : ∀ byte, InFrame (block * PMM_BLOCK_SIZE) byte → Available entries byte) :
    ExclusiveFrame kernel entries st held (block * PMM_BLOCK_SIZE) := by
  simp only [Protected, not_or] at hblock
  obtain ⟨hkernel, hzero, hinitrd, hramdisk⟩ := hblock
  refine ⟨Nat.dvd_mul_left _ _, hfresh, havailable, ?_, fun byte hin hbyte => ?_, fun hloaded byte hin hbyte => ?_,
    fun hloaded byte hin hbyte => ?_⟩
  · exact Nat.le_mul_of_pos_left _ (Nat.pos_of_ne_zero hzero)
  all_goals simp only [InFrame, PMM_BLOCK_SIZE] at hin hkernel hinitrd hramdisk
  · omega
  · refine hinitrd ⟨hloaded, ?_, ?_⟩ <;> omega
  · refine hramdisk ⟨hloaded, ?_, ?_⟩ <;> omega

/-- The last tracked page ends at the limit, below which the available memory ends. -/
theorem last_frame_not_available {entries : List mmap_entry_t} (hbelow : BelowLimit entries) :
    ¬ ∀ byte, InFrame ((PMM_BLOCKS - 1) * PMM_BLOCK_SIZE) byte → Available entries byte := by
  intro hall
  have hin : InFrame ((PMM_BLOCKS - 1) * PMM_BLOCK_SIZE) (2 ^ 34 - 1) := by
    simp only [InFrame, PMM_BLOCKS_eq, PMM_BLOCK_SIZE]
    omega
  obtain ⟨entry, hmem, htype, hlow, hhigh⟩ := hall _ hin
  have hend := hbelow entry hmem htype
  omega

variable {mem memory : Memory} {kernel : KernelImage} {magic mbd : ℕ} {entries : List mmap_entry_t}

/-- Every allocation of a run that frees only what it holds gives out an exclusive
    frame, exactly if every block from 256 on that the map entries make available, and
    that is not protected, lies in available memory as a whole. -/
theorem alloc_exclusive_iff (hmap : Returns (fun fuel => memory_map fuel mem magic mbd) entries)
    (hbelow : BelowLimit entries)
    (hinit : Returns (fun fuel => pmm_init fuel mem kernel magic mbd (static_pmm memory)) st) :
    (∀ ops addr st', Follows FreesHeld (.start st) ops →
      pmm_alloc_block (frame_run (.start st) ops).st = (addr, st') → addr ≠ 0 →
      ExclusiveFrame kernel entries st (frame_run (.start st) ops).held addr) ↔
    ∀ c, 256 ≤ c → Freed magic entries c → ¬ Protected kernel st c →
      ∀ byte, InFrame (c * PMM_BLOCK_SIZE) byte → Available entries byte := by
  have hN := PMM_BLOCKS_eq
  have hspec := pmm_init_initialised hmap hbelow hinit
  have hstart := HintInv.start hspec.hint
  constructor
  · intro hall c hlow hfreed hprotected
    obtain ⟨ops, hops, hinv, hfirst⟩ :=
      hstart.reach hlow (freed_lt hbelow hfreed) ((hspec.free c).mpr (.inl ⟨hfreed, hprotected⟩))
    have hne : c * PMM_BLOCK_SIZE ≠ 0 := by
      simp only [PMM_BLOCK_SIZE]
      omega
    exact (hall ops _ _ hops (hinv.alloc_first hfirst) hne).available
  · intro hwhole ops addr st' hops halloc hne
    have hend : ¬ Free st (PMM_BLOCKS - 1) := by
      intro hfree
      refine last_frame_not_available hbelow (hwhole _ (by omega) (hspec.free_last.mp hfree) fun hprotected => ?_)
      have := hspec.covers _ hprotected
      omega
    have hinv : HintInv st (frame_run (.start st) ops) :=
      Follows.preserved (fun _ _ hs hop => hs.step (.inl hend) hop) hstart hops
    obtain ⟨block, hfirst, heq⟩ | ⟨-, heq⟩ := hinv.alloc_lowest (hinv.not_overruns (.inl hend))
    · obtain ⟨rfl, rfl⟩ := Prod.mk.inj (halloc.symm.trans heq)
      have hfree := hinv.free block hfirst.clear
      obtain ⟨hfreed, hprotected⟩ | ⟨hge, -⟩ := (hspec.free block).mp hfree
      · refine exclusive_frame hprotected (fun hheld => ?_) (hwhole block hfirst.low_le hfreed hprotected)
        obtain ⟨c, hc, -, -, -, hnot⟩ := (hinv.held _).mp hheld
        rw [Nat.eq_of_mul_eq_mul_right (by decide) hc] at hfirst
        exact hnot hfirst.clear
      · have := hfirst.lt_high
        omega
    · rw [halloc] at heq
      exact absurd (Prod.mk.inj heq).1 hne

theorem alloc_exclusive_iff_edge :
    ∃ st, Returns (fun fuel => memory_map fuel edge_info MULTIBOOT1_MAGIC 0x9000) edge_entries ∧
      BelowLimit edge_entries ∧
      Returns (fun fuel => pmm_init fuel edge_info half_megabyte MULTIBOOT1_MAGIC 0x9000 (static_pmm fun _ => 0)) st ∧
      ((∀ ops addr st', Follows FreesHeld (.start st) ops →
        pmm_alloc_block (frame_run (.start st) ops).st = (addr, st') → addr ≠ 0 →
        ExclusiveFrame half_megabyte edge_entries st (frame_run (.start st) ops).held addr) ↔
      ∀ c, 256 ≤ c → Freed MULTIBOOT1_MAGIC edge_entries c → ¬ Protected half_megabyte st c →
        ∀ byte, InFrame (c * PMM_BLOCK_SIZE) byte → Available edge_entries byte) := by
  obtain ⟨st, hinit, -⟩ := edge_init
  exact ⟨st, edge_map, edge_below, hinit, alloc_exclusive_iff edge_map edge_below hinit⟩

/-- The first frame that this map gives out has a byte that is not available. -/
theorem edge_alloc_not_available :
    ∃ st addr st', Returns (fun fuel => memory_map fuel edge_info MULTIBOOT1_MAGIC 0x9000) edge_entries ∧
      BelowLimit edge_entries ∧
      Returns (fun fuel => pmm_init fuel edge_info half_megabyte MULTIBOOT1_MAGIC 0x9000 (static_pmm fun _ => 0)) st ∧
      pmm_alloc_block st = (addr, st') ∧ addr ≠ 0 ∧ ¬ ExclusiveFrame half_megabyte edge_entries st [] addr := by
  obtain ⟨st, hinit, -⟩ := edge_init
  have hspec := pmm_init_initialised edge_map edge_below hinit
  have halloc := (HintInv.start hspec.hint).alloc_first (edge_first hspec)
  refine ⟨st, _, _, edge_map, edge_below, hinit, halloc, ?_, fun h => last_frame_not_available edge_below h.available⟩
  simp only [PMM_BLOCKS_eq, PMM_BLOCK_SIZE]
  omega

end os_dev.pmm
