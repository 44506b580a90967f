import OsDev.Mm.HeapBoot

open little_endian linked_tree fuel bitmap
open os_dev.pmm os_dev.vmm
open os_dev.heap (HEAP_START)

namespace os_dev.boot

variable {st : Pmm} {b : Vm Pmm} {root k j : ℕ}

/-- Free frames from 1 MB on that the boot tables map. -/
def low_frames (st : Pmm) : ℕ := (free_between st 256 (IDENTITY_LIMIT / 4096)).card

/-- All free frames from 1 MB on. -/
def all_frames (st : Pmm) : ℕ := (free_between st 256 PMM_BLOCKS).card

/-- Request number `j` comes while there are low frames, or when there are none at all. -/
def Supplied (st : Pmm) (j : ℕ) : Prop := j < low_frames st ∨ answer st j = 0

theorem answer_dvd (st : Pmm) (j : ℕ) : 4096 ∣ answer st j := by
  rw [answer]
  obtain heq | ⟨block, -, -, -, heq⟩ := alloc_block_cases (after st j)
  · rw [heq]
    exact Nat.dvd_zero _
  · rw [heq]
    exact Nat.dvd_mul_left 4096 block

theorem answerLow_iff {bound : ℕ} (h : Supply st (j + bound)) : AnswerLow st j ↔ Supplied st j := by
  have hlow := @Supply.answer_low_iff st bound (IDENTITY_LIMIT / 4096) (by decide) j h
  obtain ⟨block, hblock⟩ := answer_dvd st j
  have hlimit : 4096 * (IDENTITY_LIMIT / 4096) = IDENTITY_LIMIT := by decide
  rw [hlimit, hblock] at hlow
  unfold AnswerLow Supplied LowTable low_frames
  rw [← hlow, hblock]
  unfold IDENTITY_LIMIT
  omega

theorem PageLow.congr {low low' : ℕ → Prop} (hsame : ∀ j ≤ asked b root (k + 1), low j ↔ low' j) :
    PageLow b root low k ↔ PageLow b root low' k := by
  have hnext : asked b root (k + 1) = asked b root k + 1 + needs_pd b root k + needs_pt b root k := rfl
  constructor
  · exact fun h => ⟨h.existing, fun hneed => (hsame _ (by omega)).mp (h.directory hneed),
      fun hneed => (hsame _ (by omega)).mp (h.table hneed)⟩
  · exact fun h => ⟨h.existing, fun hneed => (hsame _ (by omega)).mpr (h.directory hneed),
      fun hneed => (hsame _ (by omega)).mpr (h.table hneed)⟩

variable {fuel : ℕ} {mem memory : Memory} {kernel : KernelImage} {space : TableSpace} {apic_phys magic mbd : ℕ}

/-- The tables of the heap are low exactly if those of every page are. -/
theorem heap_tables_low_iff (hin : TablesInKernel kernel space) (hroot : space.pml4_table = 4096 * root)
    (hapic : apic_phys < 2 ^ 32) (h : before_heap fuel mem memory kernel space apic_phys magic mbd = some b) :
    (∀ t ∈ heap_tables space.pml4_table (heap_pages b.frames) HEAP_START b, LowTable t) ↔
      ∀ k < heap_pages b.frames, answer b.frames (asked b root k) ≠ 0 → PageLow b root (Supplied b.frames) k := by
  obtain ⟨hspace, hsupply, htotal⟩ := boot_space hin hroot hapic h
  have hpages := heap_pages_lt htotal
  have hall := (Mapped.start hspace.owned).heap_tables_low_iff hspace (n := heap_pages b.frames) (by omega)
  rw [hroot]
  refine hall.trans ?_
  simp only [Nat.zero_le, true_implies, Nat.zero_add]
  refine forall₂_congr fun k hk => imp_congr_right fun _ => PageLow.congr fun j hj => ?_
  have hle := asked_le b root (k + 1)
  obtain ⟨bound, hbound⟩ := Nat.exists_eq_add_of_le (show j ≤ 3 * PAGE_LIMIT by omega)
  rw [hbound] at hsupply
  exact answerLow_iff hsupply

/-- Every table that `vmm_map_page` uses while `kmalloc_init` maps the heap lies in the
    identity-mapped 4 GB exactly if, for each page that gets a frame, the tables that are
    on its way already do, and those that have to be created are asked for while there
    are low frames or when no frame is left. As long as the search for frames stays in
    the bitmap, no frame is left when all free ones have been used. -/
theorem kmalloc_init_tables_low_iff (hin : TablesInKernel kernel space) (hapic : apic_phys < 2 ^ 32)
    (h : before_heap fuel mem memory kernel space apic_phys magic mbd = some b) :
    ((∀ t ∈ heap_tables space.pml4_table (heap_pages b.frames) HEAP_START b, LowTable t) ↔
      ∀ k < heap_pages b.frames, answer b.frames (asked b (space.pml4_table / 4096) k) ≠ 0 →
        PageLow b (space.pml4_table / 4096) (Supplied b.frames) k) ∧
    (Contained b.frames → ∀ j < 3 * PAGE_LIMIT, answer b.frames j = 0 ↔ all_frames b.frames ≤ j) := by
  have hroot : space.pml4_table = 4096 * (space.pml4_table / 4096) := (Nat.mul_div_cancel' space.aligned).symm
  refine ⟨heap_tables_low_iff hin hroot hapic h, fun hcontained j hj => ?_⟩
  obtain ⟨-, hsupply, -⟩ := boot_space hin hroot hapic h
  obtain ⟨bound, hbound⟩ := Nat.exists_eq_add_of_le hj.le
  rw [hbound] at hsupply
  exact hcontained.answer_zero_iff j hsupply

/-- A multiboot2 block at `0x9000` for a machine with 12.5 GB: the memory from 1 MB to
    3 GB and 9.5 GB from 4 GB on. -/
def large_info : Memory := fun i =>
  ([(0x9000, 80), (0x9008, 6), (0x900C, 64), (0x9010, 24), (0x901A, 0x10), (0x9022, 0xF0), (0x9023, 0xBF), (0x9028, 1),
    (0x9034, 1), (0x903B, 0x60), (0x903C, 0x02), (0x9040, 1), (0x904C, 8)].lookup i).getD 0

def large_entries : List mmap_entry_t := [⟨0x100000, 0xBFF00000, 1⟩, ⟨0x100000000, 0x260000000, 1⟩]

/-- Page tables in the image of `half_megabyte`. -/
def large_tables : TableSpace := ⟨4096 * 300, by decide, by decide⟩

theorem large_in : TablesInKernel half_megabyte large_tables := ⟨by decide, by decide⟩

/-- The boot information at `0x9000` has one tag, a memory map of these entries. -/
structure TellsMap (info : Memory) (entries : List mmap_entry_t) : Prop where
  tags : multiboot2_tags 2 info 0x9000 = some [0x9008]
  type : le32 info 0x9008 = 6
  entries : multiboot2_tag_entries info 0x9008 = some entries

/-- Setting up the page tables does not touch the boot information. -/
theorem boot_tables_words (info : Memory) {a : ℕ} (ha : a + 4 ≤ 4096 * 300) :
    le32 (boot_tables info (4096 * 300)) a = le32 info a :=
  le32_congr fun k hk => boot_tables_below info (by omega)

theorem boot_tables_entry_at (info : Memory) {a : ℕ} (ha : a + 20 ≤ 4096 * 300) :
    multiboot2_entry_at (boot_tables info (4096 * 300)) a = multiboot2_entry_at info a := by
  simp only [multiboot2_entry_at, le64]
  rw [boot_tables_words info (by omega), boot_tables_words info (by omega), boot_tables_words info (by omega),
    boot_tables_words info (by omega), boot_tables_words info (by omega)]

/-- A block at `0x9000` with one tag, a map of `n` entries, and the end tag behind it. -/
theorem tells_of_words {info : Memory} {entries : List mmap_entry_t} {n : ℕ} (hn : n < 1000)
    (hsize : le32 info 0x9000 = 32 + 24 * n) (htype : le32 info 0x9008 = 6) (hlen : le32 info 0x900C = 16 + 24 * n)
    (hstep : le32 info 0x9010 = 24) (hend : le32 info (0x9018 + 24 * n) = 0)
    (hentries : (List.range n).map (fun i => multiboot2_entry_at info (0x9018 + i * 24)) = entries) :
    TellsMap (boot_tables info (4096 * 300)) entries := by
  have htype' : le32 (boot_tables info (4096 * 300)) 0x9008 = 6 := (boot_tables_words info (by decide)).trans htype
  have hlen' : le32 (boot_tables info (4096 * 300)) (0x9008 + 4) = 16 + 24 * n :=
    (boot_tables_words info (by decide)).trans hlen
  refine ⟨?_, htype', ?_⟩
  · have hnext : (8 + (16 + 24 * n + 7) % 2 ^ 32 / 8 * 8) % 2 ^ 32 = 24 + 24 * n := by omega
    have hstop : le32 (boot_tables info (4096 * 300)) (0x9000 + (24 + 24 * n)) = 0 := by
      rw [boot_tables_words info (by omega), ← hend]
      congr 1
      omega
    simp only [multiboot2_tags, loop, boot_tables_words info (show 0x9000 + 4 ≤ 4096 * 300 by decide), hsize,
      show 0x9000 + 8 = 0x9008 from rfl, htype', hlen', hnext, hstop]
    rw [if_pos ⟨by omega, by decide⟩]
    simp
  · have hlength : (16 + 24 * n + 2 ^ 64 - 16) % 2 ^ 64 = 24 * n := by omega
    have hcount : 24 * n / 24 % 2 ^ 32 = n := by omega
    simp only [multiboot2_tag_entries, hlen', hlength, hcount,
      boot_tables_words info (show 0x9008 + 8 + 4 ≤ 4096 * 300 by decide), hstep]
    rw [if_neg (by decide), ← hentries]
    refine congrArg some (List.map_congr_left fun i hi => ?_)
    have hi := List.mem_range.mp hi
    exact boot_tables_entry_at info (by omega)
theorem large_tells : TellsMap (boot_tables large_info (4096 * 300)) large_entries :=
  tells_of_words (n := 2) (by decide) (by decide) (by decide) (by decide) (by decide) (by decide) (by decide +kernel)

theorem TellsMap.map {info : Memory} {entries : List mmap_entry_t} (h : TellsMap info entries) :
    memory_map 2 info MULTIBOOT2_MAGIC 0x9000 = some entries := by
  rw [memory_map, if_neg (by decide), if_pos rfl, h.tags]
  simp [h.type, h.entries]

theorem large_below : BelowLimit large_entries := by
  intro entry hmem
  simp only [large_entries, List.mem_cons, List.not_mem_nil, or_false] at hmem
  obtain rfl | rfl := hmem <;> decide

/-- The boot loader reports no framebuffer and no module. -/
structure Bare (st : Pmm) : Prop where
  fb : st.fb = none
  initrd : st.initrd_brain_loaded = false
  ramdisk : st.ramdisk_loaded = false

theorem Bare.of_same {st' : Pmm} (h : Bare st) (hfb : st'.fb = st.fb) (hinitrd : st'.initrd_brain_loaded = st.initrd_brain_loaded)
    (hramdisk : st'.ramdisk_loaded = st.ramdisk_loaded) : Bare st' :=
  ⟨hfb.trans h.fb, hinitrd.trans h.initrd, hramdisk.trans h.ramdisk⟩

theorem Bare.set_bit (h : Bare st) (block : ℕ) : Bare (pmm_set_bit st block) := by
  unfold pmm_set_bit
  split
  · exact h
  · exact h.of_same rfl rfl rfl

theorem Bare.clear_bit (h : Bare st) (block : ℕ) : Bare (pmm_clear_bit st block) := by
  unfold pmm_clear_bit
  split
  · exact h.of_same rfl rfl rfl
  · exact h

theorem Bare.set_range (h : Bare st) (first last : ℕ) : Bare (set_range st first last) := by
  unfold pmm.set_range
  induction List.range' first (last + 1 - first) generalizing st with
  | nil => exact h
  | cons block blocks ih => exact ih (h.set_bit block)

theorem Bare.free_entries (h : Bare st) (entries : List mmap_entry_t) : Bare (entries.foldl multiboot2_free_entry st) := by
  induction entries generalizing st with
  | nil => exact h
  | cons entry entries ih => exact ih (multiboot2_free_entry_preserves (fun _ block _ h => h.clear_bit block) entry h)

theorem Bare.protect (h : Bare st) (kernel : KernelImage) : Bare (protect kernel st) := by
  have hfirst := (h.set_range (kernel.kernel_start / PMM_BLOCK_SIZE) (kernel.kernel_end / PMM_BLOCK_SIZE)).set_bit 0
  simp only [pmm.protect, hfirst.initrd, hfirst.ramdisk, Bool.false_eq_true, if_false]
  exact hfirst

theorem Bare.pmm_init {st₁ : Pmm} (h : Bare st₁) (hread : read_boot_info fuel mem magic mbd (reserve_all st) = some st₁) :
    ∃ st', pmm_init fuel mem kernel magic mbd st = some st' ∧ Bare st' := by
  refine ⟨_, by rw [pmm.pmm_init, hread]; rfl, Bare.protect (h.of_same ?_ ?_ ?_) kernel⟩ <;> rfl

theorem Bare.init_pages_eq (h : Bare st) : init_pages st = identity_pages 0 (16 * 1024 * 1024) := by
  simp only [init_pages, framebuffer_pages, ramdisk_pages, h.fb, h.ramdisk, Bool.false_eq_true, false_and, if_false,
    List.nil_append]

theorem Bare.calls_length (h : Bare st) : (device_pages 0xFEE00000 ++ init_pages st).length = 4098 := by
  rw [List.length_append, h.init_pages_eq, identity_pages, List.length_map, List.length_range]
  rfl

theorem TellsMap.init {info : Memory} {entries : List mmap_entry_t} (h : TellsMap info entries) :
    ∃ st, pmm_init 2 info half_megabyte MULTIBOOT2_MAGIC 0x9000 (static_pmm memory) = some st ∧ Bare st := by
  have hread : read_boot_info 2 info MULTIBOOT2_MAGIC 0x9000 (reserve_all (static_pmm memory)) =
      some (entries.foldl multiboot2_free_entry (reserve_all (static_pmm memory))) := by
    rw [read_boot_info, if_neg (by decide), if_pos rfl, multiboot2_init, h.tags]
    simp [multiboot2_tag, h.type, h.entries]
  have hstart : Bare (reserve_all (static_pmm memory)) := ⟨rfl, rfl, rfl⟩
  exact (hstart.free_entries entries).pmm_init hread

theorem TellsMap.before_heap {info : Memory} {entries : List mmap_entry_t} (h : TellsMap (boot_tables info (4096 * 300)) entries) :
    ∃ b, before_heap 2 info (fun _ => 0) half_megabyte large_tables 0xFEE00000 MULTIBOOT2_MAGIC 0x9000 = some b := by
  obtain ⟨st, hst, -⟩ := @TellsMap.init (fun _ => 0) _ _ h
  exact ⟨_, Option.bind_eq_some_iff.mpr ⟨st, hst, rfl⟩⟩

theorem large_boot : ∃ b, before_heap 2 large_info (fun _ => 0) half_megabyte large_tables 0xFEE00000 MULTIBOOT2_MAGIC 0x9000 =
    some b := large_tells.before_heap

theorem large_freed {c : ℕ} : Freed MULTIBOOT2_MAGIC large_entries c ↔ 256 ≤ c ∧ c < 786432 ∨ 1048576 ≤ c ∧ c < 3538944 := by
  have hmagic : MULTIBOOT2_MAGIC ≠ MULTIBOOT1_MAGIC := by decide
  simp only [Freed, large_entries, List.mem_cons, List.not_mem_nil, or_false, exists_eq_or_imp, exists_eq_left, FreesBlock,
    if_neg hmagic, Multiboot2Frees, PMM_BLOCK_SIZE, true_and]
  omega

/-- The allocator of the large machine when the heap is set up: less than 3 GB of low
    frames, and all of the high ones but for a few. -/
structure LargeHeap (b : Vm Pmm) : Prop where
  low : low_frames b.frames ≤ 786176
  answers : ∀ i ≤ 2400000, answer b.frames i ≠ 0
  pages : 786432 < heap_pages b.frames
  missing : follow (child (entries b.mem)) 300 (upper (page_va 786432) 2) = none

theorem large_high_frames {memory : Memory} (hbare : Bare st)
    (h : Initialised half_megabyte MULTIBOOT2_MAGIC large_entries memory st) : 2490368 ≤ all_frames st := by
  have hN := PMM_BLOCKS_eq
  have hsub : Finset.Ico 1048576 3538944 ⊆ free_between st 256 PMM_BLOCKS := by
    intro c hc
    rw [Finset.mem_Ico] at hc
    refine mem_free_between.mpr ⟨by omega, by omega, (h.free c).mpr (.inl ⟨large_freed.mpr (.inr hc), ?_⟩)⟩
    rintro (⟨-, hend⟩ | rfl | ⟨hloaded, -⟩ | ⟨hloaded, -⟩)
    · have hkernel : half_megabyte.kernel_end / PMM_BLOCK_SIZE = 384 := by decide
      omega
    · omega
    · rw [hbare.initrd] at hloaded
      cases hloaded
    · rw [hbare.ramdisk] at hloaded
      cases hloaded
  have hcard := Finset.card_le_card hsub
  rwa [Nat.card_Ico] at hcard

theorem large_low_frames {memory : Memory} (h : Initialised half_megabyte MULTIBOOT2_MAGIC large_entries memory st) :
    low_frames st ≤ 786176 := by
  have hN := PMM_BLOCKS_eq
  have hlimit : IDENTITY_LIMIT / 4096 = 1048576 := by decide
  have hsub : free_between st 256 (IDENTITY_LIMIT / 4096) ⊆ Finset.Ico 256 786432 := by
    intro c hc
    obtain ⟨hlow, hlt, hfree⟩ := mem_free_between.mp hc
    obtain ⟨hfreed, -⟩ | ⟨hge, -⟩ := (h.free c).mp hfree
    · have := large_freed.mp hfreed
      rw [Finset.mem_Ico]
      omega
    · omega
  have hcard := Finset.card_le_card hsub
  rwa [Nat.card_Ico] at hcard

theorem large_total {memory : Memory} (h : Initialised half_megabyte MULTIBOOT2_MAGIC large_entries memory st) :
    3276544 * 4 ≤ st.total_memory_kb := by
  obtain ⟨ram, hram, htotal⟩ := h.total
  have hsub : Finset.Ico 256 786432 ∪ Finset.Ico 1048576 3538944 ⊆ ram := by
    intro c hc
    rw [Finset.mem_union, Finset.mem_Ico, Finset.mem_Ico] at hc
    exact (hram c).mpr (large_freed.mpr hc)
  have hdisjoint : Disjoint (Finset.Ico 256 786432) (Finset.Ico 1048576 3538944) := by
    rw [Finset.disjoint_left]
    intro c hc hc'
    rw [Finset.mem_Ico] at hc hc'
    omega
  have hcard := Finset.card_le_card hsub
  rw [Finset.card_union_of_disjoint hdisjoint, Nat.card_Ico, Nat.card_Ico] at hcard
  omega

/-- No call before the heap goes to a page directory between the first 4 GB and the APICs' pages. -/
theorem Bare.missing_directory {st : Pmm} (hbare : Bare st) {k : Fin 512} (hk : 4 ≤ k.val ∧ k.val < 32)
    (h : Extends 300 ((device_pages 0xFEE00000 ++ init_pages st).map Prod.fst) ⟨boot_tables mem (4096 * 300), st⟩ b) :
    follow (child (entries b.mem)) 300 [0, k] = none := by
  have hindex : ∀ va ∈ (device_pages 0xFEE00000 ++ init_pages st).map Prod.fst, index 2 va ≠ k := by
    intro va hva
    simp only [hbare.init_pages_eq, List.map_append, List.mem_append, device_pages, List.map_cons, List.map_nil, List.mem_cons,
      List.not_mem_nil, or_false] at hva
    have hout : ∀ va, (index 2 va).val < 4 ∨ (index 2 va).val = 32 → index 2 va ≠ k := by
      rintro va hindex rfl
      omega
    apply hout
    obtain (rfl | rfl) | hva := hva
    · decide
    · decide
    · simp only [identity_pages, List.map_map, List.mem_map, List.mem_range, Function.comp_apply] at hva
      obtain ⟨i, hi, rfl⟩ := hva
      simp only [index]
      omega
  rw [h.others [0, k] (Nat.le_succ 2) fun va hva m hm => ?_]
  · refine Option.eq_none_iff_forall_ne_some.mpr fun t ht => ?_
    obtain ⟨hp, -⟩ | ⟨hp, -⟩ | ⟨i, hi, hp, -⟩ := boot_follow mem (by decide) ht
    · cases hp
    · cases hp
    · simp only [List.cons.injEq, and_true, true_and] at hp
      rw [← hp] at hi
      omega
  · intro heq
    have hlen := congrArg List.length heq
    rw [upper_length] at hlen
    obtain rfl : 2 = m := hlen
    simp only [upper, List.nil_append, List.cons_append, List.cons.injEq, and_true] at heq
    exact hindex va hva heq.2.symm

/-- The large machine asks for a heap of more than 4 GB. -/
theorem large_heap_size (h : before_heap 2 large_info (fun _ => 0) half_megabyte large_tables 0xFEE00000 MULTIBOOT2_MAGIC
    0x9000 = some b) : 2 ^ 32 < heap_size b.frames := by
  obtain ⟨st, hst, hbooted⟩ := @before_heap_booted b 300 _ _ _ _ _ _ _ _ large_in rfl (by decide) h
  have htotal := large_total (pmm_init_spec (large_tells.map) large_below hst)
  obtain ⟨j, -, hframes⟩ := hbooted.frames
  rw [← (after_reported st j).1, ← hframes] at htotal
  unfold heap_size pmm_get_total_memory_kb HEAP_START
  dsimp only
  split <;> omega

theorem large_heap (h : before_heap 2 large_info (fun _ => 0) half_megabyte large_tables 0xFEE00000 MULTIBOOT2_MAGIC 0x9000 =
    some b) : LargeHeap b := by
  have hN := PMM_BLOCKS_eq
  obtain ⟨st, hst, hbooted⟩ := @before_heap_booted b 300 _ _ _ _ _ _ _ _ large_in rfl (by decide) h
  obtain ⟨st', hst', hbare⟩ := @TellsMap.init (fun _ => 0) _ _ large_tells
  obtain rfl := Option.some.inj (hst.symm.trans hst')
  have hspec := pmm_init_spec (large_tells.map) large_below hst
  obtain ⟨j, hj, hframes⟩ := hbooted.frames
  rw [hbare.calls_length] at hj
  have hbudget := hbooted.started.budget 300 (fun _ => 0)
  have hupper : upper (page_va 786432) 2 = [0, 11] := by decide
  refine ⟨?_, fun i hi => ?_, ?_, hupper ▸ hbare.missing_directory (by decide) hbooted.run⟩
  · refine le_trans ?_ (large_low_frames hspec)
    rw [hframes]
    refine Finset.card_le_card fun c hc => ?_
    obtain ⟨hlow, hlt, hfree⟩ := mem_free_between.mp hc
    exact mem_free_between.mpr ⟨hlow, hlt, after_free_mono st hfree⟩
  · have hsupply : Supply st (j + i + 0) := hbudget.supply (by omega)
    have hhigh := large_high_frames hbare hspec
    rw [hframes, answer_after]
    exact ((Supply.answer_low_iff le_rfl (j + i) hsupply).mpr (by unfold all_frames at hhigh; omega)).2
  · have hsize := large_heap_size h
    unfold heap_pages
    omega

theorem kmalloc_init_tables_low_iff_large :
    ∃ b, before_heap 2 large_info (fun _ => 0) half_megabyte large_tables 0xFEE00000 MULTIBOOT2_MAGIC 0x9000 = some b ∧
      ((∀ t ∈ heap_tables large_tables.pml4_table (heap_pages b.frames) HEAP_START b, LowTable t) ↔
        ∀ k < heap_pages b.frames, answer b.frames (asked b (large_tables.pml4_table / 4096) k) ≠ 0 →
          PageLow b (large_tables.pml4_table / 4096) (Supplied b.frames) k) := by
  obtain ⟨b, hb⟩ := large_boot
  exact ⟨b, hb, (kmalloc_init_tables_low_iff large_in (by decide) hb).1⟩

/-- With 3 GB of low memory and 9.5 GB above, the page directory of the heap's fourth
    gigabyte is a frame above 4 GB. -/
theorem large_heap_table_high :
    ∃ b, before_heap 2 large_info (fun _ => 0) half_megabyte large_tables 0xFEE00000 MULTIBOOT2_MAGIC 0x9000 = some b ∧
      ¬ ∀ t ∈ heap_tables large_tables.pml4_table (heap_pages b.frames) HEAP_START b, LowTable t := by
  obtain ⟨b, hb⟩ := large_boot
  have hlarge := large_heap hb
  refine ⟨b, hb, fun hlow => ?_⟩
  have hle := asked_le b 300 786432
  have hge : ∀ k, k ≤ asked b 300 k := by
    intro k
    induction k with
    | zero => exact le_rfl
    | succ k ih =>
      rw [asked]
      omega
  have hpage := (@heap_tables_low_iff b 300 _ _ _ _ _ _ _ _ large_in rfl (by decide) hb).mp hlow 786432 hlarge.pages
    (hlarge.answers _ (by omega))
  have hneeds : needs_pd b 300 786432 = 1 := by
    rw [needs_pd, if_pos (by decide)]
    exact missing_eq_one.mpr hlarge.missing
  obtain hlt | hzero := hpage.directory hneeds
  · have := hlarge.low
    have := hge 786432
    omega
  · exact hlarge.answers _ (by omega) hzero

end os_dev.boot
