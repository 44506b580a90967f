import OsDev.Mm.HeapTables

open little_endian linked_tree fuel bitmap
open os_dev.pmm os_dev.vmm
open os_dev.heap (HEAP_START)

namespace os_dev.boot

variable {st st' : Pmm} {b : Vm Pmm} {root : ℕ}

/-- A state with fewer free blocks and the same hint and total. -/
structure Shrinks (st st' : Pmm) : Prop where
  free : ∀ c, Free st' c → Free st c
  hint : st'.last_free_bit = st.last_free_bit
  total : st'.total_memory_kb = st.total_memory_kb

theorem Shrinks.refl (st : Pmm) : Shrinks st st := ⟨fun _ h => h, rfl, rfl⟩

theorem Shrinks.trans {st'' : Pmm} (h : Shrinks st st') (h' : Shrinks st' st'') : Shrinks st st'' :=
  ⟨fun c hc => h.free c (h'.free c hc), h'.hint.trans h.hint, h'.total.trans h.total⟩

theorem Shrinks.set_bit (st : Pmm) (block : ℕ) : Shrinks st (pmm_set_bit st block) :=
  ⟨fun c hc => ((free_set_bit st block c).mp hc).2, set_bit_last st block, set_bit_total st block⟩

theorem Shrinks.set_range (st : Pmm) (first last : ℕ) : Shrinks st (set_range st first last) := by
  unfold pmm.set_range
  induction List.range' first (last + 1 - first) generalizing st with
  | nil => exact .refl st
  | cons block blocks ih => exact (Shrinks.set_bit st block).trans (ih _)

/-- What `pmm_init` leaves behind on any memory map. -/
structure Started (kernel : KernelImage) (st : Pmm) : Prop where
  hint : st.last_free_bit = 256
  total : st.total_memory_kb ≤ 4 * PMM_BLOCKS
  kernel : ∀ c, kernel.kernel_start / PMM_BLOCK_SIZE ≤ c → c ≤ kernel.kernel_end / PMM_BLOCK_SIZE → ¬ Free st c

theorem pmm_init_started {fuel : ℕ} {mem memory : Memory} {kernel : KernelImage} {magic mbd : ℕ}
    (h : pmm_init fuel mem kernel magic mbd (static_pmm memory) = some st) : Started kernel st := by
  have hN := PMM_BLOCKS_eq
  obtain ⟨st₁, hread, heq⟩ := Option.bind_eq_some_iff.mp h
  obtain rfl := Option.some.inj heq
  obtain ⟨hcounted, hhint⟩ : Counted st₁ ∧ st₁.last_free_bit = 256 := by
    refine read_boot_info_preserves (I := fun st => Counted st ∧ st.last_free_bit = 256) ?_ ?_ hread
      ⟨counted_reserve_all _, rfl⟩
    · exact fun st block hblock hst => ⟨hst.1.clear_bit hblock, (clear_bit_last st block).trans hst.2⟩
    · intro st st' hbits hfree hlast hst
      refine ⟨?_, hlast.trans hst.2⟩
      rw [Counted, hbits, hfree]
      exact hst.1
  have hle := hcounted.le
  have hkernel := kernel.end_lt
  have htotal : st₁.free_blocks * 4 % 2 ^ 32 = st₁.free_blocks * 4 := Nat.mod_eq_of_lt (by omega)
  rw [htotal]
  -- the kernel comes first, and the rest of the protection frees nothing
  have hfirst := Reserves.set_range { st₁ with total_memory_kb := st₁.free_blocks * 4 }
    (kernel.kernel_start / PMM_BLOCK_SIZE) (show kernel.kernel_end / PMM_BLOCK_SIZE < PMM_BLOCKS by
      simp only [PMM_BLOCK_SIZE]; omega)
  have hrest : Shrinks (set_range { st₁ with total_memory_kb := st₁.free_blocks * 4 }
      (kernel.kernel_start / PMM_BLOCK_SIZE) (kernel.kernel_end / PMM_BLOCK_SIZE))
      (protect kernel { st₁ with total_memory_kb := st₁.free_blocks * 4 }) := by
    have hite : ∀ (p : Prop) [Decidable p] (st : Pmm) (first last : ℕ),
        Shrinks st (if p then set_range st first last else st) := by
      intro p _ st first last
      split
      · exact .set_range st first last
      · exact .refl st
    simp only [protect]
    exact ((Shrinks.set_bit _ 0).trans (hite _ _ _ _)).trans (hite _ _ _ _)
  refine ⟨hrest.hint.trans (hfirst.hint.trans hhint), ?_, fun c hlow hhigh hfree => ?_⟩
  · rw [hrest.total, hfirst.total]
    simp only
    omega
  · exact ((hfirst.free c).mp (hrest.free c hfree)).2 ⟨hlow, hhigh⟩

/-- The boot tables lie in the `.bss` section of the kernel image. -/
structure TablesInKernel (kernel : KernelImage) (space : TableSpace) : Prop where
  low : kernel.kernel_start ≤ space.pml4_table
  high : space.pml4_table + 6 * 4096 ≤ kernel.kernel_end

theorem boot_owned {kernel : KernelImage} {space : TableSpace} (hin : TablesInKernel kernel space)
    (hroot : space.pml4_table = 4096 * root) (hst : Started kernel st) (mem : Memory) :
    Owned root ⟨boot_tables mem (4096 * root), st⟩ := by
  have hbelow := space.below
  have hlow := hin.low
  have hhigh := hin.high
  rw [hroot] at hbelow hlow hhigh
  have hbound : root + 6 ≤ 2 ^ 20 := by omega
  refine ⟨boot_tree mem hbound, fun p t _ ht => ?_, ?_⟩
  · have ht : root ≤ t ∧ t < root + 6 := by
      obtain ⟨-, rfl⟩ | ⟨-, rfl⟩ | ⟨k, hk, -, rfl⟩ := boot_follow mem hbound ht <;> omega
    refine hst.kernel t ?_ ?_ <;>
    · simp only [PMM_BLOCK_SIZE]
      omega
  · simp only [hst.hint]
    decide

/-- An allocation leaves the total and what the boot loader reported as they are. -/
theorem alloc_reported (st : Pmm) :
    (pmm_alloc_block st).2.total_memory_kb = st.total_memory_kb ∧ init_pages (pmm_alloc_block st).2 = init_pages st := by
  have hset : ∀ block, init_pages (pmm_set_bit st block) = init_pages st := by
    intro block
    unfold pmm_set_bit
    split <;> rfl
  obtain heq | ⟨block, -, -, -, heq⟩ := alloc_block_cases st
  · rw [heq]
    exact ⟨rfl, rfl⟩
  · rw [heq]
    exact ⟨set_bit_total st block, hset block⟩

theorem after_reported (st : Pmm) (j : ℕ) :
    (after st j).total_memory_kb = st.total_memory_kb ∧ init_pages (after st j) = init_pages st := by
  induction j with
  | zero => exact ⟨rfl, rfl⟩
  | succ j ih =>
    obtain ⟨htotal, hpages⟩ := alloc_reported (after st j)
    exact ⟨htotal.trans ih.1, hpages.trans ih.2⟩

theorem identity_pages_lt {start size : ℕ} {call : ℕ × ℕ} (h : call ∈ identity_pages start size) : call.2 < 2 ^ 64 := by
  obtain ⟨i, -, rfl⟩ := List.mem_map.mp h
  exact Nat.mod_lt _ (by decide)

theorem init_pages_lt {call : ℕ × ℕ} (h : call ∈ init_pages st) : call.2 < 2 ^ 64 := by
  simp only [init_pages, List.mem_append] at h
  obtain (h | h) | h := h
  · unfold framebuffer_pages at h
    split at h
    · cases h
    · split at h
      · cases h
      · exact identity_pages_lt h
  · unfold ramdisk_pages at h
    split at h
    · exact identity_pages_lt h
    · cases h
  · exact identity_pages_lt h

/-- How `kmain` gets to the heap: `pmm_init` and a number of calls of `vmm_map_page`. -/
structure Booted (kernel : KernelImage) (root : ℕ) (mem : Memory) (calls : List (ℕ × ℕ)) (st : Pmm) (b : Vm Pmm) : Prop where
  started : Started kernel st
  run : Extends root (calls.map Prod.fst) ⟨boot_tables mem (4096 * root), st⟩ b
  frames : ∃ j ≤ 3 * calls.length, b.frames = after st j

theorem before_heap_booted {fuel : ℕ} {mem memory : Memory} {kernel : KernelImage} {space : TableSpace}
    {apic_phys magic mbd : ℕ} (hin : TablesInKernel kernel space) (hroot : space.pml4_table = 4096 * root)
    (hapic : apic_phys < 2 ^ 32) (h : before_heap fuel mem memory kernel space apic_phys magic mbd = some b) :
    ∃ st, pmm_init fuel (boot_tables mem (4096 * root)) kernel magic mbd (static_pmm memory) = some st ∧
      Booted kernel root mem (device_pages apic_phys ++ init_pages st) st b := by
  unfold before_heap at h
  rw [hroot] at h
  obtain ⟨st, hst, heq⟩ := Option.bind_eq_some_iff.mp h
  obtain rfl := Option.some.inj heq
  have hstarted := pmm_init_started hst
  have hdevices := vmm_run_extends (boot_owned hin hroot hstarted mem) (device_pages apic_phys) (by
    intro call hcall
    simp only [device_pages, List.mem_cons, List.not_mem_nil, or_false] at hcall
    obtain rfl | rfl := hcall
    · exact hapic.trans (by decide)
    · decide)
  have hinit := vmm_run_extends hdevices.owned (init_pages st) fun _ => init_pages_lt
  obtain ⟨i, hi, heq⟩ := vmm_run_frames (4096 * root) ⟨boot_tables mem (4096 * root), st⟩ (device_pages apic_phys)
  have hpages : init_pages (vmm_run pmm_alloc_block (4096 * root) ⟨boot_tables mem (4096 * root), st⟩
      (device_pages apic_phys)).frames = init_pages st := by
    rw [heq]
    exact (after_reported st i).2
  obtain ⟨j, hj, heq'⟩ := vmm_run_frames (4096 * root)
    (vmm_run pmm_alloc_block (4096 * root) ⟨boot_tables mem (4096 * root), st⟩ (device_pages apic_phys)) (init_pages st)
  refine ⟨st, hst, hstarted, ?_, i + j, ?_, ?_⟩
  · rw [List.map_append, vmm_init, hpages]
    exact hdevices.trans hinit
  · rw [List.length_append]
    omega
  · rw [vmm_init, hpages, heq', heq, after_add]

theorem Roving.lasting {limit bound : ℕ} (h : Roving st limit) (hblocks : PMM_BLOCKS ≤ limit)
    (hlimit : limit + 8 * (bound + 1) < 2 ^ 32) : Lasting st bound := by
  intro i j hi hij hzero
  have hroving := h.after hblocks (j := i) (by omega)
  rw [← Nat.add_zero i, ← answer_after] at hzero
  have hsame := hroving.exhausted (by omega) (by omega) hzero (j - i)
  rw [after_add, Nat.add_sub_cancel' hij] at hsame
  rw [answer, hsame]
  exact hzero

theorem Started.budget {kernel : KernelImage} (h : Started kernel st) (root : ℕ) (mem : Memory) : Budget root ⟨mem, st⟩ := by
  have hN := PMM_BLOCKS_eq
  refine ⟨fun c hc hlt _ => ?_, h.hint.ge, h.hint.le.trans (by omega)⟩
  have hhint := h.hint
  simp only at hlt
  omega

/-- The heap that 16 GB ask for stays below the first entry of the PML4. -/
theorem heap_pages_lt (h : pmm_get_total_memory_kb st ≤ 4 * PMM_BLOCKS) : heap_pages st < PAGE_LIMIT := by
  have hN := PMM_BLOCKS_eq
  have hsize : heap_size st ≤ 2 ^ 34 := by
    unfold heap_size HEAP_START
    dsimp only
    split <;> omega
  unfold heap_pages PAGE_LIMIT
  omega

/-- The boot tables leave room for the heap, whatever has been mapped since. -/
theorem Extends.heapSpace {mem : Memory} {vas : List ℕ} (h : Extends root vas ⟨boot_tables mem (4096 * root), st⟩ b)
    (hbound : root + 6 ≤ 2 ^ 20) (hlasting : Lasting b.frames (3 * PAGE_LIMIT)) : HeapSpace b root (root + 1) := by
  have hpdpt : follow (child (entries (boot_tables mem (4096 * root)))) root [0] = some (root + 1) := by
    rw [← List.nil_append [0], follow_snoc, follow_nil, Option.bind_some, child_eq_some, boot_pml4 mem hbound, if_pos rfl]
    exact ⟨table_entry_present _, table_entry_not_huge _, frame_of_add _ (by omega)⟩
  refine ⟨h.owned, h.keeps [0] (root + 1) (by decide) hpdpt, fun k hk hhuge => ?_, hlasting⟩
  -- the huge pages of the boot code end at 4 GB
  obtain ⟨pd, hpd, -⟩ := (h.flat _).mp hhuge
  obtain ⟨hp, -⟩ | ⟨hp, -⟩ | ⟨i, hi, hp, -⟩ := boot_follow mem hbound hpd
  · simp [upper] at hp
  · simp [upper] at hp
  · simp only [upper, List.nil_append, List.cons_append, List.cons.injEq, and_true] at hp
    have hindex := congrArg Fin.val hp.2
    simp only [index, page_va, HEAP_START] at hindex
    simp only [PAGE_LIMIT] at hk
    omega

/-- The state in which `kmalloc_init` is called. -/
theorem boot_space {fuel : ℕ} {mem memory : Memory} {kernel : KernelImage} {space : TableSpace} {apic_phys magic mbd : ℕ}
    (hin : TablesInKernel kernel space) (hroot : space.pml4_table = 4096 * root) (hapic : apic_phys < 2 ^ 32)
    (h : before_heap fuel mem memory kernel space apic_phys magic mbd = some b) :
    HeapSpace b root (root + 1) ∧ Supply b.frames (3 * PAGE_LIMIT) ∧
      pmm_get_total_memory_kb b.frames ≤ 4 * PMM_BLOCKS := by
  have hN := PMM_BLOCKS_eq
  have hbelow := space.below
  rw [hroot] at hbelow
  obtain ⟨st, -, hstarted, hext, hframes⟩ := before_heap_booted hin hroot hapic h
  have hbudget := hext.budget (hstarted.budget root (boot_tables mem (4096 * root)))
  have hlasting : Lasting b.frames (3 * PAGE_LIMIT) := by
    refine Roving.lasting hbudget.roving (by omega) ?_
    simp only [PAGE_LIMIT]
    omega
  refine ⟨hext.heapSpace (by omega) hlasting, hbudget.supply (by decide), ?_⟩
  obtain ⟨j, -, hj⟩ := hframes
  rw [pmm_get_total_memory_kb, hj, (after_reported st j).1]
  exact hstarted.total

end os_dev.boot
