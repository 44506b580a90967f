import OsDev.Mm.HeapReach

open little_endian linked_tree fuel bitmap
open os_dev.pmm os_dev.vmm
open os_dev.heap (HEAP_START)

namespace os_dev.boot

variable {st : Pmm} {b : Vm Pmm}

/-- A multiboot2 block at `0x9000` for a machine with 1 GB of memory, from 1 MB on. -/
def gigabyte_info : Memory := fun i =>
  ([(0x9000, 56), (0x9008, 6), (0x900C, 40), (0x9010, 24), (0x901A, 0x10), (0x9022, 0xF0), (0x9023, 0x3F), (0x9028, 1),
    (0x9034, 8)].lookup i).getD 0

def gigabyte_entries : List mmap_entry_t := [⟨0x100000, 0x3FF00000, 1⟩]

theorem gigabyte_tells : TellsMap (boot_tables gigabyte_info (4096 * 300)) gigabyte_entries :=
  tells_of_words (n := 1) (by decide) (by decide) (by decide) (by decide) (by decide) (by decide) (by decide +kernel)

theorem gigabyte_below : BelowLimit gigabyte_entries := by
  intro entry hmem
  obtain rfl := List.mem_singleton.mp hmem
  decide

theorem gigabyte_boot : ∃ b, before_heap 2 gigabyte_info (fun _ => 0) half_megabyte large_tables 0xFEE00000 MULTIBOOT2_MAGIC
    0x9000 = some b := gigabyte_tells.before_heap

theorem gigabyte_freed {c : ℕ} : Freed MULTIBOOT2_MAGIC gigabyte_entries c ↔ 256 ≤ c ∧ c < 262144 := by
  have hmagic : MULTIBOOT2_MAGIC ≠ MULTIBOOT1_MAGIC := by decide
  simp only [Freed, gigabyte_entries, List.mem_cons, List.not_mem_nil, or_false, exists_eq_left, FreesBlock,
    if_neg hmagic, Multiboot2Frees, PMM_BLOCK_SIZE, true_and]
  omega

theorem gigabyte_frames {memory : Memory} (hbare : Bare st)
    (h : Initialised half_megabyte MULTIBOOT2_MAGIC gigabyte_entries memory st) :
    261000 ≤ (free_between st 256 262144).card := by
  have hN := PMM_BLOCKS_eq
  have hsub : Finset.Ico 385 262144 ⊆ free_between st 256 262144 := by
    intro c hc
    rw [Finset.mem_Ico] at hc
    refine mem_free_between.mpr ⟨by omega, by omega, (h.free c).mpr (.inl ⟨gigabyte_freed.mpr (by omega), ?_⟩)⟩
    rintro (⟨-, hend⟩ | rfl | ⟨hloaded, -⟩ | ⟨hloaded, -⟩)
    · have hkernel : half_megabyte.kernel_end / PMM_BLOCK_SIZE = 384 := by decide
      omega
    · omega
    · rw [hbare.initrd] at hloaded
      cases hloaded
    · rw [hbare.ramdisk] at hloaded
      cases hloaded
  have hcard := Finset.card_le_card hsub
  rw [Nat.card_Ico] at hcard
  omega

theorem gigabyte_total {memory : Memory} (h : Initialised half_megabyte MULTIBOOT2_MAGIC gigabyte_entries memory st) :
    st.total_memory_kb = 261888 * 4 := by
  obtain ⟨ram, hram, htotal⟩ := h.total
  have hset : ram = Finset.Ico 256 262144 := by
    ext c
    rw [hram, gigabyte_freed, Finset.mem_Ico]
  rw [htotal, hset, Nat.card_Ico]

/-- The allocator of this machine when the heap is set up: a heap of 16 MB, frames below 1 GB for it
    and for its tables, and no page directory for it yet. -/
structure GigabyteHeap (b : Vm Pmm) : Prop where
  pages : heap_pages b.frames = 4096
  answers : ∀ i ≤ 200000, answer b.frames i < 4096 * 262144 ∧ answer b.frames i ≠ 0
  missing : follow (child (entries b.mem)) 300 [0, 8] = none

theorem gigabyte_heap (h : before_heap 2 gigabyte_info (fun _ => 0) half_megabyte large_tables 0xFEE00000 MULTIBOOT2_MAGIC
    0x9000 = some b) : GigabyteHeap b := by
  have hN := PMM_BLOCKS_eq
  obtain ⟨st, hst, hbooted⟩ := @before_heap_booted b 300 _ _ _ _ _ _ _ _ large_in rfl (by decide) h
  obtain ⟨st', hst', hbare⟩ := @TellsMap.init (fun _ => 0) _ _ gigabyte_tells
  obtain rfl := Option.some.inj (hst.symm.trans hst')
  have hspec := pmm_init_spec gigabyte_tells.map gigabyte_below hst
  obtain ⟨j, hj, hframes⟩ := hbooted.frames
  rw [hbare.calls_length] at hj
  have hbudget := hbooted.started.budget 300 (fun _ => 0)
  refine ⟨?_, fun i hi => ?_, hbare.missing_directory (by decide) hbooted.run⟩
  · have htotal := gigabyte_total hspec
    rw [← (after_reported st j).1, ← hframes] at htotal
    have hsize : heap_size b.frames = 16 * 1024 * 1024 := by
      unfold heap_size pmm_get_total_memory_kb HEAP_START
      exact if_neg (by omega)
    rw [heap_pages, hsize]
  · have hsupply : Supply st (j + i + 0) := hbudget.supply (by omega)
    have hfree := gigabyte_frames hbare hspec
    rw [hframes, answer_after]
    exact (Supply.answer_low_iff (by omega) (j + i) hsupply).mpr (by omega)

/-- No table below the page directory pointer table is there yet. -/
theorem GigabyteHeap.no_tables (h : GigabyteHeap b) {k n : ℕ} (hk : k < 4096) (hn : 2 ≤ n) :
    follow (child (entries b.mem)) 300 (upper (page_va k) n) = none := by
  refine Option.eq_none_iff_forall_ne_some.mpr fun t ht => ?_
  obtain ⟨u, hu⟩ := follow_upper_of_le ht hn
  have hfirst : upper (page_va k) 2 = upper (page_va 0) 2 :=
    (page_upper_two (by unfold PAGE_LIMIT; omega) (by decide)).mpr (by omega)
  have hupper : upper (page_va 0) 2 = [0, 8] := by decide
  rw [hfirst, hupper, h.missing] at hu
  cases hu

theorem GigabyteHeap.answer_low (h : GigabyteHeap b) {i : ℕ} (hi : i ≤ 200000) : AnswerLow b.frames i := by
  have hlow := (h.answers i hi).1
  obtain ⟨block, hblock⟩ := answer_dvd b.frames i
  unfold AnswerLow LowTable IDENTITY_LIMIT
  omega

/-- All page tables of this heap lie in the identity-mapped 4 GB. -/
theorem GigabyteHeap.tables_low (h : GigabyteHeap b) (hspace : HeapSpace b 300 301) :
    ∀ t ∈ heap_tables (4096 * 300) (heap_pages b.frames) HEAP_START b, LowTable t := by
  rw [h.pages]
  refine ((Mapped.start hspace.owned).heap_tables_low_iff hspace (n := 4096) (by decide)).mpr fun k _ hk _ => ?_
  have hle := asked_le b 300 k
  have hpd : needs_pd b 300 k ≤ 1 := by
    unfold needs_pd
    have := missing_le b 300 (page_va k) 2
    split <;> omega
  refine ⟨fun n t hn hn3 ht => ?_, fun _ => h.answer_low (by omega), fun _ => h.answer_low (by omega)⟩
  obtain rfl | hdeep : n = 1 ∨ 2 ≤ n := by omega
  · rw [page_upper_one (by unfold PAGE_LIMIT; omega), hspace.pdpt] at ht
    obtain rfl := Option.some.inj ht
    unfold LowTable
    decide
  · rw [h.no_tables (by omega) hdeep] at ht
    cases ht

/-- And a frame for each of them. -/
theorem GigabyteHeap.granted (h : GigabyteHeap b) :
    ∀ k < heap_pages b.frames, answer b.frames (asked b 300 k) ≠ 0 → answer b.frames (asked b 300 (k + 1) - 1) ≠ 0 := by
  intro k hk _
  rw [h.pages] at hk
  have hle := asked_le b 300 (k + 1)
  exact (h.answers _ (by omega)).2

end os_dev.boot
