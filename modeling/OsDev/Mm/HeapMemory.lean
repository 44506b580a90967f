import OsDev.Lib.MappedMemory
import OsDev.Mm.AddressMap
import OsDev.Mm.HeapExtent

open little_endian linked_tree mapped_memory
open os_dev.pmm os_dev.vmm
open os_dev.heap (HEAP_START)

namespace os_dev.boot

variable {b : Vm Pmm} {mem mem' : Memory} {ent ent' : Entries} {root va size t : ℕ} {frame : ℕ → ℕ}

/-- What the processor makes of an address: where it is, and whether one may write there. -/
def translate (pml4_table : ℕ) (mem : Memory) (va : ℕ) : Option (ℕ × Bool) :=
  (walk mem pml4_table va).map fun t => (t.phys, t.writable)

/-- The addresses of a heap of `size` bytes. -/
def InHeap (size va : ℕ) : Prop := HEAP_START ≤ va ∧ va < HEAP_START + size

/-- Where the bytes of the heap are. -/
def heap_place (frame : ℕ → ℕ) (va : ℕ) : ℕ := 4096 * frame ((va - HEAP_START) / 4096) + (va - HEAP_START) % 4096

/-- A table is read from its frame. -/
theorem entries_congr (h : ∀ p, p / 4096 = t → mem' p = mem p) : entries mem' t = entries mem t := by
  funext i
  have hi := i.isLt
  apply le64_congr
  intro k hk
  apply h
  omega

/-- A translation is read from the tables on its way. -/
theorem walk_from_congr (h : ∀ p t, p.length ≤ 3 → follow (child ent) root p = some t → ent' t = ent t) {level n : ℕ}
    (w : Bool) (hn : n + level = 3) (ht : follow (child ent) root (upper va n) = some t) :
    walk_from ent' va level t w = walk_from ent va level t w := by
  have hsame := h (upper va n) t (by rw [upper_length]; omega) ht
  induction level generalizing n t w with
  | zero => rw [walk_from, walk_from, hsame]
  | succ level ih =>
    rw [walk_from, walk_from, hsame]
    dsimp only
    split
    · rfl
    split
    · rfl
    · rename_i hpresent hhuge
      have hnext : follow (child ent) root (upper va (n + 1)) = some (frame_of (ent t (index (level + 1) va))) := by
        apply follow_snoc_eq_some.mpr
        refine ⟨t, ht, ?_⟩
        rw [show 3 - n = level + 1 by omega]
        exact child_eq_some.mpr ⟨not_not.mp hpresent, hhuge, rfl⟩
      exact ih _ (by omega) hnext (h _ _ (by rw [upper_length]; omega) hnext)

theorem heap_place_frame (frame : ℕ → ℕ) (va : ℕ) : heap_place frame va / 4096 = frame ((va - HEAP_START) / 4096) := by
  unfold heap_place
  omega

/-- Pages with frames of their own, in which there are no tables, are memory of their own. -/
theorem HeapBacked.backs (h : HeapBacked root mem size frame) :
    Backs (translate (4096 * root)) (InHeap size) (heap_place frame) mem := by
  refine ⟨fun va hva => ?_, fun va va' hva hva' hsame => ?_, fun mem' hsame va => ?_⟩
  · have hmapped := h.mapped (va - HEAP_START) (by unfold InHeap at hva; omega)
    rw [Nat.add_sub_cancel' hva.1] at hmapped
    rw [translate, hmapped, Option.map_some, heap_place]
  · have hframes := congrArg (· / 4096) hsame
    simp only [heap_place_frame] at hframes
    have hpage := h.distinct _ _ (by unfold InHeap at hva; omega) (by unfold InHeap at hva'; omega) hframes
    unfold InHeap at hva hva'
    unfold heap_place at hsame
    rw [hpage] at hsame
    omega
  · rw [translate, translate, walk_eq, walk_eq]
    congr 1
    apply walk_from_congr (n := 0) _ true rfl rfl
    intro p t hp ht
    apply entries_congr
    intro q hq
    apply hsame
    intro a ha heq
    rw [heq, heap_place_frame] at hq
    exact h.spare _ (by unfold InHeap at ha; omega) p t hp ht hq.symm

/-- The heap behaves as memory of its own: a program that stays inside it runs through the page tables as on flat
    memory, without a fault, and leaves the address space as it is. -/
structure FlatHeap (root size : ℕ) (place : ℕ → ℕ) (mem : Memory) : Prop where
  mapped : ∀ va, InHeap size va → translate (4096 * root) mem va = some (place va, true)
  runs : ∀ (R : Type) (program : Program ℕ UInt8 R) (flat : ℕ → UInt8), Views (InHeap size) place mem flat →
    program.Within (InHeap size) flat →
      ∃ mem', program.run_mapped (translate (4096 * root)) mem = some ((program.run flat).1, mem') ∧
        Views (InHeap size) place mem' (program.run flat).2 ∧
        ∀ va, translate (4096 * root) mem' va = translate (4096 * root) mem va

/-- The heap that `kmain` sets up is memory of its own where no request for one of its tables was refused. -/
theorem heap_is_flat {fuel : ℕ} {info memory : Memory} {kernel : KernelImage} {space : TableSpace}
    {apic_phys magic mbd : ℕ} (hin : TablesInKernel kernel space) (hroot : space.pml4_table = 4096 * root)
    (hapic : apic_phys < 2 ^ 32) (h : before_heap fuel info memory kernel space apic_phys magic mbd = some b)
    (htables : ∀ k < heap_pages b.frames, answer b.frames (asked b root k) ≠ 0 →
      answer b.frames (asked b root (k + 1) - 1) ≠ 0) :
    ∃ place, FlatHeap root (kmalloc_init (4096 * root) b).2 place (kmalloc_init (4096 * root) b).1.mem := by
  obtain ⟨hspace, -, htotal⟩ := boot_space hin hroot hapic h
  obtain ⟨frame, hbacked⟩ := (heap_backed_iff hspace htotal).mpr htables
  have hbacks := hbacked.backs
  refine ⟨heap_place frame, hbacks.mapped, fun R program flat hview hwithin => ?_⟩
  obtain ⟨mem', hrun, hview', hsame⟩ := hbacks.run_mapped program hview hwithin
  exact ⟨mem', hrun, hview', hbacks.steady mem' hsame⟩

theorem heap_is_flat_gigabyte :
    ∃ b, before_heap 2 gigabyte_info (fun _ => 0) half_megabyte large_tables 0xFEE00000 MULTIBOOT2_MAGIC 0x9000 = some b ∧
      (∀ t ∈ heap_tables (4096 * 300) (heap_pages b.frames) HEAP_START b, LowTable t) ∧
      ∃ place, FlatHeap 300 (kmalloc_init (4096 * 300) b).2 place (kmalloc_init (4096 * 300) b).1.mem := by
  obtain ⟨b, hb⟩ := gigabyte_boot
  obtain ⟨hspace, -, -⟩ := @boot_space b 300 _ _ _ _ _ _ _ _ large_in rfl (by decide) hb
  have hgigabyte := gigabyte_heap hb
  exact ⟨b, hb, hgigabyte.tables_low hspace, heap_is_flat large_in rfl (by decide) hb hgigabyte.granted⟩

end os_dev.boot
