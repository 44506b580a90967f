import OsDev.Mm.Pmm
import OsDev.Mm.AddressSpace
import OsDev.Mm.Kmalloc

open fuel
open os_dev.pmm (Pmm Memory KernelImage pmm_init pmm_alloc_block pmm_get_total_memory_kb static_pmm)
open os_dev.vmm (Vm TableSpace vmm_map_page vmm_run boot_tables pdpt_of pd_of pt_of)
open os_dev.heap (HEAP_START)

namespace os_dev.boot

/-- The pages that `init_apic` and `init_ioapic` map, for a local APIC at `apic_phys`. -/
def device_pages (apic_phys : ℕ) : List (ℕ × ℕ) := [(0x800000000, apic_phys), (0x800001000, 0xFEC00000)]

/-- The pages from `start` on, mapped to themselves. -/
def identity_pages (start size : ℕ) : List (ℕ × ℕ) :=
  (List.range (size / 4096)).map fun i => ((start + 4096 * i) % 2 ^ 64, (start + 4096 * i) % 2 ^ 64)

def framebuffer_pages (st : Pmm) : List (ℕ × ℕ) :=
  match st.fb with
  | none => []
  | some fb => if fb.addr = 0 then [] else identity_pages fb.addr ((fb.height * fb.pitch + 4095) % 2 ^ 64)

def ramdisk_pages (st : Pmm) : List (ℕ × ℕ) :=
  if st.ramdisk_loaded ∧ st.ramdisk_start ≠ 0 then identity_pages st.ramdisk_start (st.ramdisk_size + 4095) else []

/-- The pages that `vmm_init` maps: the framebuffer, the ramdisk and the first 16 MB. -/
def init_pages (st : Pmm) : List (ℕ × ℕ) :=
  framebuffer_pages st ++ ramdisk_pages st ++ identity_pages 0 (16 * 1024 * 1024)

def vmm_init (pml4_table : ℕ) (s : Vm Pmm) : Vm Pmm := vmm_run pmm_alloc_block pml4_table s (init_pages s.frames)

/-- The memory management part of `kmain` before the heap: `pmm_init`, the mappings of
    `init_idt` and `vmm_init`. The boot code has set up page tables in `mem`. -/
def before_heap (fuel : ℕ) (mem memory : Memory) (kernel : KernelImage) (space : TableSpace) (apic_phys magic mbd : ℕ) :
    Option (Vm Pmm) := do
  let mem := boot_tables mem space.pml4_table
  let st ← pmm_init fuel mem kernel magic mbd (static_pmm memory)
  return vmm_init space.pml4_table
    (vmm_run pmm_alloc_block space.pml4_table ⟨mem, st⟩ (device_pages apic_phys))

/-- The size that `kmalloc_init` asks for. -/
def heap_size (st : Pmm) : ℕ :=
  let total_ram := pmm_get_total_memory_kb st * 1024
  if HEAP_START + 8 * 1024 * 1024 < total_ram then total_ram - HEAP_START - 8 * 1024 * 1024 else 16 * 1024 * 1024

/-- The mapping loop of `kmalloc_init`, with `n` pages to go from `addr` on. The result
    has the address where it stopped. -/
def map_heap (pml4_table : ℕ) : ℕ → ℕ → Vm Pmm → Vm Pmm × ℕ
  | 0, addr, s => (s, addr)
  | n + 1, addr, s =>
    let (phys, frames) := pmm_alloc_block s.frames
    if phys ≠ 0 then map_heap pml4_table n (addr + 4096) (vmm_map_page pmm_alloc_block pml4_table { s with frames } addr phys)
    else ({ s with frames }, addr)

/-- Pages of the heap. -/
def heap_pages (st : Pmm) : ℕ := (heap_size st + 4095) / 4096

/-- Map the heap. The result has `dynamic_heap_size`. -/
def kmalloc_init (pml4_table : ℕ) (s : Vm Pmm) : Vm Pmm × ℕ :=
  let (s', addr) := map_heap pml4_table (heap_pages s.frames) HEAP_START s
  (s', min (heap_size s.frames) (addr - HEAP_START))

/-- The tables that a call of `vmm_map_page` reads or writes below the PML4. -/
def tables_of (pml4_table : ℕ) (s : Vm Pmm) (va : ℕ) : List ℕ :=
  (pdpt_of pmm_alloc_block pml4_table s va).1.toList ++ (pd_of pmm_alloc_block pml4_table s va).1.toList ++
    (pt_of pmm_alloc_block pml4_table s va).1.toList

/-- The tables that the calls of `map_heap` read or write. -/
def heap_tables (pml4_table : ℕ) : ℕ → ℕ → Vm Pmm → List ℕ
  | 0, _, _ => []
  | n + 1, addr, s =>
    let (phys, frames) := pmm_alloc_block s.frames
    if phys ≠ 0 then
      tables_of pml4_table { s with frames } addr ++
        heap_tables pml4_table n (addr + 4096) (vmm_map_page pmm_alloc_block pml4_table { s with frames } addr phys)
    else []

/-- The 4 GB that the boot tables map to themselves. -/
def IDENTITY_LIMIT : ℕ := 2 ^ 32

end os_dev.boot
