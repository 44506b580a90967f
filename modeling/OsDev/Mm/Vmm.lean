import OsDev.Lib.LittleEndian
import Mathlib.Logic.Function.Basic

open little_endian

namespace os_dev.vmm

def VMM_PRESENT : ℕ := 0x1
def VMM_WRITABLE : ℕ := 0x2

def Present (entry : ℕ) : Prop := entry &&& VMM_PRESENT ≠ 0

def Writable (entry : ℕ) : Prop := entry &&& VMM_WRITABLE ≠ 0

/-- The page size bit: the entry maps a large page itself. -/
def Huge (entry : ℕ) : Prop := entry &&& 0x80 ≠ 0

instance (entry : ℕ) : Decidable (Present entry) := inferInstanceAs (Decidable (_ ≠ _))
instance (entry : ℕ) : Decidable (Writable entry) := inferInstanceAs (Decidable (_ ≠ _))
instance (entry : ℕ) : Decidable (Huge entry) := inferInstanceAs (Decidable (_ ≠ _))

/-- The nine bits of an address that select an entry, at level 3 for the PML4 down to
    level 0 for a page table. -/
def index (level va : ℕ) : Fin 512 := ⟨va / 2 ^ (12 + 9 * level) % 512, Nat.mod_lt _ (by decide)⟩

/-- Physical memory, and the state of the frame allocator. -/
structure Vm (σ : Type) where
  mem : ℕ → UInt8
  frames : σ

variable {σ : Type}

/-- The 512 stores of zero into a new table. -/
def zero_table (mem : ℕ → UInt8) (table : ℕ) : ℕ → UInt8 :=
  fun i => if table ≤ i ∧ i < table + 4096 then 0 else mem i

/-- The table that the entry at address `entry` points to, which is allocated if there
    is none. There is no result if the allocation fails. -/
def table_at (alloc : σ → ℕ × σ) (s : Vm σ) (entry : ℕ) : Option ℕ × Vm σ :=
  if Present (le64 s.mem entry) then (some (le64 s.mem entry / 4096 * 4096), s)
  else
    let (new_table, frames) := alloc s.frames
    if new_table = 0 then (none, { s with frames })
    else
      let mem := put64 (zero_table s.mem new_table) entry (new_table ||| (VMM_PRESENT ||| VMM_WRITABLE))
      (some (le64 mem entry / 4096 * 4096), ⟨mem, frames⟩)

def pdpt_of (alloc : σ → ℕ × σ) (pml4_table : ℕ) (s : Vm σ) (va : ℕ) : Option ℕ × Vm σ :=
  table_at alloc s (pml4_table + 8 * index 3 va)

def pd_of (alloc : σ → ℕ × σ) (pml4_table : ℕ) (s : Vm σ) (va : ℕ) : Option ℕ × Vm σ :=
  match pdpt_of alloc pml4_table s va with
  | (none, s) => (none, s)
  | (some pdpt, s) => table_at alloc s (pdpt + 8 * index 2 va)

/-- There is no page table under a huge page. -/
def pt_of (alloc : σ → ℕ × σ) (pml4_table : ℕ) (s : Vm σ) (va : ℕ) : Option ℕ × Vm σ :=
  match pd_of alloc pml4_table s va with
  | (none, s) => (none, s)
  | (some pd, s) =>
    let entry := le64 s.mem (pd + 8 * index 1 va)
    if Present entry ∧ Huge entry then (none, s) else table_at alloc s (pd + 8 * index 1 va)

def vmm_map_page (alloc : σ → ℕ × σ) (pml4_table : ℕ) (s : Vm σ) (virtual_addr physical_addr : ℕ) : Vm σ :=
  match pt_of alloc pml4_table s virtual_addr with
  | (none, s) => s
  | (some pt, s) =>
    { s with
      mem := put64 s.mem (pt + 8 * index 0 virtual_addr)
        (physical_addr / 4096 * 4096 ||| (VMM_PRESENT ||| VMM_WRITABLE)) }

/-- The entries of every frame, read as a table. -/
abbrev Entries := ℕ → Fin 512 → ℕ

def entries (mem : ℕ → UInt8) : Entries := fun frame i => le64 mem (4096 * frame + 8 * i)

/-- The frame that an entry points to, bits 12 to 51. -/
def frame_of (entry : ℕ) : ℕ := entry / 4096 % 2 ^ 40

/-- What the hardware makes of an address. -/
structure Translation where
  phys : ℕ
  writable : Bool
  deriving DecidableEq

/-- The hardware walk from a table of a level. A huge entry ends it, except in the
    PML4, where that bit is reserved. -/
def walk_from (ent : Entries) (va : ℕ) : ℕ → ℕ → Bool → Option Translation
  | 0, table, writable =>
    let entry := ent table (index 0 va)
    if Present entry then some ⟨4096 * frame_of entry + va % 4096, writable && Writable entry⟩ else none
  | level + 1, table, writable =>
    let entry := ent table (index (level + 1) va)
    if ¬ Present entry then none
    else if Huge entry then
      if level = 2 then none
      else
        let size := 2 ^ (12 + 9 * (level + 1))
        some ⟨entry % 2 ^ 52 / size * size + va % size, writable && Writable entry⟩
    else walk_from ent va level (frame_of entry) (writable && Writable entry)

/-- The 4-level walk of an address of 48 bits. -/
def walk (mem : ℕ → UInt8) (pml4_table va : ℕ) : Option Translation :=
  walk_from (entries mem) va 3 (pml4_table / 4096) true

/-- Entry `i` of the four page directories that the boot code fills. -/
def boot_page (i : ℕ) : ℕ := 0x200000 * i % 2 ^ 32 ||| 0x83

/-- The page tables that `loader.s` sets up in zeroed memory, at six pages from
    `pml4_table` on: the PML4, the PDPT and four page directories of 2 MB pages. -/
def boot_tables (mem : ℕ → UInt8) (pml4_table : ℕ) : ℕ → UInt8 :=
  let pdpt_table := pml4_table + 4096
  let pd_table := pdpt_table + 4096
  let mem := fun i => if pml4_table ≤ i ∧ i < pml4_table + 6 * 4096 then 0 else mem i
  let mem := put64 mem pml4_table (pdpt_table ||| 0x3)
  let mem := put64s mem pdpt_table (fun i => pd_table + 4096 * i ||| 0x3) 4
  put64s mem pd_table boot_page 2048

end os_dev.vmm
