import OsDev.Lib.LittleEndian
import OsDev.Lib.Bitmap
import OsDev.Lib.Fuel

open little_endian bitmap fuel

namespace os_dev.pmm

def PMM_BLOCK_SIZE : ℕ := 4096

/-- Bytes of the bitmap, which tracks 16 GB of memory. -/
def PMM_BITMAP_SIZE : ℕ := 524288

/-- Number of tracked blocks. -/
def PMM_BLOCKS : ℕ := PMM_BITMAP_SIZE * 8

def MULTIBOOT1_MAGIC : ℕ := 0x2BADB002
def MULTIBOOT2_MAGIC : ℕ := 0x36D76289

/-- Physical memory, read as bytes. -/
abbrev Memory := ℕ → UInt8

/-- The symbols of `link.ld`. The image is loaded at 1 MB, by 32-bit code. -/
structure KernelImage where
  kernel_start : ℕ
  kernel_end : ℕ
  start_eq : kernel_start = 0x100000
  start_le : kernel_start ≤ kernel_end
  end_lt : kernel_end < 2 ^ 32

/-- The arguments of `screen_init_fb`. -/
structure Framebuffer where
  addr : ℕ
  width : ℕ
  height : ℕ
  pitch : ℕ
  bpp : ℕ
  deriving DecidableEq

/-- The static variables of the allocator. `pmm_bitmap` is the memory from the first
    byte of the bitmap on: behind the `PMM_BITMAP_SIZE` bytes of the bitmap comes
    whatever the linker put there. -/
structure Pmm where
  pmm_bitmap : Memory
  total_memory_kb : ℕ
  free_blocks : ℕ
  last_free_bit : ℕ
  initrd_brain_start : ℕ
  initrd_brain_end : ℕ
  initrd_brain_loaded : Bool
  ramdisk_start : ℕ
  ramdisk_size : ℕ
  ramdisk_loaded : Bool
  fb : Option Framebuffer

/-- The variables as the kernel image holds them, around a bitmap in `memory`. -/
def static_pmm (memory : Memory) : Pmm where
  pmm_bitmap := memory
  total_memory_kb := 0
  free_blocks := 0
  last_free_bit := 256
  initrd_brain_start := 0
  initrd_brain_end := 0
  initrd_brain_loaded := false
  ramdisk_start := 0
  ramdisk_size := 0
  ramdisk_loaded := false
  fb := none

def pmm_set_bit (st : Pmm) (bit : ℕ) : Pmm :=
  if Taken st.pmm_bitmap bit then st
  else
    { st with
      pmm_bitmap := mark st.pmm_bitmap bit
      free_blocks := if 0 < st.free_blocks then st.free_blocks - 1 else st.free_blocks }

def pmm_clear_bit (st : Pmm) (bit : ℕ) : Pmm :=
  if Taken st.pmm_bitmap bit then
    { st with pmm_bitmap := unmark st.pmm_bitmap bit, free_blocks := (st.free_blocks + 1) % 2 ^ 32 }
  else st

/-- An entry of either memory map. -/
structure mmap_entry_t where
  addr : ℕ
  len : ℕ
  type : ℕ
  deriving DecidableEq

/-- A multiboot1 entry starts with its size. -/
def multiboot_entry_at (mem : Memory) (mmap : ℕ) : mmap_entry_t where
  addr := le64 mem (mmap + 4)
  len := le64 mem (mmap + 12)
  type := le32 mem (mmap + 20)

def multiboot2_entry_at (mem : Memory) (entry : ℕ) : mmap_entry_t where
  addr := le64 mem entry
  len := le64 mem (entry + 8)
  type := le32 mem (entry + 16)

/-- The entries that the multiboot1 loop visits. -/
def multiboot_entries (fuel : ℕ) (mem : Memory) (mbd : ℕ) : Option (List mmap_entry_t) :=
  let mmap_addr := le32 mem (mbd + 48)
  let mmap_end := (mmap_addr + le32 mem (mbd + 44)) % 2 ^ 32
  loop (fun s => if s.1 < mmap_end then none else some s.2)
    (fun s => (s.1 + le32 mem s.1 + 4, s.2 ++ [multiboot_entry_at mem s.1])) fuel
    ((mmap_addr, []) : ℕ × List mmap_entry_t)

/-- The block loop of a multiboot1 entry. -/
def clear_region (fuel : ℕ) (st : Pmm) (addr len : ℕ) : Option Pmm :=
  let end_addr := (addr + len) % 2 ^ 64
  loop (fun s => if s.1 < end_addr then none else some s.2)
    (fun s =>
      let block := s.1 / PMM_BLOCK_SIZE % 2 ^ 32
      ((s.1 + PMM_BLOCK_SIZE) % 2 ^ 64, if block < PMM_BLOCKS then pmm_clear_bit s.2 block else s.2))
    fuel (addr, st)

def multiboot_free_entry (fuel : ℕ) (st : Pmm) (entry : mmap_entry_t) : Option Pmm :=
  if entry.type = 1 then clear_region fuel st entry.addr entry.len else some st

/-- The characters of a C string. -/
def c_string (fuel : ℕ) (mem : Memory) (str : ℕ) : Option (List UInt8) :=
  loop (fun s => if mem s.1 ≠ 0 then none else some s.2) (fun s => (s.1 + 1, s.2 ++ [mem s.1])) fuel
    ((str, []) : ℕ × List UInt8)

/-- The search for `disk` anywhere in a module's command string. -/
def names_disk (str : List UInt8) : Bool :=
  (List.range (str.length - 3)).any fun j => (str.drop j).take 4 = [0x64, 0x69, 0x73, 0x6B]

def note_ramdisk (st : Pmm) (mod_start mod_end : ℕ) : Pmm :=
  { st with
    ramdisk_start := mod_start
    ramdisk_size := (mod_end + 2 ^ 32 - mod_start) % 2 ^ 32
    ramdisk_loaded := true }

/-- One round of the multiboot1 module loop, for the record at `module_ptr`. -/
def multiboot_module (fuel : ℕ) (mem : Memory) (st : Pmm) (module_ptr : ℕ) : Option Pmm :=
  let str := le32 mem (module_ptr + 8)
  if str = 0 then some st
  else do
    let chars ← c_string fuel mem str
    return if names_disk chars then note_ramdisk st (le32 mem module_ptr) (le32 mem (module_ptr + 4)) else st

/-- The memory map of multiboot1, if flag 6 says that there is one. -/
def multiboot_map (fuel : ℕ) (mem : Memory) (mbd : ℕ) (st : Pmm) : Option Pmm :=
  if (le32 mem mbd).testBit 6 then do
    let entries ← multiboot_entries fuel mem mbd
    entries.foldlM (multiboot_free_entry fuel) st
  else some st

/-- The framebuffer of multiboot1, with flag 12. -/
def multiboot_fb (mem : Memory) (mbd : ℕ) (st : Pmm) : Pmm :=
  if (le32 mem mbd).testBit 12 then
    { st with fb := some ⟨le64 mem (mbd + 88), le32 mem (mbd + 100), le32 mem (mbd + 104), le32 mem (mbd + 96),
                          (mem (mbd + 108)).toNat⟩ }
  else st

/-- The modules of multiboot1, with flag 3. -/
def multiboot_modules (fuel : ℕ) (mem : Memory) (mbd : ℕ) (st : Pmm) : Option Pmm :=
  if (le32 mem mbd).testBit 3 then
    ((List.range (le32 mem (mbd + 20))).map fun i => le32 mem (mbd + 24) + 16 * i).foldlM
      (multiboot_module fuel mem) st
  else some st

def multiboot_init (fuel : ℕ) (mem : Memory) (mbd : ℕ) (st : Pmm) : Option Pmm := do
  let st ← multiboot_map fuel mem mbd st
  multiboot_modules fuel mem mbd (multiboot_fb mem mbd st)

/-- The tags that the multiboot2 loop visits before the end tag. -/
def multiboot2_tags (fuel : ℕ) (mem : Memory) (mbd : ℕ) : Option (List ℕ) :=
  let total_size := le32 mem mbd
  loop (fun s => if s.1 < total_size ∧ le32 mem (mbd + s.1) ≠ 0 then none else some s.2)
    (fun s =>
      let tag := mbd + s.1
      ((s.1 + (le32 mem (tag + 4) + 7) % 2 ^ 32 / 8 * 8) % 2 ^ 32, s.2 ++ [tag]))
    fuel ((8, []) : ℕ × List ℕ)

/-- The entries of a memory map tag. An entry size of zero is a division by zero,
    from which the loop does not return. -/
def multiboot2_tag_entries (mem : Memory) (tag : ℕ) : Option (List mmap_entry_t) :=
  let entry_size := le32 mem (tag + 8)
  if entry_size = 0 then none
  else
    let num_entries := (le32 mem (tag + 4) + 2 ^ 64 - 16) % 2 ^ 64 / entry_size % 2 ^ 32
    some ((List.range num_entries).map fun i => multiboot2_entry_at mem (tag + 16 + i * entry_size))

/-- The block loop of a multiboot2 entry, with `rounds` rounds to go from block `b` on. -/
def clear_blocks (first : ℕ) : ℕ → ℕ → Pmm → Pmm
  | 0, _, st => st
  | rounds + 1, b, st =>
    let block := (first + b) % 2 ^ 32
    if block < PMM_BLOCKS then clear_blocks first rounds (b + 1) (pmm_clear_bit st block) else st

def multiboot2_free_entry (st : Pmm) (entry : mmap_entry_t) : Pmm :=
  if entry.type = 1 then
    clear_blocks (entry.addr / PMM_BLOCK_SIZE % 2 ^ 32) (entry.len / PMM_BLOCK_SIZE % 2 ^ 32) 0 st
  else st

/-- What the multiboot2 loop does with a tag. The ACPI tags do not concern the allocator. -/
def multiboot2_tag (fuel : ℕ) (mem : Memory) (st : Pmm) (tag : ℕ) : Option Pmm :=
  let type := le32 mem tag
  if type = 6 then do
    let entries ← multiboot2_tag_entries mem tag
    return entries.foldl multiboot2_free_entry st
  else if type = 8 then
    some { st with fb := some ⟨le64 mem (tag + 8), le32 mem (tag + 20), le32 mem (tag + 24), le32 mem (tag + 16),
                               (mem (tag + 28)).toNat⟩ }
  else if type = 3 then do
    let chars ← c_string fuel mem (tag + 16)
    let mod_start := le32 mem (tag + 8)
    let mod_end := le32 mem (tag + 12)
    return if names_disk chars then note_ramdisk st mod_start mod_end
      else if chars.take 2 = [0x61, 0x69] then
        { st with initrd_brain_start := mod_start, initrd_brain_end := mod_end, initrd_brain_loaded := true }
      else st
  else some st

def multiboot2_init (fuel : ℕ) (mem : Memory) (mbd : ℕ) (st : Pmm) : Option Pmm := do
  let tags ← multiboot2_tags fuel mem mbd
  tags.foldlM (multiboot2_tag fuel mem) st

/-- `for (i = first; i <= last; i++) pmm_set_bit(i)`, for bounds below `2 ^ 32 - 1`. -/
def set_range (st : Pmm) (first last : ℕ) : Pmm :=
  (List.range' first (last + 1 - first)).foldl pmm_set_bit st

/-- The protection of the kernel, of page 0 and of the modules. -/
def protect (kernel : KernelImage) (st : Pmm) : Pmm :=
  let st := set_range st (kernel.kernel_start / PMM_BLOCK_SIZE) (kernel.kernel_end / PMM_BLOCK_SIZE)
  let st := pmm_set_bit st 0
  let st :=
    if st.initrd_brain_loaded then
      set_range st (st.initrd_brain_start / PMM_BLOCK_SIZE)
        ((st.initrd_brain_end + PMM_BLOCK_SIZE - 1) / PMM_BLOCK_SIZE)
    else st
  if st.ramdisk_loaded then
    set_range st (st.ramdisk_start / PMM_BLOCK_SIZE)
      ((st.ramdisk_start + st.ramdisk_size + PMM_BLOCK_SIZE - 1) / PMM_BLOCK_SIZE)
  else st

/-- Mark every block as reserved. -/
def reserve_all (st : Pmm) : Pmm :=
  { st with pmm_bitmap := fun i => if i < PMM_BITMAP_SIZE then 0xFF else st.pmm_bitmap i, free_blocks := 0 }

/-- The parsing step of `pmm_init`, depending on the boot method. -/
def read_boot_info (fuel : ℕ) (mem : Memory) (magic mbd : ℕ) (st : Pmm) : Option Pmm :=
  if magic = MULTIBOOT1_MAGIC then multiboot_init fuel mem mbd st
  else if magic = MULTIBOOT2_MAGIC then multiboot2_init fuel mem mbd st
  else some st

def pmm_init (fuel : ℕ) (mem : Memory) (kernel : KernelImage) (magic mbd : ℕ) (st : Pmm) : Option Pmm := do
  let st ← read_boot_info fuel mem magic mbd (reserve_all st)
  return protect kernel { st with total_memory_kb := st.free_blocks * 4 % 2 ^ 32 }

/-- Hand out a block that a search has found. -/
def take_block (st : Pmm) (block : ℕ) : ℕ × Pmm :=
  (block * PMM_BLOCK_SIZE, { pmm_set_bit st block with last_free_bit := (block + 1) % 2 ^ 32 })

/-- The result is the address of the block, or 0. -/
def pmm_alloc_block (st : Pmm) : ℕ × Pmm :=
  match scan st.pmm_bitmap st.last_free_bit (PMM_BITMAP_SIZE - st.last_free_bit / 8) (st.last_free_bit / 8) with
  | some block => take_block st block
  | none =>
    -- second pass, from the 1 MB line to the byte of the hint, that byte included
    match scan st.pmm_bitmap 256 (st.last_free_bit / 8 + 1 - 256 / 8) (256 / 8) with
    | some block => take_block st block
    | none => (0, st)

def pmm_free_block (st : Pmm) (addr : ℕ) : Pmm :=
  let block := addr / PMM_BLOCK_SIZE % 2 ^ 32
  let st := pmm_clear_bit st block
  if block < st.last_free_bit then { st with last_free_bit := block } else st

def pmm_get_total_memory_kb (st : Pmm) : ℕ := st.total_memory_kb

def pmm_get_used_blocks (st : Pmm) : ℕ :=
  let total_blocks := st.total_memory_kb / 4
  if total_blocks < st.free_blocks then 0 else total_blocks - st.free_blocks

def pmm_get_free_blocks (st : Pmm) : ℕ := st.free_blocks

/-- The memory map that the boot loader reports: the entries that `pmm_init` reads. -/
def memory_map (fuel : ℕ) (mem : Memory) (magic mbd : ℕ) : Option (List mmap_entry_t) :=
  if magic = MULTIBOOT1_MAGIC then
    if (le32 mem mbd).testBit 6 then multiboot_entries fuel mem mbd else some []
  else if magic = MULTIBOOT2_MAGIC then do
    let tags ← multiboot2_tags fuel mem mbd
    let maps ← (tags.filter fun tag => le32 mem tag = 6).mapM (multiboot2_tag_entries mem)
    return maps.flatten
  else some []

end os_dev.pmm
