import OsDev.Lib.LittleEndian
import OsDev.Lib.Fuel
import OsDev.Lib.BlockList

open little_endian fuel block_list

namespace os_dev.heap

/-- The heap starts at 8 GB, behind the identity-mapped region. -/
def HEAP_START : ℕ := 0x200000000

/-- `sizeof(block_header_t)`. -/
def HEADER_SIZE : ℕ := 16

/-- The header in front of every block. -/
@[ext] structure block_header_t where
  size : ℕ
  is_free : ℕ
  next : ℕ
  deriving DecidableEq

/-- The header at an address, read through a pointer. -/
def header_at (mem : ℕ → UInt8) (block : ℕ) : block_header_t where
  size := le32 mem block
  is_free := le32 mem (block + 4)
  next := le64 mem (block + 8)

def set_size (mem : ℕ → UInt8) (block size : ℕ) : ℕ → UInt8 := put32 mem block (size % 2 ^ 32)
def set_free (mem : ℕ → UInt8) (block is_free : ℕ) : ℕ → UInt8 := put32 mem (block + 4) is_free
def set_next (mem : ℕ → UInt8) (block next : ℕ) : ℕ → UInt8 := put64 mem (block + 8) next

/-- The memory as the kernel addresses it, and the static variables of the heap. -/
structure Heap where
  mem : ℕ → UInt8
  heap_start : ℕ
  dynamic_heap_size : ℕ

/-- The first free block, as `kmalloc_init` sets it up once the region is mapped. -/
def init_heap (mem : ℕ → UInt8) (dynamic_heap_size : ℕ) : Heap :=
  let mem := set_size mem HEAP_START (dynamic_heap_size + 2 ^ 64 - HEADER_SIZE)
  let mem := set_free mem HEAP_START 1
  let mem := set_next mem HEAP_START 0
  { mem, heap_start := HEAP_START, dynamic_heap_size }

/-- `(size + 3) & ~3` in `size_t`. -/
def align4 (size : ℕ) : ℕ := (size + 3) % 2 ^ 64 / 4 * 4

/-- What `kmalloc` does with the block it found: split off the rest if that can hold
    another block, and mark the block as allocated. -/
def take_block (mem : ℕ → UInt8) (current size : ℕ) : ℕ → UInt8 :=
  let mem :=
    if size + HEADER_SIZE + 16 ≤ (header_at mem current).size then
      let new_block := current + HEADER_SIZE + size
      let mem := set_size mem new_block ((header_at mem current).size - size - HEADER_SIZE)
      let mem := set_free mem new_block 1
      let mem := set_next mem new_block (header_at mem current).next
      let mem := set_size mem current size
      set_next mem current new_block
    else mem
  set_free mem current 0

/-- The first-fit search of `kmalloc`. -/
def kmalloc_loop (size : ℕ) (mem : ℕ → UInt8) : ℕ → ℕ → Option (ℕ × (ℕ → UInt8))
  | 0, _ => none
  | fuel + 1, current =>
    if current = 0 then some (0, mem)
    else if (header_at mem current).is_free ≠ 0 ∧ size ≤ (header_at mem current).size then
      some (current + HEADER_SIZE, take_block mem current size)
    else kmalloc_loop size mem fuel (header_at mem current).next

def kmalloc (fuel : ℕ) (st : Heap) (size : ℕ) : Option (ℕ × Heap) :=
  if size = 0 then some (0, st)
  else do
    let (ptr, mem) ← kmalloc_loop (align4 size) st.mem fuel st.heap_start
    return (ptr, { st with mem })

/-- Merge `block` with the block behind it if that is free. -/
def merge_next (mem : ℕ → UInt8) (block : ℕ) : ℕ → UInt8 :=
  let next := (header_at mem block).next
  if next ≠ 0 ∧ (header_at mem next).is_free ≠ 0 then
    let mem := set_size mem block ((header_at mem block).size + (HEADER_SIZE + (header_at mem next).size))
    set_next mem block (header_at mem next).next
  else mem

/-- The search of `kfree` for the block in front of `block`. -/
def merge_prev (block : ℕ) (mem : ℕ → UInt8) : ℕ → ℕ → Option (ℕ → UInt8)
  | 0, _ => none
  | fuel + 1, current =>
    if current = 0 ∨ current = block then some mem
    else if (header_at mem current).next = block then
      if (header_at mem current).is_free ≠ 0 then
        let mem := set_size mem current ((header_at mem current).size + (HEADER_SIZE + (header_at mem block).size))
        some (set_next mem current (header_at mem block).next)
      else some mem
    else merge_prev block mem fuel (header_at mem current).next

def kfree (fuel : ℕ) (st : Heap) (ptr : ℕ) : Option Heap :=
  if ptr = 0 then some st
  else do
    let block := ptr - HEADER_SIZE
    let mem := merge_next (set_free st.mem block 1) block
    let mem ← merge_prev block mem fuel st.heap_start
    return { st with mem }

structure heap_stats_t where
  total_size : ℕ
  used_size : ℕ
  free_size : ℕ
  num_blocks : ℕ
  num_free_blocks : ℕ
  deriving DecidableEq

/-- One round of the loop of `kmalloc_get_stats`, in `uint32_t`. -/
def count_block (stats : heap_stats_t) (block : block_header_t) : heap_stats_t :=
  let stats := { stats with num_blocks := (stats.num_blocks + 1) % 2 ^ 32 }
  if block.is_free ≠ 0 then
    { stats with
      num_free_blocks := (stats.num_free_blocks + 1) % 2 ^ 32
      free_size := (stats.free_size + block.size) % 2 ^ 32 }
  else { stats with used_size := (stats.used_size + block.size) % 2 ^ 32 }

def stats_loop (mem : ℕ → UInt8) : ℕ → heap_stats_t → ℕ → Option heap_stats_t
  | 0, _, _ => none
  | fuel + 1, stats, current =>
    if current = 0 then some stats
    else stats_loop mem fuel (count_block stats (header_at mem current)) (header_at mem current).next

/-- The counters before the loop. -/
def zero_stats (total_size : ℕ) : heap_stats_t :=
  { total_size, used_size := 0, free_size := 0, num_blocks := 0, num_free_blocks := 0 }

def kmalloc_get_stats (fuel : ℕ) (st : Heap) : Option heap_stats_t :=
  stats_loop st.mem fuel (zero_stats (st.dynamic_heap_size % 2 ^ 32)) st.heap_start

/-- Headers are read from sixteen bytes. -/
theorem header_congr {mem mem' : ℕ → UInt8} {x : ℕ} (h : ∀ j, x ≤ j → j < x + 16 → mem' j = mem j) :
    header_at mem' x = header_at mem x := by
  have h₁ : le32 mem' x = le32 mem x := le32_congr fun k hk => h _ (by omega) (by omega)
  have h₂ : le32 mem' (x + 4) = le32 mem (x + 4) := le32_congr fun k hk => h _ (by omega) (by omega)
  have h₃ : le64 mem' (x + 8) = le64 mem (x + 8) := le64_congr fun k hk => h _ (by omega) (by omega)
  simp only [header_at, h₁, h₂, h₃]

@[simp] theorem header_set_size (mem : ℕ → UInt8) (x size : ℕ) :
    header_at (set_size mem x size) x = { header_at mem x with size := size % 2 ^ 32 } := by
  have h₂ : le32 (set_size mem x size) (x + 4) = le32 mem (x + 4) := le32_put32_of_disjoint (by omega)
  have h₃ : le64 (set_size mem x size) (x + 8) = le64 mem (x + 8) :=
    le64_congr fun k hk => put32_of_outside (by omega)
  simp only [header_at, h₂, h₃]
  rw [set_size, le32_put32_mod, Nat.mod_mod]

@[simp] theorem header_set_free {is_free : ℕ} (mem : ℕ → UInt8) (x : ℕ) (h : is_free < 2 ^ 32) :
    header_at (set_free mem x is_free) x = { header_at mem x with is_free } := by
  have h₁ : le32 (set_free mem x is_free) x = le32 mem x := le32_put32_of_disjoint (by omega)
  have h₃ : le64 (set_free mem x is_free) (x + 8) = le64 mem (x + 8) :=
    le64_congr fun k hk => put32_of_outside (by omega)
  simp only [header_at, h₁, h₃]
  rw [set_free, le32_put32_same h]

@[simp] theorem header_set_next {next : ℕ} (mem : ℕ → UInt8) (x : ℕ) (h : next < 2 ^ 64) :
    header_at (set_next mem x next) x = { header_at mem x with next } := by
  have h₁ : le32 (set_next mem x next) x = le32 mem x :=
    le32_congr fun k hk => put64_of_outside (by omega)
  have h₂ : le32 (set_next mem x next) (x + 4) = le32 mem (x + 4) :=
    le32_congr fun k hk => put64_of_outside (by omega)
  simp only [header_at, h₁, h₂]
  rw [set_next, le64_put64_same h]

/-- Two headers that do not overlap. -/
def Apart (x y : ℕ) : Prop := y + 16 ≤ x ∨ x + 16 ≤ y

theorem header_set_size_apart {mem : ℕ → UInt8} {x y size : ℕ} (h : Apart x y) :
    header_at (set_size mem x size) y = header_at mem y := by
  unfold Apart at h
  exact header_congr fun j _ _ => put32_of_outside (by omega)

theorem header_set_free_apart {mem : ℕ → UInt8} {x y is_free : ℕ} (h : Apart x y) :
    header_at (set_free mem x is_free) y = header_at mem y := by
  unfold Apart at h
  exact header_congr fun j _ _ => put32_of_outside (by omega)

theorem header_set_next_apart {mem : ℕ → UInt8} {x y next : ℕ} (h : Apart x y) :
    header_at (set_next mem x next) y = header_at mem y := by
  unfold Apart at h
  exact header_congr fun j _ _ => put64_of_outside (by omega)

end os_dev.heap
