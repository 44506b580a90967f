import OsDev.Mm.BootInfo
import OsDev.Mm.FrameOwners

open little_endian bitmap fuel

namespace os_dev.pmm

variable {mem memory : Memory} {kernel : KernelImage} {magic mbd : ℕ} {st : Pmm} {info : boot_info_t}
  {entry : mmap_entry_t}

/-- The block lies in the entry as a whole. -/
def mmap_entry_t.Contains (entry : mmap_entry_t) (b : ℕ) : Prop :=
  entry.addr ≤ b * PMM_BLOCK_SIZE ∧ (b + 1) * PMM_BLOCK_SIZE ≤ entry.addr + entry.len

/-- The block is outside of page 0 and of the ranges of the kernel image, the ramdisk
    and the initrd. -/
structure Spared (kernel : KernelImage) (magic : ℕ) (info : boot_info_t) (b : ℕ) : Prop where
  page_zero : b ≠ 0
  kernel_image : ¬ (kernel.kernel_start / PMM_BLOCK_SIZE ≤ b ∧ b ≤ kernel.kernel_end / PMM_BLOCK_SIZE)
  ramdisk : ∀ module ∈ info.modules, module.is_ramdisk = true → ¬ module.Covers b
  initrd : ∀ module ∈ info.modules, module.is_initrd magic = true → ¬ module.Covers b

theorem last_module_eq (kind : module_t → Bool) (modules : List module_t) (last : Option module_t) :
    last_module kind modules last = (modules.filter kind).getLast?.or last := by
  induction modules generalizing last with
  | nil => rfl
  | cons module modules ih =>
    rw [last_module, ih]
    by_cases hkind : kind module = true
    · rw [List.filter_cons_of_pos hkind, if_pos hkind, List.getLast?_cons]
      cases (modules.filter kind).getLast? <;> rfl
    · rw [List.filter_cons_of_neg hkind, if_neg hkind]

/-- A module that is the only one of its kind is the last one. -/
theorem mem_last_module {kind : module_t → Bool} {modules : List module_t} (hone : (modules.filter kind).length ≤ 1)
    {module : module_t} : module ∈ last_module kind modules none ↔ module ∈ modules ∧ kind module = true := by
  rw [last_module_eq, Option.or_none, ← List.mem_filter]
  match modules.filter kind, hone with
  | [], _ => simp
  | [m], _ => simp [eq_comm]

theorem kept_iff (hramdisk : (info.modules.filter module_t.is_ramdisk).length ≤ 1)
    (hinitrd : (info.modules.filter (module_t.is_initrd magic)).length ≤ 1) (b : ℕ) :
    ¬ Kept kernel magic info b ↔ Spared kernel magic info b := by
  simp only [Kept, mem_last_module hramdisk, mem_last_module hinitrd, not_or, not_exists, not_and]
  constructor
  · rintro ⟨hkernel, hzero, hin, hdisk⟩
    exact ⟨hzero, fun h => hkernel h.1 h.2, fun module hmem hkind => hdisk module ⟨hmem, hkind⟩,
      fun module hmem hkind => hin module ⟨hmem, hkind⟩⟩
  · rintro ⟨hzero, hkernel, hdisk, hin⟩
    exact ⟨fun h₁ h₂ => hkernel ⟨h₁, h₂⟩, hzero, fun module h => hin module h.1 h.2, fun module h => hdisk module h.1 h.2⟩

/-- The entry is page-aligned and ends by `2 ^ 44`. -/
structure Aligned (entry : mmap_entry_t) : Prop where
  addr : PMM_BLOCK_SIZE ∣ entry.addr
  len : PMM_BLOCK_SIZE ∣ entry.len
  le : entry.addr + entry.len ≤ 2 ^ 44

/-- Both loops clear the blocks of an aligned entry, but for the one entry whose number
    of blocks is cast to 0 by the multiboot2 loop. -/
theorem Aligned.clears_iff (h : Aligned entry) (magic b : ℕ) :
    ClearsBlock magic entry b ↔
      (magic = MULTIBOOT1_MAGIC ∨ entry.len ≠ 2 ^ 44) ∧ entry.type = 1 ∧ b < PMM_BLOCKS ∧ entry.Contains b := by
  have hN := PMM_BLOCKS_eq
  obtain ⟨⟨i, hi⟩, ⟨n, hn⟩, hle⟩ := h
  simp only [PMM_BLOCK_SIZE] at hi hn
  unfold ClearsBlock
  split
  · rename_i hmagic
    simp only [hmagic, true_or, true_and, MultibootClears, mmap_entry_t.Contains, PMM_BLOCK_SIZE]
    refine and_congr_right fun _ => and_congr_right fun hb => ?_
    rw [Nat.mod_eq_of_lt (show entry.addr + entry.len < 2 ^ 64 by omega)]
    constructor
    · rintro ⟨k, hk, rfl⟩
      omega
    · rintro ⟨hlow, hhigh⟩
      exact ⟨b - i, by omega, by omega⟩
  · rename_i hmagic
    simp only [hmagic, false_or, Multiboot2Clears, mmap_entry_t.Contains, PMM_BLOCK_SIZE]
    omega

/-- After `pmm_init` the tracked free blocks are those of the available entries that
    lie outside of everything protected, exactly if the format is multiboot1 or what an
    entry of `2 ^ 44` bytes contains lies in other available entries as well. -/
theorem pmm_init_free_set_iff (h : Reports mem magic mbd info) (haligned : ∀ entry ∈ info.entries, Aligned entry)
    (hramdisk : (info.modules.filter module_t.is_ramdisk).length ≤ 1)
    (hinitrd : (info.modules.filter (module_t.is_initrd magic)).length ≤ 1) (kernel : KernelImage) (memory : Memory) :
    ∃ st, Returns (fun fuel => pmm_init fuel mem kernel magic mbd (static_pmm memory)) st ∧
      ((∀ b, b < PMM_BLOCKS ∧ Free st b ↔
          (∃ entry ∈ info.entries, entry.type = 1 ∧ entry.Contains b) ∧ b < PMM_BLOCKS ∧ Spared kernel magic info b) ↔
        magic = MULTIBOOT1_MAGIC ∨ ∀ whole ∈ info.entries, whole.type = 1 → whole.len = 2 ^ 44 →
          ∀ b < PMM_BLOCKS, Spared kernel magic info b →
            ∃ entry ∈ info.entries, entry.type = 1 ∧ entry.len ≠ 2 ^ 44 ∧ entry.Contains b) := by
  have hN := PMM_BLOCKS_eq
  obtain ⟨st, hst⟩ := pmm_init_returns h (fun entry hmem _ => by
    have hle := (haligned entry hmem).le
    simp only [PMM_BLOCK_SIZE]
    omega) kernel (static_pmm memory)
  have hfree : ∀ b, b < PMM_BLOCKS ∧ Free st b ↔ b < PMM_BLOCKS ∧ Spared kernel magic info b ∧
      ∃ entry ∈ info.entries, (magic = MULTIBOOT1_MAGIC ∨ entry.len ≠ 2 ^ 44) ∧ entry.type = 1 ∧ entry.Contains b := by
    intro b
    refine and_congr_right fun hb => (pmm_init_free h hst hb).trans ?_
    rw [kept_iff hramdisk hinitrd, and_comm]
    refine and_congr_right fun _ => exists_congr fun entry => and_congr_right fun hmem => ?_
    rw [(haligned entry hmem).clears_iff]
    simp only [hb, true_and]
  refine ⟨st, hst, ?_⟩
  simp only [hfree]
  by_cases hmagic : magic = MULTIBOOT1_MAGIC
  · simp only [hmagic, true_or, true_and, iff_true]
    intro b
    constructor
    · rintro ⟨hb, hspared, hentry⟩
      exact ⟨hentry, hb, hspared⟩
    · rintro ⟨hentry, hb, hspared⟩
      exact ⟨hb, hspared, hentry⟩
  · simp only [hmagic, false_or]
    constructor
    · intro hset whole hmem htype hlen b hb hspared
      have haddr := (haligned whole hmem).le
      have hcontains : whole.Contains b := by
        simp only [mmap_entry_t.Contains, PMM_BLOCK_SIZE]
        omega
      obtain ⟨-, -, entry, hentry, hne, htype', hin⟩ := (hset b).mpr ⟨⟨whole, hmem, htype, hcontains⟩, hb, hspared⟩
      exact ⟨entry, hentry, htype', hne, hin⟩
    · intro hcover b
      constructor
      · rintro ⟨hb, hspared, entry, hentry, -, htype, hin⟩
        exact ⟨⟨entry, hentry, htype, hin⟩, hb, hspared⟩
      · rintro ⟨⟨whole, hmem, htype, hin⟩, hb, hspared⟩
        by_cases hlen : whole.len = 2 ^ 44
        · obtain ⟨entry, hentry, htype', hne, hin'⟩ := hcover whole hmem htype hlen b hb hspared
          exact ⟨hb, hspared, entry, hentry, hne, htype', hin'⟩
        · exact ⟨hb, hspared, whole, hmem, hlen, htype, hin⟩

theorem last_module_none {kind : module_t → Bool} {modules : List module_t} (hnone : ∀ module ∈ modules, kind module = false) :
    last_module kind modules none = none := by
  rw [last_module_eq, List.filter_eq_nil_iff.mpr fun module hmem => by simp [hnone module hmem]]
  rfl

/-- On one map, with one ramdisk and no initrd, both formats leave the same blocks free. -/
theorem boot_formats_agree {mem' : Memory} {mbd' : ℕ} {info' : boot_info_t} {st' : Pmm} {b : ℕ}
    (h : Reports mem MULTIBOOT1_MAGIC mbd info) (h' : Reports mem' MULTIBOOT2_MAGIC mbd' info')
    (hmap : info'.entries = info.entries)
    (hramdisk : last_module module_t.is_ramdisk info'.modules none = last_module module_t.is_ramdisk info.modules none)
    (hinitrd : ∀ module ∈ info'.modules, module.is_initrd MULTIBOOT2_MAGIC = false)
    (haligned : ∀ entry ∈ info.entries, Aligned entry) (hwhole : ∀ entry ∈ info.entries, entry.len ≠ 2 ^ 44)
    (hst : Returns (fun fuel => pmm_init fuel mem kernel MULTIBOOT1_MAGIC mbd (static_pmm memory)) st)
    (hst' : Returns (fun fuel => pmm_init fuel mem' kernel MULTIBOOT2_MAGIC mbd' (static_pmm memory)) st')
    (hb : b < PMM_BLOCKS) : Free st b ↔ Free st' b := by
  rw [pmm_init_free h hst hb, pmm_init_free h' hst' hb, Kept, Kept, hramdisk, last_module_none hinitrd,
    last_module_none fun module _ => show module.is_initrd MULTIBOOT1_MAGIC = false from rfl, Cleared, Cleared, hmap]
  refine and_congr_left fun _ => exists_congr fun entry => and_congr_right fun hmem => ?_
  rw [(haligned entry hmem).clears_iff, (haligned entry hmem).clears_iff]
  exact and_congr_left fun _ => iff_of_true (.inl rfl) (.inr (hwhole entry hmem))

/-- A multiboot2 block at `0x9000` whose map has a single entry, with all of the first
    `2 ^ 44` bytes. -/
def whole_info : Memory := fun i =>
  ([(0x9000, 56), (0x9008, 6), (0x900C, 40), (0x9010, 24), (0x9025, 0x10), (0x9028, 1), (0x9034, 8)].lookup i).getD 0

def whole_map : boot_info_t := ⟨[⟨0, 2 ^ 44, 1⟩], []⟩

theorem whole_reports : Reports whole_info MULTIBOOT2_MAGIC 0x9000 whole_map := by
  refine ⟨.inr ⟨rfl, [0x9008], ?_⟩, fun module hmem => absurd hmem List.not_mem_nil⟩
  have htag : TagAt whole_info 0x9000 8 6 := ⟨by decide +kernel, by decide +kernel, by decide +kernel⟩
  have hend : TagAt whole_info 0x9000 48 0 := ⟨by decide +kernel, by decide +kernel, by decide +kernel⟩
  have hmap : Multiboot2Map whole_info (0x9000 + 8) whole_map.entries :=
    ⟨by decide +kernel, by decide +kernel, by decide +kernel⟩
  have hnext : next_tag whole_info 0x9000 8 = 48 := by decide +kernel
  exact .map htag hmap (hnext ▸ .end_tag hend)

theorem whole_aligned : ∀ entry ∈ whole_map.entries, Aligned entry := by
  intro entry hmem
  obtain rfl := List.mem_singleton.mp hmem
  exact ⟨by decide, by decide, by decide⟩

theorem whole_free_set_iff : ∃ st, Returns (fun fuel => pmm_init fuel whole_info half_megabyte MULTIBOOT2_MAGIC 0x9000
      (static_pmm fun _ => 0)) st ∧
    ((∀ b, b < PMM_BLOCKS ∧ Free st b ↔ (∃ entry ∈ whole_map.entries, entry.type = 1 ∧ entry.Contains b) ∧
        b < PMM_BLOCKS ∧ Spared half_megabyte MULTIBOOT2_MAGIC whole_map b) ↔
      MULTIBOOT2_MAGIC = MULTIBOOT1_MAGIC ∨ ∀ whole ∈ whole_map.entries, whole.type = 1 → whole.len = 2 ^ 44 →
        ∀ b < PMM_BLOCKS, Spared half_megabyte MULTIBOOT2_MAGIC whole_map b →
          ∃ entry ∈ whole_map.entries, entry.type = 1 ∧ entry.len ≠ 2 ^ 44 ∧ entry.Contains b) :=
  pmm_init_free_set_iff whole_reports whole_aligned (by decide) (by decide) half_megabyte _

/-- With the first `2 ^ 44` bytes as one available entry, not even page 1 is free. -/
theorem whole_map_not_freed : Reports whole_info MULTIBOOT2_MAGIC 0x9000 whole_map ∧
    (∀ entry ∈ whole_map.entries, Aligned entry) ∧ whole_map.modules = [] ∧
    (∃ entry ∈ whole_map.entries, entry.type = 1 ∧ entry.Contains 1) ∧
    Spared half_megabyte MULTIBOOT2_MAGIC whole_map 1 ∧
    ∃ st, Returns (fun fuel => pmm_init fuel whole_info half_megabyte MULTIBOOT2_MAGIC 0x9000 (static_pmm fun _ => 0)) st ∧
      ¬ Free st 1 := by
  refine ⟨whole_reports, whole_aligned, rfl, ⟨_, List.mem_cons_self, rfl, by decide, by decide⟩,
    ⟨by decide, by decide, fun module hmem => absurd hmem List.not_mem_nil, fun module hmem => absurd hmem List.not_mem_nil⟩, ?_⟩
  obtain ⟨st, hst⟩ := pmm_init_returns whole_reports (fun entry hmem _ => by
    obtain rfl := List.mem_singleton.mp hmem
    decide) half_megabyte (static_pmm fun _ => 0)
  refine ⟨st, hst, fun hfree => ?_⟩
  obtain ⟨⟨entry, hmem, hclears⟩, -⟩ := (pmm_init_free whole_reports hst (by decide)).mp hfree
  have hcast := ((whole_aligned entry hmem).clears_iff _ _).mp hclears
  obtain rfl := List.mem_singleton.mp hmem
  exact hcast.1.elim (by decide) fun hne => hne rfl

end os_dev.pmm
