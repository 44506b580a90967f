import OsDev.Mm.FreeSet

open little_endian bitmap fuel

namespace os_dev.pmm

variable {mem memory : Memory} {kernel : KernelImage} {magic mbd : ℕ} {st : Pmm} {info : boot_info_t}
  {entry : mmap_entry_t}

/-- The memory map reports a byte as anything else than available. -/
def ReservedByte (entries : List mmap_entry_t) (byte : ℕ) : Prop :=
  ∃ entry ∈ entries, entry.type ≠ 1 ∧ entry.addr ≤ byte ∧ byte < entry.addr + entry.len

/-- The loop over the entry clears the block, which the entry does not contain. -/
def Straddles (magic : ℕ) (entry : mmap_entry_t) (b : ℕ) : Prop := ClearsBlock magic entry b ∧ ¬ entry.Contains b

theorem mmap_entry_t.Contains.available {entries : List mmap_entry_t} {b : ℕ} (hmem : entry ∈ entries)
    (htype : entry.type = 1) (h : entry.Contains b) :
    ∀ byte, InFrame (b * PMM_BLOCK_SIZE) byte → Available entries byte := by
  rintro byte ⟨hlow, hhigh⟩
  obtain ⟨hfirst, hlast⟩ := h
  exact ⟨entry, hmem, htype, by omega, by simp only [Nat.add_mul, Nat.one_mul] at hlast; omega⟩

theorem ClearsBlock.type_eq {b : ℕ} (h : ClearsBlock magic entry b) : entry.type = 1 := by
  unfold ClearsBlock at h
  split at h <;> exact h.1

/-- Where nothing is cast, a multiboot1 entry straddles the page it starts in, unless it
    starts with the page, and the page it ends in, if the loop gets there. -/
theorem straddles_multiboot_iff (hend : entry.addr + entry.len ≤ 2 ^ 44) (b : ℕ) :
    Straddles MULTIBOOT1_MAGIC entry b ↔ entry.type = 1 ∧ b < PMM_BLOCKS ∧ 0 < entry.len ∧
      (b = entry.addr / PMM_BLOCK_SIZE ∧ entry.addr % PMM_BLOCK_SIZE ≠ 0 ∨
        b = (entry.addr + entry.len) / PMM_BLOCK_SIZE ∧
          entry.addr % PMM_BLOCK_SIZE < (entry.addr + entry.len) % PMM_BLOCK_SIZE) := by
  have hN := PMM_BLOCKS_eq
  simp only [Straddles, ClearsBlock, if_true, MultibootClears, mmap_entry_t.Contains, PMM_BLOCK_SIZE, and_assoc]
  refine and_congr_right fun _ => and_congr_right fun hb => ?_
  rw [Nat.mod_eq_of_lt (show entry.addr + entry.len < 2 ^ 64 by omega)]
  constructor
  · rintro ⟨⟨k, hk, rfl⟩, hnot⟩
    omega
  · rintro ⟨hlen, hcases⟩
    exact ⟨⟨b - entry.addr / 4096, by omega, by omega⟩, by omega⟩

/-- A multiboot2 entry only straddles the page it starts in. -/
theorem straddles_multiboot2_iff (hend : entry.addr + entry.len < 2 ^ 44) (b : ℕ) :
    Straddles MULTIBOOT2_MAGIC entry b ↔ entry.type = 1 ∧ b < PMM_BLOCKS ∧ PMM_BLOCK_SIZE ≤ entry.len ∧
      b = entry.addr / PMM_BLOCK_SIZE ∧ entry.addr % PMM_BLOCK_SIZE ≠ 0 := by
  have hN := PMM_BLOCKS_eq
  simp only [Straddles, ClearsBlock, if_neg (show ¬ MULTIBOOT2_MAGIC = MULTIBOOT1_MAGIC by decide), Multiboot2Clears,
    mmap_entry_t.Contains, PMM_BLOCK_SIZE]
  omega

/-- After `pmm_init` every tracked free block consists of available bytes, none of them
    reserved, exactly if this is so of the unprotected blocks that the loop over an
    available entry straddles, and no reserved entry reaches into a block that is cleared. -/
theorem pmm_init_whole_pages_iff (h : Reports mem magic mbd info)
    (hinit : Returns (fun fuel => pmm_init fuel mem kernel magic mbd (static_pmm memory)) st) :
    (∀ b < PMM_BLOCKS, Free st b → ∀ byte, InFrame (b * PMM_BLOCK_SIZE) byte →
        Available info.entries byte ∧ ¬ ReservedByte info.entries byte) ↔
      ∀ entry ∈ info.entries, ∀ b, ¬ Kept kernel magic info b →
        (Straddles magic entry b → ∀ byte, InFrame (b * PMM_BLOCK_SIZE) byte → Available info.entries byte) ∧
        (ClearsBlock magic entry b → ∀ byte, InFrame (b * PMM_BLOCK_SIZE) byte → ¬ ReservedByte info.entries byte) := by
  constructor
  · intro hall entry hmem b hkept
    have hbytes : ClearsBlock magic entry b → ∀ byte, InFrame (b * PMM_BLOCK_SIZE) byte →
        Available info.entries byte ∧ ¬ ReservedByte info.entries byte := by
      intro hclears
      have hcleared : Cleared magic info.entries b := ⟨entry, hmem, hclears⟩
      have hb := cleared_lt hcleared
      exact hall b hb ((pmm_init_free h hinit hb).mpr ⟨hcleared, hkept⟩)
    exact ⟨fun hstraddles byte hin => (hbytes hstraddles.1 byte hin).1, fun hclears byte hin => (hbytes hclears byte hin).2⟩
  · intro hcond b hb hfree byte hin
    obtain ⟨⟨entry, hmem, hclears⟩, hkept⟩ := (pmm_init_free h hinit hb).mp hfree
    obtain ⟨havailable, hreserved⟩ := hcond entry hmem b hkept
    refine ⟨?_, hreserved hclears byte hin⟩
    by_cases hcontains : entry.Contains b
    · exact hcontains.available hmem hclears.type_eq byte hin
    · exact havailable ⟨hclears, hcontains⟩ byte hin

/-- A multiboot1 block at `0x9000` whose map has the conventional memory up to `0x9FC00`
    and the reserved kilobyte behind it. -/
def conventional_info : Memory := fun i =>
  ([(0x9000, 0x40), (0x902C, 48), (0x9031, 0x91), (0x9100, 20), (0x910D, 0xFC), (0x910E, 0x09), (0x9114, 1),
    (0x9118, 20), (0x911D, 0xFC), (0x911E, 0x09), (0x9125, 0x04), (0x912C, 2)].lookup i).getD 0

def conventional_map : boot_info_t := ⟨[⟨0, 0x9FC00, 1⟩, ⟨0x9FC00, 0x400, 2⟩], []⟩

theorem conventional_reports : Reports conventional_info MULTIBOOT1_MAGIC 0x9000 conventional_map := by
  refine ⟨.inl ⟨rfl, ?_, ?_⟩, fun module hmem => absurd hmem List.not_mem_nil⟩
  · have haddr : le32 conventional_info (0x9000 + 48) = 0x9100 := by decide +kernel
    have hlength : le32 conventional_info (0x9000 + 44) = 48 := by decide +kernel
    have hfirst : le32 conventional_info 0x9100 = 20 := by decide +kernel
    have hsecond : le32 conventional_info 0x9118 = 20 := by decide +kernel
    have hentries : conventional_map.entries =
        [multiboot_entry_at conventional_info 0x9100, multiboot_entry_at conventional_info 0x9118] := by decide +kernel
    have hrest : MultibootMap conventional_info (0x9100 + 48) 0x9118 [multiboot_entry_at conventional_info 0x9118] :=
      .cons (by omega) (by omega) (by rw [hsecond]; exact .nil)
    rw [if_pos (by decide +kernel), haddr, hlength, hentries]
    exact ⟨by decide, .cons (by omega) (by omega) (by rw [hfirst]; exact hrest)⟩
  · rw [if_neg (by decide +kernel)]
    rfl

theorem conventional_returns : ∃ st, Returns (fun fuel => pmm_init fuel conventional_info half_megabyte
    MULTIBOOT1_MAGIC 0x9000 (static_pmm fun _ => 0)) st := by
  refine pmm_init_returns conventional_reports (fun entry hmem _ => ?_) half_megabyte _
  simp only [conventional_map, List.mem_cons, List.not_mem_nil, or_false] at hmem
  obtain rfl | rfl := hmem <;> decide

theorem conventional_whole_pages_iff : ∃ st, Returns (fun fuel => pmm_init fuel conventional_info half_megabyte
      MULTIBOOT1_MAGIC 0x9000 (static_pmm fun _ => 0)) st ∧
    ((∀ b < PMM_BLOCKS, Free st b → ∀ byte, InFrame (b * PMM_BLOCK_SIZE) byte →
        Available conventional_map.entries byte ∧ ¬ ReservedByte conventional_map.entries byte) ↔
      ∀ entry ∈ conventional_map.entries, ∀ b, ¬ Kept half_megabyte MULTIBOOT1_MAGIC conventional_map b →
        (Straddles MULTIBOOT1_MAGIC entry b → ∀ byte, InFrame (b * PMM_BLOCK_SIZE) byte →
          Available conventional_map.entries byte) ∧
        (ClearsBlock MULTIBOOT1_MAGIC entry b → ∀ byte, InFrame (b * PMM_BLOCK_SIZE) byte →
          ¬ ReservedByte conventional_map.entries byte)) := by
  obtain ⟨st, hst⟩ := conventional_returns
  exact ⟨st, hst, pmm_init_whole_pages_iff conventional_reports hst⟩

/-- The page of `0x9FC00` is free, and its last kilobyte is reserved. -/
theorem conventional_page_freed : Reports conventional_info MULTIBOOT1_MAGIC 0x9000 conventional_map ∧
    ∃ st, Returns (fun fuel => pmm_init fuel conventional_info half_megabyte MULTIBOOT1_MAGIC 0x9000
        (static_pmm fun _ => 0)) st ∧
      Free st 0x9F ∧ InFrame (0x9F * PMM_BLOCK_SIZE) 0x9FC00 ∧ ReservedByte conventional_map.entries 0x9FC00 ∧
      ¬ Available conventional_map.entries 0x9FC00 := by
  refine ⟨conventional_reports, ?_⟩
  obtain ⟨st, hst⟩ := conventional_returns
  refine ⟨st, hst, (pmm_init_free conventional_reports hst (by decide)).mpr ⟨⟨_, List.mem_cons_self, ?_⟩, ?_⟩,
    ⟨by decide, by decide⟩, ⟨_, List.mem_cons_of_mem _ List.mem_cons_self, by decide, by decide, by decide⟩, ?_⟩
  · exact ((straddles_multiboot_iff (by decide) 0x9F).mpr (by decide)).1
  · simp only [Kept, not_or]
    exact ⟨by decide, by decide, by simp [conventional_map, last_module], by simp [conventional_map, last_module]⟩
  · rintro ⟨entry, hmem, htype, hlow, hhigh⟩
    simp only [conventional_map, List.mem_cons, List.not_mem_nil, or_false] at hmem
    obtain rfl | rfl := hmem
    · exact absurd hhigh (by decide)
    · exact absurd htype (by decide)

end os_dev.pmm
