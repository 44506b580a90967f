import OsDev.Mm.Frames

open little_endian bitmap fuel

namespace os_dev.pmm

variable {st st' st'' : Pmm} {S T : ℕ → Prop}

/-- The recorded module addresses come from 32-bit fields. -/
structure ModulesBounded (st : Pmm) : Prop where
  ramdisk_start : st.ramdisk_start < 2 ^ 32
  ramdisk_size : st.ramdisk_size < 2 ^ 32
  initrd_start : st.initrd_brain_start < 2 ^ 32
  initrd_end : st.initrd_brain_end < 2 ^ 32

/-- The blocks of `S` have been released and no others touched. -/
structure Releases (st st' : Pmm) (S : ℕ → Prop) : Prop where
  free : ∀ c, Free st' c ↔ Free st c ∨ S c
  counted : Counted st → Counted st'
  hint : st'.last_free_bit = st.last_free_bit
  modules : ModulesBounded st → ModulesBounded st'

theorem Releases.congr (h : Releases st st' S) (hST : ∀ c, S c ↔ T c) : Releases st st' T :=
  ⟨fun c => by rw [h.free, hST], h.counted, h.hint, h.modules⟩

/-- Nothing is released by a change of the other variables. -/
theorem Releases.of_same (hbits : st'.pmm_bitmap = st.pmm_bitmap) (hcount : st'.free_blocks = st.free_blocks)
    (hhint : st'.last_free_bit = st.last_free_bit) (hmodules : ModulesBounded st → ModulesBounded st') :
    Releases st st' fun _ => False :=
  ⟨fun c => by simp [Free, hbits], fun h => by rw [Counted, hbits, hcount]; exact h, hhint, hmodules⟩

theorem Releases.refl (st : Pmm) : Releases st st fun _ => False := .of_same rfl rfl rfl id

theorem Releases.none (st : Pmm) (hnone : ∀ c, ¬ S c) : Releases st st S :=
  (Releases.refl st).congr fun c => iff_of_false id (hnone c)

theorem Releases.trans (h₁ : Releases st st' S) (h₂ : Releases st' st'' T) : Releases st st'' fun c => S c ∨ T c :=
  ⟨fun c => by rw [h₂.free, h₁.free, or_assoc], fun h => h₂.counted (h₁.counted h), h₂.hint.trans h₁.hint,
    fun h => h₂.modules (h₁.modules h)⟩

theorem Releases.clear_bit (st : Pmm) {block : ℕ} (hblock : block < PMM_BLOCKS) :
    Releases st (pmm_clear_bit st block) fun c => c = block := by
  refine ⟨fun c => by rw [free_clear_bit, or_comm], fun h => h.clear_bit hblock, clear_bit_last st block, fun h => ?_⟩
  unfold pmm_clear_bit
  split
  · exact ⟨h.1, h.2, h.3, h.4⟩
  · exact h

/-- The blocks that the loop of a multiboot1 entry clears: those of the addresses
    `addr`, `addr + 4096`, ... before the end of the entry. -/
def MultibootFrees (entry : mmap_entry_t) (c : ℕ) : Prop :=
  entry.type = 1 ∧ entry.addr / PMM_BLOCK_SIZE ≤ c ∧
    PMM_BLOCK_SIZE * (c - entry.addr / PMM_BLOCK_SIZE) < entry.len

/-- The blocks that the loop of a multiboot2 entry clears: as many from the block of
    `addr` on as the length holds. -/
def Multiboot2Frees (entry : mmap_entry_t) (c : ℕ) : Prop :=
  entry.type = 1 ∧ entry.addr / PMM_BLOCK_SIZE ≤ c ∧
    PMM_BLOCK_SIZE * (c - entry.addr / PMM_BLOCK_SIZE + 1) ≤ entry.len

/-- The entry makes a block of the map available. -/
def FreesBlock (magic : ℕ) (entry : mmap_entry_t) (c : ℕ) : Prop :=
  if magic = MULTIBOOT1_MAGIC then MultibootFrees entry c else Multiboot2Frees entry c

/-- The available memory of the map ends below the 16 GB that the bitmap tracks. -/
def BelowLimit (entries : List mmap_entry_t) : Prop :=
  ∀ entry ∈ entries, entry.type = 1 → entry.addr + entry.len < 2 ^ 34

/-- The tracked blocks that the loop of any multiboot1 entry clears: those of the
    addresses `addr`, `addr + 4096`, ... before the end, with the cast to 32 bits. -/
def MultibootClears (entry : mmap_entry_t) (c : ℕ) : Prop :=
  entry.type = 1 ∧ c < PMM_BLOCKS ∧ ∃ k, entry.addr + PMM_BLOCK_SIZE * k < (entry.addr + entry.len) % 2 ^ 64 ∧
    (entry.addr / PMM_BLOCK_SIZE + k) % 2 ^ 32 = c

/-- The tracked blocks that the loop of any multiboot2 entry clears, with both casts to
    32 bits. -/
def Multiboot2Clears (entry : mmap_entry_t) (c : ℕ) : Prop :=
  entry.type = 1 ∧ c < PMM_BLOCKS ∧ entry.addr / PMM_BLOCK_SIZE % 2 ^ 32 ≤ c ∧
    c < entry.addr / PMM_BLOCK_SIZE % 2 ^ 32 + entry.len / PMM_BLOCK_SIZE % 2 ^ 32

def ClearsBlock (magic : ℕ) (entry : mmap_entry_t) (c : ℕ) : Prop :=
  if magic = MULTIBOOT1_MAGIC then MultibootClears entry c else Multiboot2Clears entry c

/-- The blocks that the entries of any map clear. -/
def Cleared (magic : ℕ) (entries : List mmap_entry_t) (c : ℕ) : Prop := ∃ entry ∈ entries, ClearsBlock magic entry c

/-- A loop that wraps around the end of the address space does not end. So the loop has
    gone through the addresses before the end of the region. -/
theorem clear_region_releases {fuel addr len : ℕ} (h : clear_region fuel st addr len = some st') :
    Releases st st' fun c => c < PMM_BLOCKS ∧ ∃ k, addr + PMM_BLOCK_SIZE * k < (addr + len) % 2 ^ 64 ∧
      (addr / PMM_BLOCK_SIZE + k) % 2 ^ 32 = c := by
  have hend := Nat.mod_lt (addr + len) (show 0 < 2 ^ 64 by decide)
  simp only [clear_region, PMM_BLOCK_SIZE] at h ⊢
  generalize (addr + len) % 2 ^ 64 = end_addr at h hend ⊢
  -- after `k` rounds the blocks of the first `k` addresses are clear, or the address has wrapped
  obtain ⟨⟨addr', st₁⟩, hinv, hexit⟩ := loop_invariant
    (I := fun s : ℕ × Pmm => (∃ k, s.1 = addr + 4096 * k ∧ (∀ j < k, addr + 4096 * j < end_addr) ∧
        Releases st s.2 fun c => c < PMM_BLOCKS ∧ ∃ j < k, (addr / 4096 + j) % 2 ^ 32 = c) ∨
      s.1 % 4096 = addr % 4096 ∧ s.1 < 2 ^ 64 ∧ 2 ^ 64 - 4096 + addr % 4096 < end_addr)
    (by
      rintro ⟨addr', st₁⟩ hexit hinv
      simp only at hinv hexit ⊢
      have hlt : addr' < end_addr := by
        by_contra hnot
        simp only [if_neg hnot, reduceCtorEq] at hexit
      obtain ⟨k, rfl, hbefore, hrel⟩ | ⟨hmod, hbound, hwraps⟩ := hinv
      · by_cases hwrap : addr + 4096 * k + 4096 < 2 ^ 64
        · have hblock : (addr + 4096 * k) / 4096 = addr / 4096 + k := by omega
          refine .inl ⟨k + 1, by omega, fun j hj => ?_, ?_⟩
          · obtain hj | rfl := Nat.lt_succ_iff_lt_or_eq.mp hj
            · exact hbefore j hj
            · exact hlt
          · simp only [hblock]
            have hsplit : ∀ c, c < PMM_BLOCKS ∧ (∃ j < k + 1, (addr / 4096 + j) % 2 ^ 32 = c) ↔
                (c < PMM_BLOCKS ∧ ∃ j < k, (addr / 4096 + j) % 2 ^ 32 = c) ∨
                  c < PMM_BLOCKS ∧ (addr / 4096 + k) % 2 ^ 32 = c := by
              intro c
              rw [← and_or_left]
              refine and_congr_right fun _ => ?_
              simp only [Nat.lt_succ_iff_lt_or_eq, or_and_right, exists_or, exists_eq_left]
            split
            · rename_i htracked
              refine (hrel.trans (Releases.clear_bit st₁ htracked)).congr fun c => (or_congr_right ?_).trans (hsplit c).symm
              omega
            · rename_i htracked
              refine hrel.congr fun c => (or_iff_left ?_).symm.trans (hsplit c).symm
              omega
        · exact .inr ⟨by omega, by omega, by omega⟩
      · exact .inr ⟨by omega, by omega, hwraps⟩)
    (.inl ⟨0, rfl, fun j hj => by omega, .none st fun c => by simp⟩) h
  simp only at hinv hexit
  have hge : ¬ addr' < end_addr := by
    intro hlt
    simp only [if_pos hlt, reduceCtorEq] at hexit
  simp only [if_neg hge, Option.some.injEq] at hexit
  subst hexit
  obtain ⟨k, rfl, hbefore, hrel⟩ | ⟨hmod, hbound, hwraps⟩ := hinv
  · refine hrel.congr fun c => and_congr_right fun _ => exists_congr fun j => and_congr_left fun _ => ?_
    exact ⟨hbefore j, fun hlt => by omega⟩
  · omega

theorem clear_blocks_releases (first rounds b : ℕ) (st : Pmm) (hfirst : first + b < 2 ^ 32) :
    Releases st (clear_blocks first rounds b st) fun c => c < PMM_BLOCKS ∧ first + b ≤ c ∧ c < first + b + rounds := by
  have hN := PMM_BLOCKS_eq
  induction rounds generalizing b st with
  | zero => exact .none st fun c => by omega
  | succ rounds ih =>
    simp only [clear_blocks, Nat.mod_eq_of_lt hfirst]
    split
    · refine ((Releases.clear_bit st ‹_›).trans (ih (b + 1) _ (by omega))).congr fun c => ?_
      omega
    · exact .none st fun c => by omega

theorem multiboot_free_entry_releases {fuel : ℕ} {entry : mmap_entry_t}
    (h : multiboot_free_entry fuel st entry = some st') : Releases st st' (MultibootClears entry) := by
  unfold multiboot_free_entry at h
  split at h
  · rename_i htype
    exact (clear_region_releases h).congr fun c => by simp [MultibootClears, htype]
  · rename_i htype
    obtain rfl := Option.some.inj h
    exact .none st fun c hc => htype hc.1

theorem multiboot2_free_entry_releases (entry : mmap_entry_t) (st : Pmm) :
    Releases st (multiboot2_free_entry st entry) (Multiboot2Clears entry) := by
  unfold multiboot2_free_entry
  split
  · rename_i htype
    have hclears := clear_blocks_releases (entry.addr / PMM_BLOCK_SIZE % 2 ^ 32) (entry.len / PMM_BLOCK_SIZE % 2 ^ 32) 0 st
      (Nat.mod_lt _ (by decide))
    exact hclears.congr fun c => by simp only [Multiboot2Clears, htype, true_and, Nat.add_zero]
  · rename_i htype
    exact .none st fun c hc => htype hc.1

theorem multiboot_entries_release {fuel : ℕ} {entries : List mmap_entry_t}
    (h : entries.foldlM (multiboot_free_entry fuel) st = some st') :
    Releases st st' fun c => ∃ entry ∈ entries, MultibootClears entry c := by
  induction entries generalizing st with
  | nil =>
    obtain rfl := Option.some.inj h
    exact .none st fun c => by simp
  | cons entry entries ih =>
    obtain ⟨st₁, hentry, hrest⟩ := Option.bind_eq_some_iff.mp h
    exact ((multiboot_free_entry_releases hentry).trans (ih hrest)).congr fun c => by simp

theorem multiboot2_entries_release (entries : List mmap_entry_t) (st : Pmm) :
    Releases st (entries.foldl multiboot2_free_entry st) fun c => ∃ entry ∈ entries, Multiboot2Clears entry c := by
  induction entries generalizing st with
  | nil => exact .none st fun c => by simp
  | cons entry entries ih =>
    exact ((multiboot2_free_entry_releases entry st).trans (ih (multiboot2_free_entry st entry))).congr fun c => by simp

/-- Recording a module releases nothing. -/
theorem note_ramdisk_releases (st : Pmm) {mod_start : ℕ} (mod_end : ℕ) (hstart : mod_start < 2 ^ 32) :
    Releases st (note_ramdisk st mod_start mod_end) fun _ => False :=
  .of_same rfl rfl rfl fun h => ⟨hstart, Nat.mod_lt _ (by decide), h.initrd_start, h.initrd_end⟩

theorem multiboot_modules_release {fuel : ℕ} {mem : Memory} {modules : List ℕ}
    (h : modules.foldlM (multiboot_module fuel mem) st = some st') : Releases st st' fun _ => False := by
  induction modules generalizing st with
  | nil =>
    obtain rfl := Option.some.inj h
    exact .refl st
  | cons module_ptr modules ih =>
    obtain ⟨st₁, hmodule, hrest⟩ := Option.bind_eq_some_iff.mp h
    refine (Releases.trans ?_ (ih hrest)).congr fun c => or_self_iff
    simp only [multiboot_module] at hmodule
    split at hmodule
    · obtain rfl := Option.some.inj hmodule
      exact .refl st
    · obtain ⟨chars, -, heq⟩ := Option.bind_eq_some_iff.mp hmodule
      obtain rfl := Option.some.inj heq
      split
      · exact note_ramdisk_releases st _ (le32_lt _ _)
      · exact .refl st

theorem multiboot2_tags_release {fuel : ℕ} {mem : Memory} {tags : List ℕ} {maps : List (List mmap_entry_t)}
    (hmaps : (tags.filter fun tag => le32 mem tag = 6).mapM (multiboot2_tag_entries mem) = some maps)
    (h : tags.foldlM (multiboot2_tag fuel mem) st = some st') :
    Releases st st' fun c => ∃ entry ∈ maps.flatten, Multiboot2Clears entry c := by
  induction tags generalizing st maps with
  | nil =>
    obtain rfl : [] = maps := by simpa using hmaps
    obtain rfl := Option.some.inj h
    exact .none st fun c => by simp
  | cons tag tags ih =>
    obtain ⟨st₁, htag, hrest⟩ := Option.bind_eq_some_iff.mp h
    simp only [multiboot2_tag] at htag
    by_cases htype : le32 mem tag = 6
    · rw [List.filter_cons_of_pos (by simpa using htype), List.mapM_cons] at hmaps
      obtain ⟨entries, hentries, hmaps⟩ := Option.bind_eq_some_iff.mp hmaps
      obtain ⟨maps', hmaps', heq⟩ := Option.bind_eq_some_iff.mp hmaps
      obtain rfl := Option.some.inj heq
      rw [if_pos htype, hentries] at htag
      obtain rfl := Option.some.inj htag
      refine ((multiboot2_entries_release entries st).trans (ih hmaps' hrest)).congr fun c => ?_
      simp only [List.flatten_cons, List.mem_append, or_and_right, exists_or]
    · rw [List.filter_cons_of_neg (by simpa using htype)] at hmaps
      refine (Releases.trans ?_ (ih hmaps hrest)).congr fun c => by rw [false_or]
      rw [if_neg htype] at htag
      split at htag
      · obtain rfl := Option.some.inj htag
        exact .of_same rfl rfl rfl fun h => ⟨h.1, h.2, h.3, h.4⟩
      · split at htag
        · obtain ⟨chars, -, heq⟩ := Option.bind_eq_some_iff.mp htag
          obtain rfl := Option.some.inj heq
          split
          · exact note_ramdisk_releases st _ (le32_lt _ _)
          · split
            · exact .of_same rfl rfl rfl fun h => ⟨h.1, h.2, le32_lt _ _, le32_lt _ _⟩
            · exact .refl st
        · obtain rfl := Option.some.inj htag
          exact .refl st

/-- The blocks that the memory map makes available. -/
def Freed (magic : ℕ) (entries : List mmap_entry_t) (c : ℕ) : Prop := ∃ entry ∈ entries, FreesBlock magic entry c

theorem freed_lt {magic : ℕ} {entries : List mmap_entry_t} (hbelow : BelowLimit entries) {c : ℕ}
    (h : Freed magic entries c) : c < PMM_BLOCKS := by
  have hN := PMM_BLOCKS_eq
  obtain ⟨entry, hmem, hfrees⟩ := h
  unfold FreesBlock at hfrees
  split at hfrees
  all_goals
    obtain ⟨htype, hlow, hhigh⟩ := hfrees
    have hend := hbelow entry hmem htype
    simp only [PMM_BLOCK_SIZE] at hlow hhigh
    omega

theorem read_boot_info_clears {fuel : ℕ} {mem : Memory} {magic mbd : ℕ} {entries : List mmap_entry_t}
    (hmap : memory_map fuel mem magic mbd = some entries)
    (h : read_boot_info fuel mem magic mbd st = some st') : Releases st st' (Cleared magic entries) := by
  unfold read_boot_info at h
  unfold memory_map at hmap
  by_cases h₁ : magic = MULTIBOOT1_MAGIC
  · rw [if_pos h₁] at h hmap
    have hfrees : ∀ c, Cleared magic entries c ↔ ∃ entry ∈ entries, MultibootClears entry c := by
      simp [Cleared, ClearsBlock, h₁]
    obtain ⟨st₁, hst₁, hmodules⟩ := Option.bind_eq_some_iff.mp h
    have hread : Releases st st₁ (Cleared magic entries) := by
      unfold multiboot_map at hst₁
      split at hst₁
      · rw [if_pos ‹_›] at hmap
        obtain ⟨entries', hentries, hfold⟩ := Option.bind_eq_some_iff.mp hst₁
        obtain rfl := Option.some.inj (hentries.symm.trans hmap)
        exact (multiboot_entries_release hfold).congr fun c => (hfrees c).symm
      · rw [if_neg ‹_›] at hmap
        obtain rfl := Option.some.inj hmap
        obtain rfl := Option.some.inj hst₁
        exact .none st fun c => by simp [Cleared]
    have hfb : Releases st₁ (multiboot_fb mem mbd st₁) fun _ => False := by
      unfold multiboot_fb
      split
      · exact .of_same rfl rfl rfl fun h => ⟨h.1, h.2, h.3, h.4⟩
      · exact .refl st₁
    have hrest : Releases (multiboot_fb mem mbd st₁) st' fun _ => False := by
      unfold multiboot_modules at hmodules
      split at hmodules
      · exact multiboot_modules_release hmodules
      · obtain rfl := Option.some.inj hmodules
        exact .refl _
    exact (hread.trans (hfb.trans hrest)).congr fun c => by simp
  · rw [if_neg h₁] at h hmap
    have hfrees : ∀ c, Cleared magic entries c ↔ ∃ entry ∈ entries, Multiboot2Clears entry c := by
      simp [Cleared, ClearsBlock, h₁]
    split at h
    · rw [if_pos ‹_›] at hmap
      obtain ⟨tags, htags, hmap⟩ := Option.bind_eq_some_iff.mp hmap
      obtain ⟨maps, hmaps, heq⟩ := Option.bind_eq_some_iff.mp hmap
      obtain rfl := Option.some.inj heq
      obtain ⟨tags', htags', hfold⟩ := Option.bind_eq_some_iff.mp h
      obtain rfl := Option.some.inj (htags.symm.trans htags')
      exact (multiboot2_tags_release hmaps hfold).congr fun c => (hfrees c).symm
    · rw [if_neg ‹_›] at hmap
      obtain rfl := Option.some.inj hmap
      obtain rfl := Option.some.inj h
      exact .none st fun c => by simp [Cleared]

/-- Below the limit nothing is cast. -/
theorem clearsBlock_iff {entry : mmap_entry_t} (magic : ℕ) (hbelow : entry.type = 1 → entry.addr + entry.len < 2 ^ 34) (c : ℕ) :
    ClearsBlock magic entry c ↔ FreesBlock magic entry c := by
  have hN := PMM_BLOCKS_eq
  unfold ClearsBlock FreesBlock
  split
  · simp only [MultibootClears, MultibootFrees, PMM_BLOCK_SIZE]
    refine and_congr_right fun htype => ?_
    have hend := hbelow htype
    rw [Nat.mod_eq_of_lt (show entry.addr + entry.len < 2 ^ 64 by omega)]
    constructor
    · rintro ⟨-, k, hk, rfl⟩
      omega
    · rintro ⟨hlow, hhigh⟩
      exact ⟨by omega, c - entry.addr / 4096, by omega, by omega⟩
  · simp only [Multiboot2Clears, Multiboot2Frees, PMM_BLOCK_SIZE]
    refine and_congr_right fun htype => ?_
    have hend := hbelow htype
    omega

/-- The recorded modules. -/
def Pmm.modules (st : Pmm) : (ℕ × ℕ × Bool) × ℕ × ℕ × Bool :=
  ((st.initrd_brain_start, st.initrd_brain_end, st.initrd_brain_loaded),
    st.ramdisk_start, st.ramdisk_size, st.ramdisk_loaded)

/-- The blocks of `S` have been reserved and no others touched. -/
structure Reserves (st st' : Pmm) (S : ℕ → Prop) : Prop where
  free : ∀ c, Free st' c ↔ Free st c ∧ ¬ S c
  counted : Counted st → Counted st'
  hint : st'.last_free_bit = st.last_free_bit
  total : st'.total_memory_kb = st.total_memory_kb
  modules : st'.modules = st.modules

theorem Reserves.congr (h : Reserves st st' S) (hST : ∀ c, S c ↔ T c) : Reserves st st' T :=
  ⟨fun c => by rw [h.free, hST], h.counted, h.hint, h.total, h.modules⟩

theorem Reserves.none (st : Pmm) (hnone : ∀ c, ¬ S c) : Reserves st st S :=
  ⟨fun c => by simp [hnone], id, rfl, rfl, rfl⟩

theorem Reserves.trans (h₁ : Reserves st st' S) (h₂ : Reserves st' st'' T) : Reserves st st'' fun c => S c ∨ T c :=
  ⟨fun c => by rw [h₂.free, h₁.free, not_or, and_assoc], fun h => h₂.counted (h₁.counted h), h₂.hint.trans h₁.hint,
    h₂.total.trans h₁.total, h₂.modules.trans h₁.modules⟩

theorem Reserves.set_bit (st : Pmm) {block : ℕ} (hblock : block < PMM_BLOCKS) :
    Reserves st (pmm_set_bit st block) fun c => c = block := by
  refine ⟨fun c => by rw [free_set_bit, and_comm], fun h => h.set_bit hblock, set_bit_last st block,
    set_bit_total st block, ?_⟩
  unfold pmm_set_bit
  split <;> rfl

theorem Reserves.set_range (st : Pmm) (first : ℕ) {last : ℕ} (hlast : last < PMM_BLOCKS) :
    Reserves st (set_range st first last) fun c => first ≤ c ∧ c ≤ last := by
  unfold pmm.set_range
  -- over the number of blocks to mark
  generalize hcount : last + 1 - first = count
  have hbound : count = 0 ∨ first + count ≤ last + 1 := by omega
  suffices h : Reserves st ((List.range' first count).foldl pmm_set_bit st) fun c => first ≤ c ∧ c < first + count from
    h.congr fun c => by omega
  clear hcount
  induction count generalizing st first with
  | zero => exact .none st fun c => by omega
  | succ count ih =>
    rw [List.range'_succ, List.foldl_cons]
    refine ((Reserves.set_bit st (by omega)).trans (ih _ (first + 1) (by omega))).congr fun c => ?_
    omega

/-- The blocks that `pmm_init` takes away again: the kernel's, page 0 and those of the
    recorded modules. -/
def Protected (kernel : KernelImage) (st : Pmm) (c : ℕ) : Prop :=
  (kernel.kernel_start / PMM_BLOCK_SIZE ≤ c ∧ c ≤ kernel.kernel_end / PMM_BLOCK_SIZE) ∨ c = 0 ∨
    (st.initrd_brain_loaded = true ∧ st.initrd_brain_start / PMM_BLOCK_SIZE ≤ c ∧
      c ≤ (st.initrd_brain_end + PMM_BLOCK_SIZE - 1) / PMM_BLOCK_SIZE) ∨
    (st.ramdisk_loaded = true ∧ st.ramdisk_start / PMM_BLOCK_SIZE ≤ c ∧
      c ≤ (st.ramdisk_start + st.ramdisk_size + PMM_BLOCK_SIZE - 1) / PMM_BLOCK_SIZE)

theorem protected_congr {kernel : KernelImage} (h : st'.modules = st.modules) (c : ℕ) :
    Protected kernel st' c ↔ Protected kernel st c := by
  simp only [Pmm.modules, Prod.mk.injEq] at h
  obtain ⟨⟨h₁, h₂, h₃⟩, h₄, h₅, h₆⟩ := h
  simp only [Protected, h₁, h₂, h₃, h₄, h₅, h₆]

theorem protected_lt {kernel : KernelImage} (h : ModulesBounded st) {c : ℕ} (hc : Protected kernel st c) :
    c + 1 < PMM_BLOCKS := by
  have hN := PMM_BLOCKS_eq
  have hkernel := kernel.end_lt
  obtain ⟨h₁, h₂, h₃, h₄⟩ := h
  simp only [Protected, PMM_BLOCK_SIZE] at hc
  omega

/-- A range that is protected only if a module is loaded. -/
theorem Reserves.ite_range (st : Pmm) (loaded : Bool) (first : ℕ) {last : ℕ} (hlast : last < PMM_BLOCKS) :
    Reserves st (if loaded = true then pmm.set_range st first last else st)
      fun c => loaded = true ∧ first ≤ c ∧ c ≤ last := by
  cases loaded with
  | true => exact (Reserves.set_range st first hlast).congr fun c => by simp
  | false => exact .none st fun c => by simp

theorem protect_reserves (kernel : KernelImage) (h : ModulesBounded st) :
    Reserves st (protect kernel st) (Protected kernel st) := by
  have hN := PMM_BLOCKS_eq
  have hkernel := kernel.end_lt
  obtain ⟨h₁, h₂, h₃, h₄⟩ := h
  have hend : kernel.kernel_end / PMM_BLOCK_SIZE < PMM_BLOCKS := by
    simp only [PMM_BLOCK_SIZE]
    omega
  have hfirst := (Reserves.set_range st (kernel.kernel_start / PMM_BLOCK_SIZE) hend).trans
    (Reserves.set_bit _ (show 0 < PMM_BLOCKS by omega))
  simp only [protect]
  generalize pmm_set_bit _ 0 = st₁ at hfirst ⊢
  have hmodules := hfirst.modules
  simp only [Pmm.modules, Prod.mk.injEq] at hmodules
  obtain ⟨⟨e₁, e₂, e₃⟩, e₄, e₅, e₆⟩ := hmodules
  rw [e₁, e₂, e₃]
  have hinitrd : (st.initrd_brain_end + PMM_BLOCK_SIZE - 1) / PMM_BLOCK_SIZE < PMM_BLOCKS := by
    simp only [PMM_BLOCK_SIZE]
    omega
  have hsecond := hfirst.trans (Reserves.ite_range st₁ st.initrd_brain_loaded
    (st.initrd_brain_start / PMM_BLOCK_SIZE) hinitrd)
  generalize (if st.initrd_brain_loaded = true then _ else st₁) = st₂ at hsecond ⊢
  have hmodules := hsecond.modules
  simp only [Pmm.modules, Prod.mk.injEq] at hmodules
  obtain ⟨-, e₄, e₅, e₆⟩ := hmodules
  rw [e₄, e₅, e₆]
  have hramdisk : (st.ramdisk_start + st.ramdisk_size + PMM_BLOCK_SIZE - 1) / PMM_BLOCK_SIZE < PMM_BLOCKS := by
    simp only [PMM_BLOCK_SIZE]
    omega
  exact (hsecond.trans (Reserves.ite_range st₂ st.ramdisk_loaded
    (st.ramdisk_start / PMM_BLOCK_SIZE) hramdisk)).congr fun c => by simp only [Protected, or_assoc]

/-- The allocator after `pmm_init`, in terms of the memory map. -/
structure Initialised (kernel : KernelImage) (magic : ℕ) (entries : List mmap_entry_t) (memory : Memory)
    (st : Pmm) : Prop where
  free : ∀ c, Free st c ↔ Freed magic entries c ∧ ¬ Protected kernel st c ∨ PMM_BLOCKS ≤ c ∧ ¬ Taken memory c
  covers : ∀ c, Protected kernel st c → c + 1 < PMM_BLOCKS
  counted : Counted st
  hint : st.last_free_bit = 256
  total : ∃ ram : Finset ℕ, (∀ c, c ∈ ram ↔ Freed magic entries c) ∧ st.total_memory_kb = ram.card * 4

theorem free_reserve_all (st : Pmm) (c : ℕ) : Free (reserve_all st) c ↔ PMM_BLOCKS ≤ c ∧ Free st c := by
  have hsize : PMM_BITMAP_SIZE * 8 = PMM_BLOCKS := rfl
  by_cases hc : c / 8 < PMM_BITMAP_SIZE
  · have hfull := (byte_full_iff (reserve_all st).pmm_bitmap (c / 8)).mp (if_pos hc) (c % 8) (Nat.mod_lt _ (by decide))
    rw [show 8 * (c / 8) + c % 8 = c by omega] at hfull
    exact iff_of_false (not_not_intro hfull) fun h => by omega
  · have hbyte : (reserve_all st).pmm_bitmap (c / 8) = st.pmm_bitmap (c / 8) := if_neg hc
    rw [Free, Free, taken_iff, taken_iff, hbyte]
    exact (and_iff_right (by omega)).symm

theorem counted_reserve_all (st : Pmm) : Counted (reserve_all st) := by
  have hempty : clear_bits (reserve_all st).pmm_bitmap PMM_BLOCKS = ∅ := by
    ext c
    have hfree := free_reserve_all st c
    simp only [mem_clear_bits, Finset.notMem_empty, iff_false, not_and]
    exact fun hc hclear => absurd (hfree.mp hclear).1 (by omega)
  rw [Counted, hempty]
  rfl

theorem cleared_lt {magic : ℕ} {entries : List mmap_entry_t} {c : ℕ} (h : Cleared magic entries c) : c < PMM_BLOCKS := by
  obtain ⟨entry, -, hclears⟩ := h
  unfold ClearsBlock at hclears
  split at hclears <;> exact hclears.2.1

theorem cleared_iff (magic : ℕ) {entries : List mmap_entry_t} (hbelow : BelowLimit entries) (c : ℕ) :
    Cleared magic entries c ↔ Freed magic entries c :=
  exists_congr fun entry => and_congr_right fun hmem => clearsBlock_iff magic (hbelow entry hmem) c

/-- `pmm_init` frees what the loops over the map clear, less what it protects. -/
structure Frees (kernel : KernelImage) (magic : ℕ) (entries : List mmap_entry_t) (memory : Memory) (st : Pmm) : Prop where
  free : ∀ c, Free st c ↔ Cleared magic entries c ∧ ¬ Protected kernel st c ∨ PMM_BLOCKS ≤ c ∧ ¬ Taken memory c
  covers : ∀ c, Protected kernel st c → c + 1 < PMM_BLOCKS
  counted : Counted st
  hint : st.last_free_bit = 256
  total : ∃ ram : Finset ℕ, (∀ c, c ∈ ram ↔ Cleared magic entries c) ∧ st.total_memory_kb = ram.card * 4

theorem pmm_init_frees {fuel : ℕ} {mem memory : Memory} {kernel : KernelImage} {magic mbd : ℕ}
    {entries : List mmap_entry_t} (hmap : memory_map fuel mem magic mbd = some entries)
    (h : pmm_init fuel mem kernel magic mbd (static_pmm memory) = some st) : Frees kernel magic entries memory st := by
  have hN := PMM_BLOCKS_eq
  obtain ⟨st₁, hread, heq⟩ := Option.bind_eq_some_iff.mp h
  obtain rfl := Option.some.inj heq
  have hrel := read_boot_info_clears hmap hread
  have hcounted := hrel.counted (counted_reserve_all (static_pmm memory))
  have hbounded : ModulesBounded st₁ := hrel.modules (by constructor <;> simp [reserve_all, static_pmm])
  have hle := hcounted.le
  have hbounded' : ModulesBounded { st₁ with total_memory_kb := st₁.free_blocks * 4 % 2 ^ 32 } :=
    ⟨hbounded.1, hbounded.2, hbounded.3, hbounded.4⟩
  have hres := protect_reserves kernel hbounded'
  refine ⟨fun c => ?_, fun c hc => protected_lt hbounded' ((protected_congr hres.modules c).mp hc), hres.counted hcounted,
    hres.hint.trans (hrel.hint.trans rfl), ?_⟩
  · rw [hres.free, protected_congr hres.modules]
    have hfree : Free { st₁ with total_memory_kb := st₁.free_blocks * 4 % 2 ^ 32 } c ↔
        PMM_BLOCKS ≤ c ∧ ¬ Taken memory c ∨ Cleared magic entries c :=
      (hrel.free c).trans (or_congr_left (free_reserve_all (static_pmm memory) c))
    rw [hfree]
    constructor
    · rintro ⟨hbeyond | hcleared, hnot⟩
      · exact .inr hbeyond
      · exact .inl ⟨hcleared, hnot⟩
    · rintro (⟨hcleared, hnot⟩ | hbeyond)
      · exact ⟨.inr hcleared, hnot⟩
      · exact ⟨.inl hbeyond, fun hp => by
          have := protected_lt hbounded' hp
          omega⟩
  · refine ⟨clear_bits st₁.pmm_bitmap PMM_BLOCKS, fun c => ?_, ?_⟩
    · rw [mem_clear_bits]
      have hfree := hrel.free c
      rw [free_reserve_all] at hfree
      constructor
      · rintro ⟨hc, hclear⟩
        obtain ⟨hge, -⟩ | hcleared := hfree.mp hclear
        · omega
        · exact hcleared
      · exact fun hcleared => ⟨cleared_lt hcleared, hfree.mpr (.inr hcleared)⟩
    · rw [hres.total, ← hcounted]
      exact Nat.mod_eq_of_lt (by omega)

/-- `pmm_init` on a map below the limit frees what the map makes available, less what
    it protects. -/
theorem pmm_init_spec {fuel : ℕ} {mem memory : Memory} {kernel : KernelImage} {magic mbd : ℕ}
    {entries : List mmap_entry_t} (hmap : memory_map fuel mem magic mbd = some entries) (hbelow : BelowLimit entries)
    (h : pmm_init fuel mem kernel magic mbd (static_pmm memory) = some st) :
    Initialised kernel magic entries memory st := by
  have hiff := cleared_iff magic hbelow
  obtain ⟨hfree, hcovers, hcounted, hhint, ram, hram, htotal⟩ := pmm_init_frees hmap h
  exact ⟨fun c => (hfree c).trans (or_congr_left (and_congr_left fun _ => hiff c)), hcovers, hcounted, hhint, ram,
    fun c => (hram c).trans (hiff c), htotal⟩

section preserved

variable {I : Pmm → Prop} (hclear : ∀ st block, block < PMM_BLOCKS → I st → I (pmm_clear_bit st block))
  (hother : ∀ st st' : Pmm, st'.pmm_bitmap = st.pmm_bitmap → st'.free_blocks = st.free_blocks →
    st'.last_free_bit = st.last_free_bit → I st → I st')

include hclear in
theorem multiboot_free_entry_preserves {fuel : ℕ} {entry : mmap_entry_t}
    (h : multiboot_free_entry fuel st entry = some st') (hst : I st) : I st' := by
  unfold multiboot_free_entry at h
  split at h
  · obtain ⟨⟨addr, st₁⟩, hinv, hexit⟩ := loop_invariant (I := fun s : ℕ × Pmm => I s.2)
      (by
        rintro ⟨addr, st₁⟩ - hst₁
        simp only
        split
        · exact hclear st₁ _ ‹_› hst₁
        · exact hst₁)
      hst h
    simp only at hexit
    split at hexit
    · cases hexit
    · exact Option.some.inj hexit ▸ hinv
  · exact Option.some.inj h ▸ hst

include hclear in
theorem multiboot2_free_entry_preserves (entry : mmap_entry_t) (hst : I st) : I (multiboot2_free_entry st entry) := by
  have hblocks : ∀ first rounds b st, I st → I (clear_blocks first rounds b st) := by
    intro first rounds
    induction rounds with
    | zero => exact fun _ _ hst => hst
    | succ rounds ih =>
      intro b st hst
      simp only [clear_blocks]
      split
      · exact ih _ _ (hclear st _ ‹_› hst)
      · exact hst
  unfold multiboot2_free_entry
  split
  · exact hblocks _ _ _ _ hst
  · exact hst

include hclear hother in
theorem multiboot2_tag_preserves {fuel : ℕ} {mem : Memory} {tag : ℕ} (h : multiboot2_tag fuel mem st tag = some st')
    (hst : I st) : I st' := by
  simp only [multiboot2_tag] at h
  split at h
  · obtain ⟨entries, -, heq⟩ := Option.bind_eq_some_iff.mp h
    obtain rfl := Option.some.inj heq
    clear h heq
    induction entries generalizing st with
    | nil => exact hst
    | cons entry entries ih => exact ih (multiboot2_free_entry_preserves hclear entry hst)
  · split at h
    · exact Option.some.inj h ▸ hother st _ rfl rfl rfl hst
    · split at h
      · obtain ⟨chars, -, heq⟩ := Option.bind_eq_some_iff.mp h
        obtain rfl := Option.some.inj heq
        split
        · exact hother st _ rfl rfl rfl hst
        · split
          · exact hother st _ rfl rfl rfl hst
          · exact hst
      · exact Option.some.inj h ▸ hst

include hclear hother in
/-- Whatever the memory map says, `read_boot_info` only clears bits of tracked blocks,
    and sets variables that are not the allocator's. -/
theorem read_boot_info_preserves {fuel : ℕ} {mem : Memory} {magic mbd : ℕ}
    (h : read_boot_info fuel mem magic mbd st = some st') (hst : I st) : I st' := by
  unfold read_boot_info at h
  split at h
  · obtain ⟨st₁, hmap, hmodules⟩ := Option.bind_eq_some_iff.mp h
    have hst₁ : I st₁ := by
      unfold multiboot_map at hmap
      split at hmap
      · obtain ⟨entries, -, hfold⟩ := Option.bind_eq_some_iff.mp hmap
        exact foldlM_invariant (fun _ _ _ hstep hs => multiboot_free_entry_preserves hclear hstep hs) hfold hst
      · exact Option.some.inj hmap ▸ hst
    have hfb : I (multiboot_fb mem mbd st₁) := by
      unfold multiboot_fb
      split
      · exact hother st₁ _ rfl rfl rfl hst₁
      · exact hst₁
    unfold multiboot_modules at hmodules
    split at hmodules
    · refine foldlM_invariant (fun s module_ptr s' hstep hs => ?_) hmodules hfb
      simp only [multiboot_module] at hstep
      split at hstep
      · exact Option.some.inj hstep ▸ hs
      · obtain ⟨chars, -, heq⟩ := Option.bind_eq_some_iff.mp hstep
        obtain rfl := Option.some.inj heq
        split
        · exact hother s _ rfl rfl rfl hs
        · exact hs
    · exact Option.some.inj hmodules ▸ hfb
  · split at h
    · obtain ⟨tags, -, hfold⟩ := Option.bind_eq_some_iff.mp h
      exact foldlM_invariant (fun _ _ _ hstep hs => multiboot2_tag_preserves hclear hother hstep hs) hfold hst
    · exact Option.some.inj h ▸ hst

end preserved

theorem c_string_stable (mem : Memory) (str : ℕ) : Stable fun fuel => c_string fuel mem str := loop_stable _ _ _

theorem multiboot_module_stable (mem : Memory) (st : Pmm) (module_ptr : ℕ) :
    Stable fun fuel => multiboot_module fuel mem st module_ptr :=
  (Stable.const _).ite _ ((c_string_stable mem _).bind fun _ => Stable.const _)

theorem multiboot2_tag_stable (mem : Memory) (st : Pmm) (tag : ℕ) :
    Stable fun fuel => multiboot2_tag fuel mem st tag := by
  refine Stable.ite _ (Stable.const _) (Stable.ite _ (Stable.const _) (Stable.ite _ ?_ (Stable.const _)))
  exact (c_string_stable mem _).bind fun chars => Stable.const _

theorem read_boot_info_stable (mem : Memory) (magic mbd : ℕ) (st : Pmm) :
    Stable fun fuel => read_boot_info fuel mem magic mbd st := by
  refine Stable.ite _ ?_ (Stable.ite _ ?_ (Stable.const _))
  · refine Stable.bind (Stable.ite _ ?_ (Stable.const _)) fun st₁ => Stable.ite _ ?_ (Stable.const _)
    · refine (loop_stable _ _ _).bind fun entries => Stable.foldlM (fun st₁ entry => ?_) entries st
      exact Stable.ite _ (loop_stable _ _ _) (Stable.const _)
    · exact Stable.foldlM (fun st₂ module_ptr => multiboot_module_stable mem st₂ module_ptr) _ _
  · exact (loop_stable _ _ _).bind fun tags => Stable.foldlM (fun st₁ tag => multiboot2_tag_stable mem st₁ tag) tags st

theorem pmm_init_stable (mem : Memory) (kernel : KernelImage) (magic mbd : ℕ) (st : Pmm) :
    Stable fun fuel => pmm_init fuel mem kernel magic mbd st :=
  (read_boot_info_stable mem magic mbd _).bind fun _ => Stable.const _

theorem memory_map_stable (mem : Memory) (magic mbd : ℕ) : Stable fun fuel => memory_map fuel mem magic mbd :=
  Stable.ite _ (Stable.ite _ (loop_stable _ _ _) (Stable.const _))
    (Stable.ite _ ((loop_stable _ _ _).bind fun _ => Stable.const _) (Stable.const _))

end os_dev.pmm
