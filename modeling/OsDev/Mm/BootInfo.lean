import OsDev.Mm.PmmInit

open little_endian bitmap fuel

namespace os_dev.pmm

variable {fuel : ℕ} {mem memory : Memory} {kernel : KernelImage} {magic mbd : ℕ} {st st' : Pmm}

/-- A module as the boot loader lists it, with its command string. -/
structure module_t where
  mod_start : ℕ
  mod_end : ℕ
  string : List UInt8
  deriving DecidableEq

/-- What the boot loader has to say to the allocator, in either format. -/
structure boot_info_t where
  entries : List mmap_entry_t
  modules : List module_t

/-- The characters from `str` on are those of `chars`, up to the NUL. -/
inductive CString (mem : Memory) : ℕ → List UInt8 → Prop
  | nil {str : ℕ} (hend : mem str = 0) : CString mem str []
  | cons {str : ℕ} {chars : List UInt8} (hchar : mem str ≠ 0) (hrest : CString mem (str + 1) chars) :
      CString mem str (mem str :: chars)

/-- The entries of a multiboot1 map from `mmap` on, each behind its size, up to the end
    of the map. -/
inductive MultibootMap (mem : Memory) (mmap_end : ℕ) : ℕ → List mmap_entry_t → Prop
  | nil : MultibootMap mem mmap_end mmap_end []
  | cons {mmap : ℕ} {entries : List mmap_entry_t} (hsize : 20 ≤ le32 mem mmap)
      (hin : mmap + le32 mem mmap + 4 ≤ mmap_end) (hrest : MultibootMap mem mmap_end (mmap + le32 mem mmap + 4) entries) :
      MultibootMap mem mmap_end mmap (multiboot_entry_at mem mmap :: entries)

/-- A record of the multiboot1 module list. Its string may be missing. -/
structure MultibootModule (mem : Memory) (module_ptr : ℕ) (module : module_t) : Prop where
  mod_start : module.mod_start = le32 mem module_ptr
  mod_end : module.mod_end = le32 mem (module_ptr + 4)
  string : if le32 mem (module_ptr + 8) = 0 then module.string = [] else CString mem (le32 mem (module_ptr + 8)) module.string

/-- A multiboot1 information structure. Flag 6 announces a memory map, flag 3 modules. -/
structure MultibootInfo (mem : Memory) (mbd : ℕ) (info : boot_info_t) : Prop where
  entries : if (le32 mem mbd).testBit 6 then
      le32 mem (mbd + 48) + le32 mem (mbd + 44) < 2 ^ 32 ∧
        MultibootMap mem (le32 mem (mbd + 48) + le32 mem (mbd + 44)) (le32 mem (mbd + 48)) info.entries
    else info.entries = []
  modules : if (le32 mem mbd).testBit 3 then
      List.Forall₂ (MultibootModule mem)
        ((List.range (le32 mem (mbd + 20))).map fun i => le32 mem (mbd + 24) + 16 * i) info.modules
    else info.modules = []

/-- A multiboot2 tag of the given type, with its size, inside the information. -/
structure TagAt (mem : Memory) (mbd offset type : ℕ) : Prop where
  type_eq : le32 mem (mbd + offset) = type
  header : 8 ≤ le32 mem (mbd + offset + 4)
  inside : offset + le32 mem (mbd + offset + 4) ≤ le32 mem mbd

/-- Tags are aligned to 8 bytes. -/
def next_tag (mem : Memory) (mbd offset : ℕ) : ℕ := offset + (le32 mem (mbd + offset + 4) + 7) / 8 * 8

structure Multiboot2Map (mem : Memory) (tag : ℕ) (entries : List mmap_entry_t) : Prop where
  header : 16 ≤ le32 mem (tag + 4)
  entry_size : 24 ≤ le32 mem (tag + 8)
  entries_eq : entries = (List.range ((le32 mem (tag + 4) - 16) / le32 mem (tag + 8))).map
    fun i => multiboot2_entry_at mem (tag + 16 + i * le32 mem (tag + 8))

structure Multiboot2Module (mem : Memory) (tag : ℕ) (module : module_t) : Prop where
  mod_start : module.mod_start = le32 mem (tag + 8)
  mod_end : module.mod_end = le32 mem (tag + 12)
  string : CString mem (tag + 16) module.string

/-- The multiboot2 tags from `offset` on up to the end tag, with the entries and the
    modules that they list. -/
inductive Multiboot2Tags (mem : Memory) (mbd : ℕ) : ℕ → List ℕ → List mmap_entry_t → List module_t → Prop
  | end_tag {offset : ℕ} (htag : TagAt mem mbd offset 0) : Multiboot2Tags mem mbd offset [] [] []
  | map {offset : ℕ} {tags : List ℕ} {entries rest : List mmap_entry_t} {modules : List module_t}
      (htag : TagAt mem mbd offset 6) (hmap : Multiboot2Map mem (mbd + offset) entries)
      (hrest : Multiboot2Tags mem mbd (next_tag mem mbd offset) tags rest modules) :
      Multiboot2Tags mem mbd offset ((mbd + offset) :: tags) (entries ++ rest) modules
  | module {offset : ℕ} {tags : List ℕ} {entries : List mmap_entry_t} {module : module_t} {modules : List module_t}
      (htag : TagAt mem mbd offset 3) (hmodule : Multiboot2Module mem (mbd + offset) module)
      (hrest : Multiboot2Tags mem mbd (next_tag mem mbd offset) tags entries modules) :
      Multiboot2Tags mem mbd offset ((mbd + offset) :: tags) entries (module :: modules)
  | other {offset type : ℕ} {tags : List ℕ} {entries : List mmap_entry_t} {modules : List module_t}
      (htag : TagAt mem mbd offset type) (hother : type ≠ 0 ∧ type ≠ 3 ∧ type ≠ 6)
      (hrest : Multiboot2Tags mem mbd (next_tag mem mbd offset) tags entries modules) :
      Multiboot2Tags mem mbd offset ((mbd + offset) :: tags) entries modules

/-- The well-formed information structure at `mbd`, in the format of the magic number. -/
structure Reports (mem : Memory) (magic mbd : ℕ) (info : boot_info_t) : Prop where
  format : magic = MULTIBOOT1_MAGIC ∧ MultibootInfo mem mbd info ∨
    magic = MULTIBOOT2_MAGIC ∧ ∃ tags, Multiboot2Tags mem mbd 8 tags info.entries info.modules
  modules : ∀ module ∈ info.modules, module.mod_start ≤ module.mod_end

theorem CString.returns {str : ℕ} {chars : List UInt8} (h : CString mem str chars) :
    Returns (fun fuel => c_string fuel mem str) chars := by
  have hcollects : Collects (fun a => mem a ≠ 0) (fun a => a + 1) mem str chars := by
    induction h with
    | nil hend => exact .stop (not_not_intro hend)
    | cons hchar _ ih => exact .step hchar ih
  exact hcollects.returns []

theorem MultibootMap.returns {mmap mmap_end : ℕ} {entries : List mmap_entry_t} (h : MultibootMap mem mmap_end mmap entries) :
    Returns (fun fuel => loop (fun s : ℕ × List mmap_entry_t => if s.1 < mmap_end then none else some s.2)
      (fun s => (s.1 + le32 mem s.1 + 4, s.2 ++ [multiboot_entry_at mem s.1])) fuel (mmap, [])) entries := by
  have hcollects : Collects (fun a => a < mmap_end) (fun a => a + le32 mem a + 4) (multiboot_entry_at mem) mmap entries := by
    induction h with
    | nil => exact .stop (lt_irrefl _)
    | cons hsize hin _ ih => exact .step (by omega) ih
  exact hcollects.returns []

theorem Multiboot2Tags.inside {offset : ℕ} {tags : List ℕ} {entries : List mmap_entry_t} {modules : List module_t}
    (h : Multiboot2Tags mem mbd offset tags entries modules) : offset + 8 ≤ le32 mem mbd := by
  cases h
  all_goals
    have hheader := TagAt.header ‹_›
    have hinside := TagAt.inside ‹_›
    omega

/-- No offset of a well-formed structure wraps. -/
theorem next_tag_eq {offset : ℕ} (hinside : next_tag mem mbd offset + 8 ≤ le32 mem mbd) :
    (offset + (le32 mem (mbd + offset + 4) + 7) % 2 ^ 32 / 8 * 8) % 2 ^ 32 = next_tag mem mbd offset := by
  have hsize := le32_lt mem mbd
  unfold next_tag at hinside ⊢
  omega

theorem Multiboot2Tags.collects {offset : ℕ} {tags : List ℕ} {entries : List mmap_entry_t} {modules : List module_t}
    (h : Multiboot2Tags mem mbd offset tags entries modules) :
    Collects (fun a => a < le32 mem mbd ∧ le32 mem (mbd + a) ≠ 0)
      (fun a => (a + (le32 mem (mbd + a + 4) + 7) % 2 ^ 32 / 8 * 8) % 2 ^ 32) (fun a => mbd + a) offset tags := by
  have hstep : ∀ {offset type tags entries modules}, TagAt mem mbd offset type → type ≠ 0 →
      Multiboot2Tags mem mbd (next_tag mem mbd offset) tags entries modules →
      offset < le32 mem mbd ∧ le32 mem (mbd + offset) ≠ 0 ∧
        (offset + (le32 mem (mbd + offset + 4) + 7) % 2 ^ 32 / 8 * 8) % 2 ^ 32 = next_tag mem mbd offset := by
    intro offset type tags entries modules htag htype hrest
    have hheader := htag.header
    have hinside := htag.inside
    exact ⟨by omega, by rwa [htag.type_eq], next_tag_eq hrest.inside⟩
  induction h with
  | end_tag htag => exact .stop fun hgo => hgo.2 htag.type_eq
  | map htag _ hrest ih =>
    obtain ⟨hlt, hne, hnext⟩ := hstep htag (by decide) hrest
    exact .step ⟨hlt, hne⟩ (hnext ▸ ih)
  | module htag _ hrest ih =>
    obtain ⟨hlt, hne, hnext⟩ := hstep htag (by decide) hrest
    exact .step ⟨hlt, hne⟩ (hnext ▸ ih)
  | other htag hother hrest ih =>
    obtain ⟨hlt, hne, hnext⟩ := hstep htag hother.1 hrest
    exact .step ⟨hlt, hne⟩ (hnext ▸ ih)

theorem Multiboot2Tags.returns {tags : List ℕ} {entries : List mmap_entry_t} {modules : List module_t}
    (h : Multiboot2Tags mem mbd 8 tags entries modules) : Returns (fun fuel => multiboot2_tags fuel mem mbd) tags :=
  h.collects.returns []

theorem Multiboot2Map.tag_entries {tag : ℕ} {entries : List mmap_entry_t} (h : Multiboot2Map mem tag entries) :
    multiboot2_tag_entries mem tag = some entries := by
  have hsize := le32_lt mem (tag + 4)
  have hheader := h.header
  have hentry := h.entry_size
  have hlen : (le32 mem (tag + 4) + 2 ^ 64 - 16) % 2 ^ 64 = le32 mem (tag + 4) - 16 := by omega
  have hcount : (le32 mem (tag + 4) - 16) / le32 mem (tag + 8) % 2 ^ 32 = (le32 mem (tag + 4) - 16) / le32 mem (tag + 8) :=
    Nat.mod_eq_of_lt (lt_of_le_of_lt (Nat.div_le_self _ _) (by omega))
  simp only [multiboot2_tag_entries, hlen, hcount, if_neg (show ¬ le32 mem (tag + 8) = 0 by omega), h.entries_eq]

theorem Multiboot2Tags.maps {offset : ℕ} {tags : List ℕ} {entries : List mmap_entry_t} {modules : List module_t}
    (h : Multiboot2Tags mem mbd offset tags entries modules) :
    ∃ maps, (tags.filter fun tag => le32 mem tag = 6).mapM (multiboot2_tag_entries mem) = some maps ∧
      maps.flatten = entries := by
  induction h with
  | end_tag => exact ⟨[], rfl, rfl⟩
  | map htag hmap _ ih =>
    obtain ⟨maps, hmaps, rfl⟩ := ih
    refine ⟨_ :: maps, ?_, rfl⟩
    rw [List.filter_cons_of_pos (by simpa using htag.type_eq), List.mapM_cons, hmap.tag_entries, hmaps]
    rfl
  | module htag _ _ ih => rwa [List.filter_cons_of_neg (by simp [htag.type_eq])]
  | other htag hother _ ih => rwa [List.filter_cons_of_neg (by simp [htag.type_eq, hother.2.2])]

/-- The map that the parser reads is the one that the structure reports. -/
theorem Reports.memory_map {info : boot_info_t} (h : Reports mem magic mbd info) :
    Returns (fun fuel => memory_map fuel mem magic mbd) info.entries := by
  obtain ⟨rfl, hinfo⟩ | ⟨rfl, tags, htags⟩ := h.format
  · have hentries := hinfo.entries
    simp only [pmm.memory_map, if_true]
    split at hentries
    · rename_i hflag
      simp only [if_pos hflag, multiboot_entries, Nat.mod_eq_of_lt hentries.1]
      exact hentries.2.returns
    · rename_i hflag
      simp only [if_neg hflag, hentries]
      exact .of_forall fun _ => rfl
  · simp only [pmm.memory_map, if_neg (show ¬ MULTIBOOT2_MAGIC = MULTIBOOT1_MAGIC by decide), if_true]
    refine htags.returns.bind (.of_forall fun _ => ?_)
    obtain ⟨maps, hmaps, heq⟩ := htags.maps
    rw [hmaps, ← heq]
    rfl

def module_t.is_ramdisk (module : module_t) : Bool := names_disk module.string

/-- Only the multiboot2 loop looks for an initrd. -/
def module_t.is_initrd (magic : ℕ) (module : module_t) : Bool :=
  magic = MULTIBOOT2_MAGIC && !names_disk module.string && module.string.take 2 = [0x61, 0x69]

/-- The inclusive block range of a module. -/
def module_t.Covers (module : module_t) (c : ℕ) : Prop :=
  module.mod_start / PMM_BLOCK_SIZE ≤ c ∧ c ≤ (module.mod_end + PMM_BLOCK_SIZE - 1) / PMM_BLOCK_SIZE

/-- The variables that record a module hold the given one. -/
def Holds (loaded : Bool) (first last : ℕ) : Option module_t → Prop
  | none => loaded = false
  | some module => loaded = true ∧ first = module.mod_start ∧ last = module.mod_end

/-- What the allocator has recorded about the modules. -/
structure Records (st : Pmm) (ramdisk initrd : Option module_t) : Prop where
  ramdisk : Holds st.ramdisk_loaded st.ramdisk_start (st.ramdisk_start + st.ramdisk_size) ramdisk
  initrd : Holds st.initrd_brain_loaded st.initrd_brain_start st.initrd_brain_end initrd

variable {ramdisk initrd : Option module_t}

theorem Records.of_modules (h : Records st ramdisk initrd) (hsame : st'.modules = st.modules) :
    Records st' ramdisk initrd := by
  simp only [Pmm.modules, Prod.mk.injEq] at hsame
  obtain ⟨⟨h₁, h₂, h₃⟩, h₄, h₅, h₆⟩ := hsame
  exact ⟨by simpa only [h₄, h₅, h₆] using h.ramdisk, by simpa only [h₁, h₂, h₃] using h.initrd⟩

theorem Records.protected_iff (h : Records st ramdisk initrd) (c : ℕ) :
    Protected kernel st c ↔
      (kernel.kernel_start / PMM_BLOCK_SIZE ≤ c ∧ c ≤ kernel.kernel_end / PMM_BLOCK_SIZE) ∨ c = 0 ∨
        (∃ module ∈ initrd, module.Covers c) ∨ ∃ module ∈ ramdisk, module.Covers c := by
  have hholds : ∀ {loaded first last} {module : Option module_t}, Holds loaded first last module →
      (loaded = true ∧ first / PMM_BLOCK_SIZE ≤ c ∧ c ≤ (last + PMM_BLOCK_SIZE - 1) / PMM_BLOCK_SIZE ↔
        ∃ m ∈ module, m.Covers c) := by
    intro loaded first last module hmodule
    cases module with
    | none => simp [show loaded = false from hmodule]
    | some module =>
      obtain ⟨rfl, rfl, rfl⟩ := hmodule
      simp [module_t.Covers]
  rw [Protected, hholds h.initrd, hholds h.ramdisk]

theorem Records.note_ramdisk {module : module_t} (h : Records st ramdisk initrd) (hle : module.mod_start ≤ module.mod_end)
    (hend : module.mod_end < 2 ^ 32) :
    Records (note_ramdisk st module.mod_start module.mod_end) (some module) initrd := by
  refine ⟨⟨rfl, rfl, ?_⟩, h.initrd⟩
  simp only [pmm.note_ramdisk]
  omega

theorem clear_bit_modules (st : Pmm) (block : ℕ) : (pmm_clear_bit st block).modules = st.modules := by
  unfold pmm_clear_bit
  split <;> rfl

/-- The last module of a kind, if there is one at all. -/
def last_module (kind : module_t → Bool) : List module_t → Option module_t → Option module_t
  | [], last => last
  | module :: modules, last => last_module kind modules (if kind module then some module else last)

/-- The recorded modules before and after the loop has seen `modules`. -/
def Notes (magic : ℕ) (modules : List module_t) (st st' : Pmm) : Prop :=
  ∀ ramdisk initrd, Records st ramdisk initrd →
    Records st' (last_module module_t.is_ramdisk modules ramdisk) (last_module (module_t.is_initrd magic) modules initrd)

theorem Notes.of_modules (hsame : st'.modules = st.modules) : Notes magic [] st st' := fun _ _ h => h.of_modules hsame

theorem Notes.trans {st₁ : Pmm} {module : module_t} {modules : List module_t} (h₁ : Notes magic [module] st st₁)
    (h₂ : Notes magic modules st₁ st') : Notes magic (module :: modules) st st' :=
  fun ramdisk initrd h => h₂ _ _ (h₁ ramdisk initrd h)

theorem MultibootModule.notes {module_ptr : ℕ} {module : module_t} (h : MultibootModule mem module_ptr module)
    (hle : module.mod_start ≤ module.mod_end) (st : Pmm) :
    ∃ st', Returns (fun fuel => multiboot_module fuel mem st module_ptr) st' ∧
      Notes MULTIBOOT1_MAGIC [module] st st' := by
  have hinitrd : module.is_initrd MULTIBOOT1_MAGIC = false := rfl
  have hend : module.mod_end < 2 ^ 32 := h.mod_end ▸ le32_lt _ _
  have hstring := h.string
  simp only [multiboot_module, ← h.mod_start, ← h.mod_end]
  split at hstring
  · rename_i hnull
    refine ⟨st, by simpa only [if_pos hnull] using .of_forall fun _ => rfl, fun ramdisk initrd hst => ?_⟩
    have hramdisk : module.is_ramdisk = false := by
      rw [module_t.is_ramdisk, hstring]
      rfl
    simpa [last_module, hinitrd, hramdisk] using hst
  · rename_i hnull
    simp only [if_neg hnull]
    refine ⟨_, hstring.returns.bind (.of_forall fun _ => rfl), fun ramdisk initrd hst => ?_⟩
    simp only [last_module, hinitrd, module_t.is_ramdisk, Bool.false_eq_true, if_false]
    by_cases hdisk : names_disk module.string = true
    · simpa [hdisk] using hst.note_ramdisk hle hend
    · simpa [hdisk] using hst

theorem multiboot_modules_notes {ptrs : List ℕ} {modules : List module_t}
    (h : List.Forall₂ (MultibootModule mem) ptrs modules) (hle : ∀ module ∈ modules, module.mod_start ≤ module.mod_end)
    (st : Pmm) :
    ∃ st', Returns (fun fuel => ptrs.foldlM (multiboot_module fuel mem) st) st' ∧ Notes MULTIBOOT1_MAGIC modules st st' := by
  induction h generalizing st with
  | nil => exact ⟨st, .of_forall fun _ => rfl, .of_modules rfl⟩
  | cons hmodule _ ih =>
    obtain ⟨st₁, hfirst, hnotes⟩ := hmodule.notes (hle _ List.mem_cons_self) st
    obtain ⟨st', hrest, hnotes'⟩ := ih (fun module hmem => hle module (List.mem_cons_of_mem _ hmem)) st₁
    exact ⟨st', hfirst.bind hrest, hnotes.trans hnotes'⟩

theorem Multiboot2Module.notes {tag : ℕ} {module : module_t} (h : Multiboot2Module mem tag module)
    (htype : le32 mem tag = 3) (hle : module.mod_start ≤ module.mod_end) (st : Pmm) :
    ∃ st', Returns (fun fuel => multiboot2_tag fuel mem st tag) st' ∧ Notes MULTIBOOT2_MAGIC [module] st st' := by
  have hend : module.mod_end < 2 ^ 32 := h.mod_end ▸ le32_lt _ _
  simp only [multiboot2_tag, htype, ← h.mod_start, ← h.mod_end]
  refine ⟨_, h.string.returns.bind (.of_forall fun _ => rfl), fun ramdisk initrd hst => ?_⟩
  simp only [last_module, module_t.is_initrd, module_t.is_ramdisk]
  by_cases hdisk : names_disk module.string = true
  · simpa [hdisk] using hst.note_ramdisk hle hend
  · by_cases hai : module.string.take 2 = [0x61, 0x69]
    · simpa [hdisk, hai] using ⟨hst.ramdisk, rfl, rfl, rfl⟩
    · simpa [hdisk, hai] using hst

theorem multiboot2_tags_note {offset : ℕ} {tags : List ℕ} {entries : List mmap_entry_t} {modules : List module_t}
    (h : Multiboot2Tags mem mbd offset tags entries modules) (hle : ∀ module ∈ modules, module.mod_start ≤ module.mod_end)
    (st : Pmm) :
    ∃ st', Returns (fun fuel => tags.foldlM (multiboot2_tag fuel mem) st) st' ∧ Notes MULTIBOOT2_MAGIC modules st st' := by
  induction h generalizing st with
  | end_tag => exact ⟨st, .of_forall fun _ => rfl, .of_modules rfl⟩
  | @map offset _ entries _ _ htag hmap _ ih =>
    obtain ⟨st', hrest, hnotes⟩ := ih hle (entries.foldl multiboot2_free_entry st)
    have hfirst : Returns (fun fuel => multiboot2_tag fuel mem st (mbd + offset)) (entries.foldl multiboot2_free_entry st) :=
      .of_forall fun _ => by
        rw [multiboot2_tag, if_pos htag.type_eq, hmap.tag_entries]
        rfl
    refine ⟨st', hfirst.bind hrest, fun ramdisk initrd hst => hnotes _ _ (hst.of_modules ?_)⟩
    clear hfirst hrest hnotes ih hmap hst
    induction entries generalizing st with
    | nil => rfl
    | cons entry entries ih =>
      exact (ih _).trans (multiboot2_free_entry_preserves (I := fun s => s.modules = st.modules)
        (fun s block _ hs => (clear_bit_modules s block).trans hs) entry rfl)
  | module htag hmodule _ ih =>
    obtain ⟨st₁, hfirst, hnotes⟩ := hmodule.notes htag.type_eq (hle _ List.mem_cons_self) st
    obtain ⟨st', hrest, hnotes'⟩ := ih (fun module hmem => hle module (List.mem_cons_of_mem _ hmem)) st₁
    exact ⟨st', hfirst.bind hrest, hnotes.trans hnotes'⟩
  | other htag hother _ ih =>
    simp only [List.foldlM_cons, multiboot2_tag, htag.type_eq, if_neg hother.2.2, if_neg hother.2.1]
    split
    · obtain ⟨st', hrest, hnotes⟩ := ih hle _
      exact ⟨st', Returns.bind (.of_forall fun _ => rfl) hrest, fun ramdisk initrd hst => hnotes _ _ (hst.of_modules rfl)⟩
    · obtain ⟨st', hrest, hnotes⟩ := ih hle st
      exact ⟨st', Returns.bind (.of_forall fun _ => rfl) hrest, hnotes⟩

/-- Whatever the loops over a map do, it does not concern the modules. -/
theorem multiboot_map_modules (h : multiboot_map fuel mem mbd st = some st') : st'.modules = st.modules := by
  unfold multiboot_map at h
  split at h
  · obtain ⟨entries, -, hfold⟩ := Option.bind_eq_some_iff.mp h
    exact foldlM_invariant (I := fun s => s.modules = st.modules) (fun s _ _ hstep hs =>
      multiboot_free_entry_preserves (I := fun s => s.modules = st.modules)
        (fun s block _ hs => (clear_bit_modules s block).trans hs) hstep hs) hfold rfl
  · rw [Option.some.inj h]

theorem multiboot_fb_modules (mem : Memory) (mbd : ℕ) (st : Pmm) : (multiboot_fb mem mbd st).modules = st.modules := by
  unfold multiboot_fb
  split <;> rfl

variable {info : boot_info_t}

theorem MultibootInfo.notes (h : MultibootInfo mem mbd info)
    (hle : ∀ module ∈ info.modules, module.mod_start ≤ module.mod_end) (st : Pmm) :
    ∃ st', Returns (fun fuel => multiboot_modules fuel mem mbd st) st' ∧ Notes MULTIBOOT1_MAGIC info.modules st st' := by
  have hmodules := h.modules
  unfold multiboot_modules
  split at hmodules
  · rename_i hflag
    simp only [if_pos hflag]
    exact multiboot_modules_notes hmodules hle st
  · rename_i hflag
    simp only [if_neg hflag, hmodules]
    exact ⟨st, .of_forall fun _ => rfl, .of_modules rfl⟩

/-- However `read_boot_info` ends, it has recorded the last module of either kind. -/
theorem Reports.notes (h : Reports mem magic mbd info)
    (hread : Returns (fun fuel => read_boot_info fuel mem magic mbd st) st') : Notes magic info.modules st st' := by
  obtain ⟨rfl, hinfo⟩ | ⟨rfl, tags, htags⟩ := h.format
  · simp only [read_boot_info, if_true] at hread
    obtain ⟨fuel, hfuel⟩ := hread.exists
    obtain ⟨st₁, hmap, hmodules⟩ := Option.bind_eq_some_iff.mp hfuel
    obtain ⟨st₂, hreturns, hnotes⟩ := hinfo.notes h.modules (multiboot_fb mem mbd st₁)
    have hstable : Stable fun fuel => multiboot_modules fuel mem mbd (multiboot_fb mem mbd st₁) :=
      Stable.ite _ (Stable.foldlM (fun st₂ module_ptr => multiboot_module_stable mem st₂ module_ptr) _ _) (Stable.const _)
    obtain rfl := (hstable.returns hmodules).unique hreturns
    exact fun ramdisk initrd hst => hnotes _ _
      (hst.of_modules ((multiboot_fb_modules mem mbd st₁).trans (multiboot_map_modules hmap)))
  · simp only [read_boot_info, if_neg (show ¬ MULTIBOOT2_MAGIC = MULTIBOOT1_MAGIC by decide), if_true] at hread
    obtain ⟨st₂, hreturns, hnotes⟩ := multiboot2_tags_note htags h.modules st
    obtain rfl := hread.unique (htags.returns.bind hreturns)
    exact hnotes

/-- The blocks that stay reserved: those of the kernel, page 0 and those of the last
    initrd and ramdisk. -/
def Kept (kernel : KernelImage) (magic : ℕ) (info : boot_info_t) (c : ℕ) : Prop :=
  (kernel.kernel_start / PMM_BLOCK_SIZE ≤ c ∧ c ≤ kernel.kernel_end / PMM_BLOCK_SIZE) ∨ c = 0 ∨
    (∃ module ∈ last_module (module_t.is_initrd magic) info.modules none, module.Covers c) ∨
    ∃ module ∈ last_module module_t.is_ramdisk info.modules none, module.Covers c

/-- The tracked blocks that `pmm_init` leaves free, in terms of what the boot loader
    reports. -/
theorem pmm_init_free (h : Reports mem magic mbd info)
    (hinit : Returns (fun fuel => pmm_init fuel mem kernel magic mbd (static_pmm memory)) st) {c : ℕ} (hc : c < PMM_BLOCKS) :
    Free st c ↔ Cleared magic info.entries c ∧ ¬ Kept kernel magic info c := by
  obtain ⟨fuel, hmap, hfuel⟩ := (h.memory_map.and hinit).exists
  have hfrees := (pmm_init_frees hmap hfuel).free c
  obtain ⟨st₁, hread, heq⟩ := Option.bind_eq_some_iff.mp hfuel
  obtain rfl := Option.some.inj heq
  have hrecords := h.notes ((read_boot_info_stable mem magic mbd _).returns hread) none none ⟨rfl, rfl⟩
  have hbounded : ModulesBounded st₁ :=
    (read_boot_info_clears hmap hread).modules (by constructor <;> simp [reserve_all, static_pmm])
  have hbounded' : ModulesBounded { st₁ with total_memory_kb := st₁.free_blocks * 4 % 2 ^ 32 } :=
    ⟨hbounded.1, hbounded.2, hbounded.3, hbounded.4⟩
  have hmodules := (protect_reserves kernel hbounded').modules
  rw [hfrees, (hrecords.of_modules hmodules).protected_iff, Kept]
  exact or_iff_left fun hbeyond => absurd hbeyond.1 (by omega)

/-- The loop over an entry ends unless the entry reaches into the last page of the
    address space. -/
theorem clear_region_returns (st : Pmm) (addr len : ℕ) (hend : addr + len + PMM_BLOCK_SIZE ≤ 2 ^ 64) :
    ∃ st', Returns (fun fuel => clear_region fuel st addr len) st' := by
  simp only [PMM_BLOCK_SIZE] at hend
  simp only [clear_region, Nat.mod_eq_of_lt (show addr + len < 2 ^ 64 by omega), PMM_BLOCK_SIZE]
  generalize addr + len = end_addr at hend
  -- over the number of rounds that are left
  generalize hrounds : (end_addr - addr + 4095) / 4096 = rounds
  induction rounds generalizing addr st with
  | zero => exact ⟨st, .loop_exit _ (if_neg (by simp only; omega))⟩
  | succ rounds ih =>
    have hlt : addr < end_addr := by omega
    obtain ⟨st', hst'⟩ := ih (if addr / 4096 % 2 ^ 32 < PMM_BLOCKS then pmm_clear_bit st (addr / 4096 % 2 ^ 32) else st)
      (addr + 4096) (by omega)
    have hnext := Nat.mod_eq_of_lt (show addr + 4096 < 2 ^ 64 by omega)
    exact ⟨st', .loop_next (if_pos hlt) (by simp only [hnext]; exact hst')⟩

/-- No available entry reaches into the last page of the address space. -/
def Bounded (entries : List mmap_entry_t) : Prop :=
  ∀ entry ∈ entries, entry.type = 1 → entry.addr + entry.len + PMM_BLOCK_SIZE ≤ 2 ^ 64

theorem multiboot_map_returns (h : MultibootInfo mem mbd info) (hbounded : Bounded info.entries) (st : Pmm) :
    ∃ st', Returns (fun fuel => multiboot_map fuel mem mbd st) st' := by
  have hentries := h.entries
  unfold multiboot_map
  split at hentries
  · rename_i hflag
    simp only [if_pos hflag, multiboot_entries, Nat.mod_eq_of_lt hentries.1]
    obtain ⟨st', hfold⟩ := Returns.foldlM (f := fun fuel => multiboot_free_entry fuel) info.entries
      (fun entry hmem s => by
        simp only [multiboot_free_entry]
        split
        · exact clear_region_returns s _ _ (hbounded entry hmem ‹_›)
        · exact ⟨s, .of_forall fun _ => rfl⟩) st
    exact ⟨st', hentries.2.returns.bind hfold⟩
  · rename_i hflag
    simp only [if_neg hflag]
    exact ⟨st, .of_forall fun _ => rfl⟩

theorem pmm_init_returns (h : Reports mem magic mbd info) (hbounded : Bounded info.entries) (kernel : KernelImage) (st : Pmm) :
    ∃ st', Returns (fun fuel => pmm_init fuel mem kernel magic mbd st) st' := by
  suffices hread : ∃ st₁, Returns (fun fuel => read_boot_info fuel mem magic mbd (reserve_all st)) st₁ by
    obtain ⟨st₁, hst₁⟩ := hread
    exact ⟨_, hst₁.bind (.of_forall fun _ => rfl)⟩
  obtain ⟨rfl, hinfo⟩ | ⟨rfl, tags, htags⟩ := h.format
  · simp only [read_boot_info, if_true, multiboot_init]
    obtain ⟨st₁, hmap⟩ := multiboot_map_returns hinfo hbounded (reserve_all st)
    obtain ⟨st₂, hmodules, -⟩ := hinfo.notes h.modules (multiboot_fb mem mbd st₁)
    exact ⟨st₂, hmap.bind hmodules⟩
  · simp only [read_boot_info, if_neg (show ¬ MULTIBOOT2_MAGIC = MULTIBOOT1_MAGIC by decide), if_true]
    obtain ⟨st₂, hreturns, -⟩ := multiboot2_tags_note htags h.modules (reserve_all st)
    exact ⟨st₂, htags.returns.bind hreturns⟩

end os_dev.pmm
