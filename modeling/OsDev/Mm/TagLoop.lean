import OsDev.Arch.Acpi
import OsDev.Mm.BootInfo

open little_endian bitmap fuel walker os_dev.acpi

namespace os_dev.pmm

variable (mem : Memory) (mbd : ℕ)

/-- The tag at an offset is inside of the information and not its end. -/
def InTags (offset : ℕ) : Prop := offset < le32 mem mbd ∧ le32 mem (mbd + offset) ≠ 0

instance (offset : ℕ) : Decidable (InTags mem mbd offset) := inferInstanceAs (Decidable (_ ∧ _))

/-- The offset behind a tag, with both additions and the rounding in 32 bits. -/
def next_offset (offset : ℕ) : ℕ := (offset + (le32 mem (mbd + offset + 4) + 7) % 2 ^ 32 / 8 * 8) % 2 ^ 32

/-- What one round of the multiboot2 loop does, with the allocator and the number of the timer's interrupt. -/
def visit_tag (fuel offset : ℕ) (st : Pmm × ℕ) : Option (Pmm × ℕ) :=
  let tag := mbd + offset
  if le32 mem tag = 14 ∨ le32 mem tag = 15 then (acpi_init mem fuel (tag + 8) st.2).map fun gsi => (st.1, gsi)
  else (multiboot2_tag fuel mem st.1 tag).map fun st₁ => (st₁, st.2)

/-- The multiboot2 loop, tag after tag. -/
def multiboot2_loop (fuel : ℕ) (st : Pmm × ℕ) : Option (Pmm × ℕ) :=
  walk (InTags mem mbd) (next_offset mem mbd) (visit_tag mem mbd) fuel 8 st

/-- The tags that the loop gets to. -/
abbrev VisitsTag (offset : ℕ) : Prop := Visits (InTags mem mbd) (next_offset mem mbd) 8 offset

/-- A tag of one of the two ACPI types leads to this MADT. -/
def LeadsToMadt (offset madt : ℕ) : Prop :=
  (le32 mem (mbd + offset) = 14 ∨ le32 mem (mbd + offset) = 15) ∧ acpi_madt mem (mbd + offset + 8) = some madt

/-- The tag loop and the record loops in it end, without a division by zero, and move on with every round. -/
structure TagWalkEnds : Prop where
  ends : ∀ st, ∃ st', Returns (fun fuel => multiboot2_loop mem mbd fuel st) st'
  increases : ∀ offset, VisitsTag mem mbd offset → offset < next_offset mem mbd offset
  records : ∀ offset madt, VisitsTag mem mbd offset → LeadsToMadt mem mbd offset madt → RecordWalkEnds mem madt

/-- A tag that the loop can leave behind it. -/
structure TagAdvances (offset : ℕ) : Prop where
  size : 0 < le32 mem (mbd + offset + 4) ∧ le32 mem (mbd + offset + 4) ≤ 2 ^ 32 - 8
  no_wrap : offset + (le32 mem (mbd + offset + 4) + 7) / 8 * 8 < 2 ^ 32
  entry_size : le32 mem (mbd + offset) = 6 → le32 mem (mbd + offset + 8) ≠ 0
  string : le32 mem (mbd + offset) = 3 → ∃ k, mem (mbd + offset + 16 + k) = 0
  records : ∀ madt, LeadsToMadt mem mbd offset madt → RecordsAdvance mem madt

variable {mem mbd} {offset : ℕ}

theorem lt_next_offset_iff (hin : InTags mem mbd offset) : offset < next_offset mem mbd offset ↔
    (0 < le32 mem (mbd + offset + 4) ∧ le32 mem (mbd + offset + 4) ≤ 2 ^ 32 - 8) ∧
      offset + (le32 mem (mbd + offset + 4) + 7) / 8 * 8 < 2 ^ 32 := by
  have htotal := le32_lt mem mbd
  have hsize := le32_lt mem (mbd + offset + 4)
  have hlt := hin.1
  unfold next_offset
  omega

theorem c_string_ends_iff (str : ℕ) : (∃ chars, Returns (fun fuel => c_string fuel mem str) chars) ↔ ∃ k, mem (str + k) = 0 := by
  have hplace : ∀ n (s : ℕ × List UInt8), ((fun s : ℕ × List UInt8 => (s.1 + 1, s.2 ++ [mem s.1]))^[n] s).1 = s.1 + n := by
    intro n
    induction n with
    | zero => exact fun s => rfl
    | succ n ih =>
      intro s
      rw [Function.iterate_succ_apply, ih]
      omega
  unfold c_string
  rw [loop_ends_iff]
  refine exists_congr fun n => ?_
  simp only [hplace]
  split
  · rename_i hchar
    exact iff_of_false (by simp) hchar
  · rename_i hchar
    exact iff_of_true (by simp) (not_not.mp hchar)

theorem multiboot2_tag_ends (tag : ℕ) (hentry : le32 mem tag = 6 → le32 mem (tag + 8) ≠ 0)
    (hstring : le32 mem tag = 3 → ∃ k, mem (tag + 16 + k) = 0) (st : Pmm) :
    ∃ st', Returns (fun fuel => multiboot2_tag fuel mem st tag) st' := by
  simp only [multiboot2_tag]
  by_cases hmap : le32 mem tag = 6
  · simp only [if_pos hmap, multiboot2_tag_entries, if_neg (hentry hmap)]
    exact ⟨_, .of_forall fun _ => rfl⟩
  simp only [if_neg hmap]
  by_cases hfb : le32 mem tag = 8
  · simp only [if_pos hfb]
    exact ⟨_, .of_forall fun _ => rfl⟩
  simp only [if_neg hfb]
  by_cases hmodule : le32 mem tag = 3
  · simp only [if_pos hmodule]
    obtain ⟨chars, hchars⟩ := (c_string_ends_iff _).mpr (hstring hmodule)
    exact ⟨_, hchars.bind (.of_forall fun _ => rfl)⟩
  · simp only [if_neg hmodule]
    exact ⟨_, .of_forall fun _ => rfl⟩

theorem TagAdvances.visit_tag_ends (h : TagAdvances mem mbd offset) (st : Pmm × ℕ) :
    ∃ st', Returns (fun fuel => visit_tag mem mbd fuel offset st) st' := by
  simp only [visit_tag]
  split
  · obtain ⟨gsi, hgsi⟩ := acpi_init_ends (mbd + offset + 8) (fun madt hmadt => h.records madt ⟨‹_›, hmadt⟩) st.2
    exact ⟨_, hgsi.map _⟩
  · obtain ⟨st₁, hst₁⟩ := multiboot2_tag_ends (mbd + offset) h.entry_size h.string st.1
    exact ⟨_, hst₁.map _⟩

/-- A tag that has been handled did not fault. -/
theorem tag_of_visit_tag {fuel : ℕ} {st st' : Pmm × ℕ} (h : visit_tag mem mbd fuel offset st = some st') :
    (le32 mem (mbd + offset) = 6 → le32 mem (mbd + offset + 8) ≠ 0) ∧
      (le32 mem (mbd + offset) = 3 → ∃ k, mem (mbd + offset + 16 + k) = 0) ∧
      ∀ madt, LeadsToMadt mem mbd offset madt → RecordsAdvance mem madt := by
  refine ⟨fun htype hzero => ?_, fun htype => ?_, fun madt hmadt => ?_⟩
  · simp only [visit_tag, multiboot2_tag, htype, multiboot2_tag_entries, hzero, if_true] at h
    cases h
  · simp only [visit_tag, multiboot2_tag, htype] at h
    obtain ⟨st₁, hst₁, -⟩ := Option.map_eq_some_iff.mp h
    obtain ⟨chars, hchars, -⟩ := Option.bind_eq_some_iff.mp hst₁
    exact (c_string_ends_iff _).mp ⟨chars, (c_string_stable mem _).returns hchars⟩
  · simp only [visit_tag, if_pos hmadt.1] at h
    obtain ⟨gsi, hgsi, -⟩ := Option.map_eq_some_iff.mp h
    exact recordsAdvance_of_acpi_init ((acpi_init_stable _ _).returns hgsi) hmadt.2

/-- The tag loop ends and moves on exactly if it can leave every tag behind it. -/
theorem tag_walk_ends_iff (mem : Memory) (mbd : ℕ) :
    TagWalkEnds mem mbd ↔ ∀ offset, VisitsTag mem mbd offset → TagAdvances mem mbd offset := by
  constructor
  · intro h offset hvisits
    obtain ⟨hsize, hwrap⟩ := (lt_next_offset_iff hvisits.stands).mp (h.increases offset hvisits)
    obtain ⟨st', hst'⟩ := h.ends (static_pmm fun _ => 0, 2)
    obtain ⟨fuel, hfuel⟩ := hst'.exists
    obtain ⟨fuel₁, s₁, s₂, hbody⟩ := walk_handles hvisits hfuel
    obtain ⟨hentry, hstring, hrecords⟩ := tag_of_visit_tag hbody
    exact ⟨hsize, hwrap, hentry, hstring, hrecords⟩
  · intro h
    have hincreases : ∀ offset, VisitsTag mem mbd offset → offset < next_offset mem mbd offset :=
      fun offset hvisits => (lt_next_offset_iff hvisits.stands).mpr ⟨(h offset hvisits).size, (h offset hvisits).no_wrap⟩
    have hbound : ∀ offset, InTags mem mbd offset → offset < le32 mem mbd := fun _ hin => hin.1
    refine ⟨fun st => ?_, hincreases, fun offset madt hvisits hmadt => ?_⟩
    · exact walk_ends hbound hincreases (fun offset hvisits => (h offset hvisits).visit_tag_ends) st
    · exact (record_walk_ends_iff mem madt).mpr ((h offset hvisits).records madt hmadt)

section AgainstTheList

/-- For the allocator the ACPI tags do nothing. -/
theorem visit_tag_pmm {fuel : ℕ} {st st' : Pmm × ℕ} (h : visit_tag mem mbd fuel offset st = some st') :
    Returns (fun fuel => multiboot2_tag fuel mem st.1 (mbd + offset)) st'.1 := by
  simp only [visit_tag] at h
  split at h
  · rename_i htype
    obtain ⟨gsi, -, rfl⟩ := Option.map_eq_some_iff.mp h
    refine .of_forall fun fuel => ?_
    simp only [multiboot2_tag]
    rw [if_neg (by omega), if_neg (by omega), if_neg (by omega)]
  · obtain ⟨st₁, hst₁, rfl⟩ := Option.map_eq_some_iff.mp h
    exact (multiboot2_tag_stable mem st.1 _).returns hst₁

/-- A loop that ends has gone through the list of its tags. -/
theorem walk_tags {fuel : ℕ} {st st' : Pmm × ℕ}
    (h : walk (InTags mem mbd) (next_offset mem mbd) (visit_tag mem mbd) fuel offset st = some st') :
    ∃ tags, Collects (InTags mem mbd) (next_offset mem mbd) (fun a => mbd + a) offset tags ∧
      Returns (fun fuel => tags.foldlM (multiboot2_tag fuel mem) st.1) st'.1 := by
  induction fuel generalizing offset st with
  | zero => cases h
  | succ fuel ih =>
    rw [walk] at h
    split at h
    · obtain ⟨st₁, hfirst, hrest⟩ := Option.bind_eq_some_iff.mp h
      obtain ⟨tags, hcollects, hfold⟩ := ih hrest
      exact ⟨_, .step ‹_› hcollects, (visit_tag_pmm hfirst).bind hfold⟩
    · obtain rfl := Option.some.inj h
      exact ⟨[], .stop ‹_›, .of_forall fun _ => rfl⟩

/-- The loop leaves the allocator as `multiboot2_init` does, which lists the tags first. -/
theorem multiboot2_loop_init {st st' : Pmm × ℕ} (h : Returns (fun fuel => multiboot2_loop mem mbd fuel st) st') :
    Returns (fun fuel => multiboot2_init fuel mem mbd st.1) st'.1 := by
  obtain ⟨fuel, hfuel⟩ := h.exists
  obtain ⟨tags, hcollects, hfold⟩ := walk_tags hfuel
  have htags : Returns (fun fuel => multiboot2_tags fuel mem mbd) tags := hcollects.returns []
  exact htags.bind hfold

end AgainstTheList

/-- The two walkers of firmware records, on any content of the memory. -/
theorem firmware_walks_end_iff (mem : Memory) (mbd madt : ℕ) :
    (TagWalkEnds mem mbd ↔ ∀ offset, VisitsTag mem mbd offset → TagAdvances mem mbd offset) ∧
      (RecordWalkEnds mem madt ↔ RecordsAdvance mem madt) :=
  ⟨tag_walk_ends_iff mem mbd, record_walk_ends_iff mem madt⟩

/-- The information at 64 KB holds one tag, of size 0. -/
def empty_tag_memory : Memory := fun a => if a = 0x10000 then 16 else if a = 0x10008 then 1 else 0

/-- A MADT at 64 KB with one record, of length 0. -/
def empty_record_memory : Memory := fun a => if a = 0x10004 then 52 else 0

theorem empty_records_hang :
    (¬ TagWalkEnds empty_tag_memory 0x10000 ∧ ∀ st, Diverges fun fuel => multiboot2_loop empty_tag_memory 0x10000 fuel st) ∧
      ¬ RecordWalkEnds empty_record_memory 0x10000 ∧
        ∀ gsi, Diverges fun fuel => madt_records empty_record_memory fuel 0x10000 gsi := by
  have htag : VisitsTag empty_tag_memory 0x10000 8 := .here (by decide +kernel)
  have hsame : next_offset empty_tag_memory 0x10000 8 = 8 := by decide +kernel
  have hrecord : VisitsRecord empty_record_memory 0x10000 (first_record 0x10000) := .here (by decide +kernel)
  have hzero : empty_record_memory (first_record 0x10000 + 1) = 0 := by decide +kernel
  refine ⟨⟨fun h => ?_, walk_diverges htag hsame⟩, fun h => ?_, walk_diverges hrecord (by rw [next_record, hzero]; rfl)⟩
  · exact absurd (h.increases 8 htag) (by rw [hsame]; exact Nat.lt_irrefl 8)
  · exact (record_walk_ends_iff _ _).mp h _ hrecord hzero

end os_dev.pmm
