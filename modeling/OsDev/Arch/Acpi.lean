import OsDev.Lib.Walker
import OsDev.Libc.Str
import OsDev.Mm.Pmm

open little_endian fuel walker os_dev.libc os_dev.pmm

namespace os_dev.acpi

/-- `sizeof(acpi_header_t)`. -/
def HEADER_SIZE : ℕ := 36

variable (mem : Memory)

/-- The characters at `a` are those of `b`. -/
def string_cmp (a : ℕ) (b : CStr) : Bool := (List.range b.length).map (fun i => mem (a + i)) = b

/-- The table of tables: the RSDT, or the XSDT where there is none and the revision knows of it. -/
def find_rsdt (rsdp : ℕ) : Option ℕ :=
  let rsdt := le32 mem (rsdp + 16)
  if rsdt = 0 ∨ ¬ string_cmp mem rsdt (ascii "RSDT") then
    if 2 ≤ (mem (rsdp + 15)).toNat ∧ le64 mem (rsdp + 24) ≠ 0 then
      let rsdt := le64 mem (rsdp + 24)
      if rsdt = 0 ∨ ¬ string_cmp mem rsdt (ascii "XSDT") then none else some rsdt
    else none
  else some rsdt

/-- Entry `i` of the table, whose entries are as wide as its pointers. -/
def table_at (rsdt i : ℕ) : ℕ :=
  if string_cmp mem rsdt (ascii "XSDT") then le64 mem (rsdt + HEADER_SIZE + i * 8 % 2 ^ 32)
  else le32 mem (rsdt + HEADER_SIZE + i * 4 % 2 ^ 32)

/-- The first table that is a MADT. The length of the header is subtracted without a check. -/
def find_madt (rsdt : ℕ) : Option ℕ :=
  let entries := (le32 mem (rsdt + 4) + 2 ^ 64 - HEADER_SIZE) % 2 ^ 64 / (if string_cmp mem rsdt (ascii "XSDT") then 8 else 4)
    % 2 ^ 32
  ((List.range entries).map (table_at mem rsdt)).find? fun table => table ≠ 0 ∧ string_cmp mem table (ascii "APIC")

/-- The MADT that `acpi_init` gets to. -/
def acpi_madt (rsdp_addr : ℕ) : Option ℕ :=
  if rsdp_addr = 0 ∨ ¬ string_cmp mem rsdp_addr (ascii "RSD PTR ") then none
  else (find_rsdt mem rsdp_addr).bind (find_madt mem)

/-- Where the records of a MADT start. -/
def first_record (madt : ℕ) : ℕ := madt + HEADER_SIZE + 8

/-- There is a record in front of the end of the MADT. -/
def InMadt (madt ptr : ℕ) : Prop := ptr < madt + le32 mem (madt + 4)

instance (madt ptr : ℕ) : Decidable (InMadt mem madt ptr) := inferInstanceAs (Decidable (_ < _))

/-- The second byte of a record is its length. -/
def next_record (ptr : ℕ) : ℕ := ptr + (mem (ptr + 1)).toNat

/-- An interrupt source override for the timer moves it. -/
def record (ptr system_timer_gsi : ℕ) : ℕ :=
  if mem ptr = 2 ∧ mem (ptr + 2) = 0 ∧ mem (ptr + 3) = 0 then le32 mem (ptr + 4) else system_timer_gsi

def madt_records (fuel madt system_timer_gsi : ℕ) : Option ℕ :=
  walk (InMadt mem madt) (next_record mem) (fun _ ptr gsi => some (record mem ptr gsi)) fuel (first_record madt) system_timer_gsi

/-- `acpi_init`, with the number of the timer's interrupt before and after. -/
def acpi_init (fuel rsdp_addr system_timer_gsi : ℕ) : Option ℕ :=
  match acpi_madt mem rsdp_addr with
  | some madt => madt_records mem fuel madt system_timer_gsi
  | none => some system_timer_gsi

/-- The records that the loop gets to. -/
abbrev VisitsRecord (madt ptr : ℕ) : Prop := Visits (InMadt mem madt) (next_record mem) (first_record madt) ptr

/-- The record loop ends and moves on with every round. -/
structure RecordWalkEnds (madt : ℕ) : Prop where
  ends : ∀ gsi, ∃ gsi', Returns (fun fuel => madt_records mem fuel madt gsi) gsi'
  increases : ∀ ptr, VisitsRecord mem madt ptr → ptr < next_record mem ptr

/-- No record that the loop gets to has the length 0. -/
def RecordsAdvance (madt : ℕ) : Prop := ∀ ptr, VisitsRecord mem madt ptr → mem (ptr + 1) ≠ 0

variable {mem} {madt ptr : ℕ}

theorem lt_next_record_iff : ptr < next_record mem ptr ↔ mem (ptr + 1) ≠ 0 := by
  have hzero : (mem (ptr + 1)).toNat = 0 ↔ mem (ptr + 1) = 0 := UInt8.toNat_inj (b := 0)
  rw [next_record, Nat.lt_add_right_iff_pos, Nat.pos_iff_ne_zero, ne_eq, hzero]

theorem RecordsAdvance.ends (h : RecordsAdvance mem madt) (gsi : ℕ) : ∃ gsi', Returns (fun fuel => madt_records mem fuel madt gsi) gsi' := by
  have hbound : ∀ q, InMadt mem madt q → q < madt + le32 mem (madt + 4) := fun _ hin => hin
  refine walk_ends hbound (fun q hq => ?_) (fun q _ gsi => ?_) gsi
  · exact lt_next_record_iff.mpr (h q hq)
  · exact ⟨_, .of_forall fun _ => rfl⟩

theorem record_walk_ends_iff (mem : Memory) (madt : ℕ) : RecordWalkEnds mem madt ↔ RecordsAdvance mem madt := by
  constructor
  · exact fun h ptr hptr => lt_next_record_iff.mp (h.increases ptr hptr)
  · exact fun h => ⟨h.ends, fun ptr hptr => lt_next_record_iff.mpr (h ptr hptr)⟩

/-- A record without a length holds the loop up, so that it ends only where there is none. -/
theorem recordsAdvance_of_ends {gsi gsi' : ℕ} (h : Returns (fun fuel => madt_records mem fuel madt gsi) gsi') :
    RecordsAdvance mem madt := by
  intro ptr hvisits hzero
  have hsame : next_record mem ptr = ptr := by rw [next_record, hzero]; rfl
  have hdiverges : Diverges fun fuel => madt_records mem fuel madt gsi := walk_diverges hvisits hsame gsi
  exact h.not_diverges hdiverges

theorem madt_records_stable (madt gsi : ℕ) : Stable fun fuel => madt_records mem fuel madt gsi := by
  have hbody : ∀ ptr gsi : ℕ, Stable fun _ : ℕ => some (record mem ptr gsi) := fun _ _ => Stable.const _
  exact walk_stable hbody (first_record madt) gsi

theorem acpi_init_stable (rsdp_addr gsi : ℕ) : Stable fun fuel => acpi_init mem fuel rsdp_addr gsi := by
  unfold acpi_init
  cases acpi_madt mem rsdp_addr with
  | none => exact Stable.const _
  | some madt => exact madt_records_stable madt gsi

theorem acpi_init_ends (rsdp_addr : ℕ) (h : ∀ madt, acpi_madt mem rsdp_addr = some madt → RecordsAdvance mem madt) (gsi : ℕ) :
    ∃ gsi', Returns (fun fuel => acpi_init mem fuel rsdp_addr gsi) gsi' := by
  unfold acpi_init
  cases hmadt : acpi_madt mem rsdp_addr with
  | none => exact ⟨gsi, .of_forall fun _ => rfl⟩
  | some madt => exact (h madt hmadt).ends gsi

theorem recordsAdvance_of_acpi_init {rsdp_addr gsi gsi' : ℕ} (h : Returns (fun fuel => acpi_init mem fuel rsdp_addr gsi) gsi')
    (hmadt : acpi_madt mem rsdp_addr = some madt) : RecordsAdvance mem madt := by
  unfold acpi_init at h
  rw [hmadt] at h
  exact recordsAdvance_of_ends h

end os_dev.acpi
