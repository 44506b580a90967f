import OsDev.Arch.Acpi
import OsDev.Arch.Interrupts

open little_endian fuel walker os_dev.libc os_dev.pmm os_dev.idt os_dev.interrupts

namespace os_dev.acpi

/-- The override of the timer's line on the old bus. -/
def IsTimerOverride (mem : Memory) (ptr : ℕ) : Prop := mem ptr = 2 ∧ mem (ptr + 2) = 0 ∧ mem (ptr + 3) = 0

instance (mem : Memory) (ptr : ℕ) : Decidable (IsTimerOverride mem ptr) := inferInstanceAs (Decidable (_ ∧ _))

/-- The line that the firmware says the timer is on: the last override of the MADT has it, and without one it stays. -/
def TimerGsi (mem : Memory) (rsdp_addr before gsi : ℕ) : Prop :=
  (∃ madt ptr, acpi_madt mem rsdp_addr = some madt ∧ VisitsRecord mem madt ptr ∧ IsTimerOverride mem ptr ∧
    gsi = le32 mem (ptr + 4) ∧
    ∀ later, Visits (InMadt mem madt) (next_record mem) (next_record mem ptr) later → ¬ IsTimerOverride mem later) ∨
  (∀ madt ptr, acpi_madt mem rsdp_addr = some madt → VisitsRecord mem madt ptr → ¬ IsTimerOverride mem ptr) ∧ gsi = before

/-- Where a line gets to. -/
def target {Own : ℕ → Prop} (st : Interrupts Own) (line : ℕ) : Option Gate :=
  (delivers st.regs line).bind (fetch_gate (idt_bytes st.idt) idtp_limit)

variable {Own : ℕ → Prop} {st : Interrupts Own} {mem : Memory} {rsdp_addr before gsi : ℕ}

theorem timerGsi_of_acpi_init (h : Returns (fun fuel => acpi_init mem fuel rsdp_addr before) gsi) :
    TimerGsi mem rsdp_addr before gsi := by
  obtain ⟨fuel, hfuel⟩ := h.exists
  unfold acpi_init at hfuel
  cases hmadt : acpi_madt mem rsdp_addr with
  | none =>
    rw [hmadt] at hfuel
    refine .inr ⟨fun madt ptr hsome => ?_, (Option.some.inj hfuel).symm⟩
    rw [hmadt] at hsome
    cases hsome
  | some madt =>
    rw [hmadt] at hfuel
    obtain ⟨ptr, hvisits, hover, hgsi, hlast⟩ | ⟨hnone, hsame⟩ := @walk_last _ _ _ _ _ _ _ (IsTimerOverride mem) _ _ _ hfuel
    · exact .inl ⟨madt, ptr, hmadt, hvisits, hover, hgsi, hlast⟩
    · refine .inr ⟨fun madt' ptr hsome hvisits => ?_, hsame⟩
      obtain rfl := Option.some.inj (hmadt.symm.trans hsome)
      exact hnone ptr hvisits

theorem target_init (hmasked : Masked st.regs) (timer_gsi : UInt32) {line : ℕ} (hline : line < LINES) :
    target (init_idt st timer_gsi) line =
      if line = timer_line timer_gsi then some ⟨st.handlers.timer_asm_handler.toNat, 0x08, 0, 0x8E⟩
      else if line = 1 then some ⟨st.handlers.keyboard_asm_handler.toNat, 0x08, 0, 0x8E⟩
      else none := by
  have hdelivers : delivers (init_idt st timer_gsi).regs line = _ := delivers_init hmasked timer_gsi hline
  have htimer : fetch_gate (idt_bytes (init_idt st timer_gsi).idt) idtp_limit 32 = _ := fetch_gate_eq st.handlers st.idt 32
  have hkeyboard : fetch_gate (idt_bytes (init_idt st timer_gsi).idt) idtp_limit 33 = _ := fetch_gate_eq st.handlers st.idt 33
  rw [target, hdelivers]
  split_ifs
  · exact htimer
  · exact hkeyboard
  · rfl

/-- The timer's handler is reached from the line that the firmware has put the timer on, and from no other. The keyboard's
    is reached from line 1, unless the timer is there, and no other line does anything. -/
theorem timer_reaches_handler (st : Interrupts Own) (mem : Memory) (rsdp_addr before gsi : ℕ) (hmasked : Masked st.regs)
    (hacpi : Returns (fun fuel => acpi_init mem fuel rsdp_addr before) gsi) :
    TimerGsi mem rsdp_addr before gsi ∧ ∀ line < LINES, target (init_idt st (UInt32.ofNat gsi)) line =
      if line = gsi % 128 then some ⟨st.handlers.timer_asm_handler.toNat, 0x08, 0, 0x8E⟩
      else if line = 1 then some ⟨st.handlers.keyboard_asm_handler.toNat, 0x08, 0, 0x8E⟩
      else none := by
  refine ⟨timerGsi_of_acpi_init hacpi, fun line hline => ?_⟩
  have htimer : timer_line (UInt32.ofNat gsi) = gsi % 128 := by
    rw [timer_line, UInt32.toNat_ofNat']
    exact Nat.mod_mod_of_dvd gsi (by decide)
  rw [target_init hmasked _ hline, htimer]

/-- An RSDP, an RSDT and a MADT, whose only record puts the timer on line 20. -/
def firmware (a : ℕ) : UInt8 :=
  if a < 0x2000 then (ascii "RSD PTR " ++ List.replicate 8 0 ++ [0x00, 0x20, 0, 0]).getD (a - 0x1000) 0
  else if a < 0x3000 then (ascii "RSDT" ++ [40, 0, 0, 0] ++ List.replicate 28 0 ++ [0x00, 0x30, 0, 0]).getD (a - 0x2000) 0
  else (ascii "APIC" ++ [54, 0, 0, 0] ++ List.replicate 36 0 ++ [2, 10, 0, 0, 20, 0, 0, 0, 0, 0]).getD (a - 0x3000) 0

theorem firmware_timer : Returns (fun fuel => acpi_init firmware fuel 0x1000 2) 20 :=
  (acpi_init_stable 0x1000 2).returns (n := 2) (by decide +kernel)

theorem timer_reaches_handler_firmware : TimerGsi firmware 0x1000 2 20 ∧
    ∀ line < LINES, target (init_idt counting_interrupts (UInt32.ofNat 20)) line =
      if line = 20 % 128 then some ⟨counting_interrupts.handlers.timer_asm_handler.toNat, 0x08, 0, 0x8E⟩
      else if line = 1 then some ⟨counting_interrupts.handlers.keyboard_asm_handler.toNat, 0x08, 0, 0x8E⟩
      else none :=
  timer_reaches_handler counting_interrupts firmware 0x1000 2 20 counting_masked firmware_timer

end os_dev.acpi
