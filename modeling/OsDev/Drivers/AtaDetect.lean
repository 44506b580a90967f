import OsDev.Lib.Countdown
import OsDev.Ata

open countdown

namespace os_dev.ata

def ATA_PRIMARY_BASE : ℕ := 0x1F0
def ATA_SECONDARY_BASE : ℕ := 0x170
def ATA_SR_BSY : UInt8 := 0x80
def ATA_SR_DRQ : UInt8 := 0x08
def ATA_SR_ERR : UInt8 := 0x01

/-- The polls that a slot is given. -/
def POLL_BUDGET : ℕ := 100000

/-- What the ports of the controllers deliver, one read after the other. -/
structure Ports where
  status : ℕ → UInt8
  data : ℕ → UInt16

/-- One of the places for a drive. -/
structure Slot where
  base : ℕ
  drive_sel : ℕ
deriving DecidableEq

/-- The variables that the probing sets, and how much it has read from the ports. -/
structure Detect where
  total_sectors : ℕ
  active_base_port : ℕ
  active_drive_sel : ℕ
  status_reads : ℕ
  data_reads : ℕ

/-- How the probing of a slot goes on: past it for one of four reasons, or to its IDENTIFY data. -/
inductive SlotEnd
  | absent
  | bsy_timeout
  | error
  | drq_timeout
  | identify
deriving DecidableEq

variable (ports : Ports)

/-- Status byte `k` says that the drive is busy. -/
def busy (k : ℕ) : Bool := ports.status k &&& ATA_SR_BSY ≠ 0

/-- Status byte `k` says that there is no data. -/
def unready (k : ℕ) : Bool := ports.status k &&& ATA_SR_DRQ = 0

/-- The waits of the probing, with a counter of 32 bits. -/
def wait_bsy (pos : ℕ) : ℕ × ℕ := poll (busy ports) (2 ^ 32) POLL_BUDGET pos

def wait_drq (pos : ℕ) : ℕ × ℕ := poll (unready ports) (2 ^ 32) POLL_BUDGET pos

/-- The body of the inner loop up to the IDENTIFY data, from status byte `pos` on. -/
def probe_slot (pos : ℕ) : SlotEnd × ℕ :=
  let status := ports.status pos
  if status = 0 ∨ status = 0xFF then (.absent, pos + 1)
  else
    let (pos, timeout) := wait_bsy ports (pos + 1)
    if timeout = 0 then (.bsy_timeout, pos)
    else if ports.status pos &&& ATA_SR_ERR ≠ 0 then (.error, pos + 1)
    else
      let (pos, timeout) := wait_drq ports (pos + 1)
      if timeout = 0 then (.drq_timeout, pos) else (.identify, pos)

/-- The size of the drive is in the words 60 and 61 of its data. -/
def Detect.identify (st : Detect) : Detect :=
  { st with
    total_sectors := (ports.data (st.data_reads + 60)).toNat + 65536 * (ports.data (st.data_reads + 61)).toNat
    data_reads := st.data_reads + 256 }

/-- The whole body of the inner loop, with the result 1 where it returns. -/
def Detect.visit (st : Detect) (slot : Slot) : Int × Detect :=
  match probe_slot ports st.status_reads with
  | (.identify, pos) =>
    let st := { st.identify ports with status_reads := pos }
    if 0 < st.total_sectors then
      (1, { st with active_base_port := slot.base, active_drive_sel := if slot.drive_sel = 0xB0 then 0xF0 else 0xE0 })
    else (0, st)
  | (_, pos) => (0, { st with status_reads := pos })

def Detect.scan : List Slot → Detect → Int × Detect
  | [], st => (0, st)
  | slot :: slots, st =>
    match st.visit ports slot with
    | (0, st) => Detect.scan slots st
    | found => found

/-- The four slots, in the order of the two loops. -/
def slots : List Slot :=
  [ATA_PRIMARY_BASE, ATA_SECONDARY_BASE].flatMap fun base => [0xA0, 0xB0].map fun drive_sel => ⟨base, drive_sel⟩

def ata_detect_real_drive (st : Detect) : Int × Detect := Detect.scan ports slots st

/-- A slot that a scan gets to, and the state it gets there in. -/
inductive Probed : List Slot → Detect → Slot → Detect → Prop
  | here (slot : Slot) (slots : List Slot) (st : Detect) : Probed (slot :: slots) st slot st
  | later {slot slot' : Slot} {slots : List Slot} {st st' : Detect} (hgoes : (st.visit ports slot).1 = 0)
      (h : Probed slots (st.visit ports slot).2 slot' st') : Probed (slot :: slots) st slot' st'

/-- Where the wait for the data starts: behind the wait for BSY and the test for an error. -/
def drq_start (pos : ℕ) : ℕ := (wait_bsy ports (pos + 1)).1 + 1

/-- A wait whose whole budget goes by. -/
def UsesUpBudget (again : ℕ → Bool) (pos : ℕ) : Prop := ∀ k < POLL_BUDGET, again (pos + k) = true

/-- What the timeouts are there for, at a slot that is probed from status byte `pos` on. The last byte of a wait
    is the one in front of where it ends. -/
structure HonoursTimeouts (pos : ℕ) : Prop where
  identified : (probe_slot ports pos).1 = .identify →
    busy ports ((wait_bsy ports (pos + 1)).1 - 1) = false ∧ unready ports ((wait_drq ports (drq_start ports pos)).1 - 1) = false
  skipped : UsesUpBudget (busy ports) (pos + 1) ∨ UsesUpBudget (unready ports) (drq_start ports pos) →
    (probe_slot ports pos).1 ≠ .identify
  kept : ¬ UsesUpBudget (busy ports) (pos + 1) → ¬ UsesUpBudget (unready ports) (drq_start ports pos) →
    (probe_slot ports pos).1 ≠ .bsy_timeout ∧ (probe_slot ports pos).1 ≠ .drq_timeout

/-- There is something in the slot, and it stays busy past the budget without reporting an error. The counter is
    found to be zero later on only if the wait for the data ends with the poll right behind its budget. -/
structure HangsBusy (pos : ℕ) : Prop where
  present : ports.status pos ≠ 0 ∧ ports.status pos ≠ 0xFF
  stays_busy : ∀ k ≤ POLL_BUDGET, busy ports (pos + 1 + k) = true
  no_error : ports.status (pos + POLL_BUDGET + 2) &&& ATA_SR_ERR = 0
  not_late : ¬ (UsesUpBudget (unready ports) (pos + POLL_BUDGET + 3) ∧ unready ports (pos + POLL_BUDGET + 3 + POLL_BUDGET) = false)

/-- It is no longer busy after `k` polls, but the data is not there past the budget. -/
structure HangsUnready (pos k : ℕ) : Prop where
  present : ports.status pos ≠ 0 ∧ ports.status pos ≠ 0xFF
  in_budget : k < POLL_BUDGET
  was_busy : ∀ j < k, busy ports (pos + 1 + j) = true
  done : busy ports (pos + 1 + k) = false
  no_error : ports.status (pos + k + 2) &&& ATA_SR_ERR = 0
  stays_unready : ∀ j ≤ POLL_BUDGET, unready ports (pos + k + 3 + j) = true

def Hangs (pos : ℕ) : Prop := HangsBusy ports pos ∨ ∃ k, HangsUnready ports pos k

variable {ports} {again : ℕ → Bool} {pos i : ℕ} {w : ℕ × ℕ}

/-- A wait that ends in its budget, with the poll right behind it, or not at all. Only the second leaves zero. -/
inductive WaitEnd (again : ℕ → Bool) (pos : ℕ) : ℕ × ℕ → Prop
  | seen {i : ℕ} (hi : i < POLL_BUDGET) (hbefore : ∀ j < i, again (pos + j) = true) (hstop : again (pos + i) = false) :
      WaitEnd again pos (pos + i + 1, POLL_BUDGET - i)
  | late (hbefore : ∀ j < POLL_BUDGET, again (pos + j) = true) (hstop : again (pos + POLL_BUDGET) = false) :
      WaitEnd again pos (pos + POLL_BUDGET + 1, 0)
  | never (hnever : ∀ j ≤ POLL_BUDGET, again (pos + j) = true) : WaitEnd again pos (pos + POLL_BUDGET + 1, 2 ^ 32 - 1)

theorem wrapped_ne_zero : (2 : ℕ) ^ 32 - 1 ≠ 0 := by decide

theorem wait_end (again : ℕ → Bool) (pos : ℕ) : WaitEnd again pos (poll again (2 ^ 32) POLL_BUDGET pos) := by
  rcases poll_cases again (2 ^ 32) POLL_BUDGET pos with ⟨i, hle, hbefore, hstop, hpoll⟩ | ⟨hnever, hpoll⟩
  · rw [hpoll]
    rcases Nat.lt_or_eq_of_le hle with hlt | rfl
    · exact .seen hlt hbefore hstop
    · rw [Nat.sub_self]
      exact .late hbefore hstop
  · rw [hpoll]
    exact .never hnever

/-- A wait that ended in its budget did so because of its last byte. -/
theorem WaitEnd.last (h : WaitEnd again pos w) (hbudget : ¬ UsesUpBudget again pos) : w.2 ≠ 0 ∧ again (w.1 - 1) = false := by
  cases h with
  | seen hi hbefore hstop => exact ⟨Nat.sub_ne_zero_of_lt hi, hstop⟩
  | late hbefore hstop => exact absurd hbefore hbudget
  | never hnever => exact absurd (fun j hj => hnever j (Nat.le_of_lt hj)) hbudget

/-- Where the counter is not zero, the wait has ended in its budget or never. -/
theorem WaitEnd.of_ne_zero (h : WaitEnd again pos w) (hw : w.2 ≠ 0) (hnever : ¬ ∀ j ≤ POLL_BUDGET, again (pos + j) = true) :
    ∃ i < POLL_BUDGET, (∀ j < i, again (pos + j) = true) ∧ again (pos + i) = false ∧ w.1 = pos + i + 1 := by
  cases h with
  | @seen i hi hbefore hstop => exact ⟨i, hi, hbefore, hstop, rfl⟩
  | late hbefore hstop => exact absurd rfl hw
  | never h => exact absurd h hnever

/-- The counter is zero only behind a wait that ended with the poll behind its budget. -/
theorem WaitEnd.of_zero (h : WaitEnd again pos w) (hw : w.2 = 0) : UsesUpBudget again pos ∧ again (pos + POLL_BUDGET) = false := by
  cases h with
  | seen hi hbefore hstop => exact absurd hw (Nat.sub_ne_zero_of_lt hi)
  | late hbefore hstop => exact ⟨hbefore, hstop⟩
  | never hnever => exact absurd hw wrapped_ne_zero

theorem wait_of_never (hnever : ∀ j ≤ POLL_BUDGET, again (pos + j) = true) :
    poll again (2 ^ 32) POLL_BUDGET pos = (pos + POLL_BUDGET + 1, 2 ^ 32 - 1) := poll_of_never hnever

theorem not_used_up (hi : i < POLL_BUDGET) (hstop : again (pos + i) = false) : ¬ UsesUpBudget again pos := by
  intro hused
  exact absurd (hused i hi) (by rw [hstop]; decide)

section Slot

variable (ports pos)

theorem probe_slot_identify_iff : (probe_slot ports pos).1 = .identify ↔
    (ports.status pos ≠ 0 ∧ ports.status pos ≠ 0xFF) ∧ (wait_bsy ports (pos + 1)).2 ≠ 0 ∧
      ports.status (wait_bsy ports (pos + 1)).1 &&& ATA_SR_ERR = 0 ∧ (wait_drq ports (drq_start ports pos)).2 ≠ 0 := by
  simp only [probe_slot, drq_start]
  split_ifs with habsent hbsy herr hdrq
  · refine iff_of_false (fun h => nomatch h) ?_
    rintro ⟨⟨hzero, hbus⟩, -⟩
    exact habsent.elim hzero hbus
  · simp [hbsy]
  · simp [herr]
  · simp [hdrq]
  · simp only [true_iff]
    exact ⟨not_or.mp habsent, hbsy, not_not.mp herr, hdrq⟩

theorem probe_slot_bsy_timeout (h : (probe_slot ports pos).1 = .bsy_timeout) : (wait_bsy ports (pos + 1)).2 = 0 := by
  simp only [probe_slot] at h
  split_ifs at h with habsent hbsy herr hdrq
  exact hbsy

theorem probe_slot_drq_timeout (h : (probe_slot ports pos).1 = .drq_timeout) : (wait_drq ports (drq_start ports pos)).2 = 0 := by
  simp only [probe_slot] at h
  split_ifs at h with habsent hbsy herr hdrq
  exact hdrq

end Slot

/-- Without a device that hangs, IDENTIFY data is read after two waits that ended in their budgets. -/
theorem identify_in_budget (hhangs : ¬ Hangs ports pos) (hidentify : (probe_slot ports pos).1 = .identify) :
    ¬ UsesUpBudget (busy ports) (pos + 1) ∧ ¬ UsesUpBudget (unready ports) (drq_start ports pos) := by
  obtain ⟨hpresent, hbsy, herr, hdrq⟩ := (probe_slot_identify_iff ports pos).mp hidentify
  rw [Hangs, not_or, not_exists] at hhangs
  have hbsy_end := wait_end (busy ports) (pos + 1)
  have hdrq_end := wait_end (unready ports) (drq_start ports pos)
  have hnever : ¬ ∀ j ≤ POLL_BUDGET, busy ports (pos + 1 + j) = true := by
    intro hnever
    have hstart : (wait_bsy ports (pos + 1)).1 = pos + POLL_BUDGET + 2 := by
      rw [wait_bsy, wait_of_never hnever]
      omega
    have hready : drq_start ports pos = pos + POLL_BUDGET + 3 := by rw [drq_start, hstart]
    rw [hstart] at herr
    refine hhangs.1 ⟨hpresent, hnever, herr, ?_⟩
    rintro ⟨hused, hlast⟩
    rw [← hready] at hused hlast
    have hlate : wait_drq ports (drq_start ports pos) = _ := poll_of_first (Nat.le_refl _) hused hlast
    rw [hlate, Nat.sub_self] at hdrq
    exact hdrq rfl
  obtain ⟨k, hk, hbefore, hstop, hstart⟩ := hbsy_end.of_ne_zero hbsy hnever
  have hstart : (wait_bsy ports (pos + 1)).1 = pos + k + 2 := by
    rw [wait_bsy, hstart]
    omega
  have hready : drq_start ports pos = pos + k + 3 := by rw [drq_start, hstart]
  rw [hstart] at herr
  have hnever' : ¬ ∀ j ≤ POLL_BUDGET, unready ports (drq_start ports pos + j) = true := by
    rw [hready]
    exact fun hunready => hhangs.2 k ⟨hpresent, hk, hbefore, hstop, herr, hunready⟩
  obtain ⟨i, hi, -, hseen, -⟩ := hdrq_end.of_ne_zero hdrq hnever'
  exact ⟨not_used_up hk hstop, not_used_up hi hseen⟩

/-- A device that hangs is read all the same, although it has used up a budget. -/
theorem Hangs.identify (h : Hangs ports pos) : (probe_slot ports pos).1 = .identify ∧
    (UsesUpBudget (busy ports) (pos + 1) ∨ UsesUpBudget (unready ports) (drq_start ports pos)) := by
  rw [probe_slot_identify_iff]
  rcases h with ⟨hpresent, hbusy, herr, hready⟩ | ⟨k, hpresent, hk, hbusy, hdone, herr, hunready⟩
  · have hwait : wait_bsy ports (pos + 1) = (pos + POLL_BUDGET + 2, 2 ^ 32 - 1) := by
      rw [wait_bsy, wait_of_never hbusy, Nat.add_right_comm pos 1]
    have hstart : drq_start ports pos = pos + POLL_BUDGET + 3 := by rw [drq_start, hwait]
    rw [hwait, hstart]
    refine ⟨⟨hpresent, wrapped_ne_zero, herr, ?_⟩, .inl fun j hj => hbusy j (Nat.le_of_lt hj)⟩
    exact fun hzero => hready ((wait_end _ _).of_zero hzero)
  · have hwait : wait_bsy ports (pos + 1) = (pos + k + 2, POLL_BUDGET - k) := by
      rw [wait_bsy, poll_of_first (Nat.le_of_lt hk) hbusy hdone, Nat.add_right_comm pos 1]
    have hstart : drq_start ports pos = pos + k + 3 := by rw [drq_start, hwait]
    rw [hwait, hstart]
    refine ⟨⟨hpresent, Nat.sub_ne_zero_of_lt hk, herr, ?_⟩, .inr fun j hj => hunready j (Nat.le_of_lt hj)⟩
    rw [wait_drq, wait_of_never hunready]
    exact wrapped_ne_zero

/-- The timeouts of a slot work exactly where nothing hangs. -/
theorem honours_timeouts_iff (ports : Ports) (pos : ℕ) : HonoursTimeouts ports pos ↔ ¬ Hangs ports pos := by
  constructor
  · intro h hhangs
    obtain ⟨hidentify, hused⟩ := hhangs.identify
    exact h.skipped hused hidentify
  · intro hhangs
    refine ⟨fun hidentify => ?_, fun hused hidentify => ?_, fun hbusy hunready => ⟨fun htimeout => ?_, fun htimeout => ?_⟩⟩
    · obtain ⟨hbusy, hunready⟩ := identify_in_budget hhangs hidentify
      exact ⟨((wait_end _ _).last hbusy).2, ((wait_end _ _).last hunready).2⟩
    · obtain ⟨hbusy, hunready⟩ := identify_in_budget hhangs hidentify
      exact hused.elim hbusy hunready
    · exact ((wait_end _ _).last hbusy).1 (probe_slot_bsy_timeout ports pos htimeout)
    · exact ((wait_end _ _).last hunready).1 (probe_slot_drq_timeout ports pos htimeout)

/-- A slot has the master or the slave of its cable in the drive register. -/
theorem visit_sel {st : Detect} (slot : Slot) (h : st.active_drive_sel = 0xE0 ∨ st.active_drive_sel = 0xF0) :
    (st.visit ports slot).2.active_drive_sel = 0xE0 ∨ (st.visit ports slot).2.active_drive_sel = 0xF0 := by
  simp only [Detect.visit]
  generalize probe_slot ports st.status_reads = ended
  obtain ⟨reason, pos⟩ := ended
  cases reason with
  | identify =>
    split_ifs
    · exact .inr rfl
    · exact .inl rfl
    · exact h
  | absent => exact h
  | bsy_timeout => exact h
  | error => exact h
  | drq_timeout => exact h

/-- A drive with sectors is the one to settle on. -/
theorem visit_of_identify {st : Detect} (slot : Slot) (hidentify : (probe_slot ports st.status_reads).1 = .identify)
    (hsize : 0 < (st.identify ports).total_sectors) : (st.visit ports slot).1 = 1 := by
  simp only [Detect.visit]
  generalize probe_slot ports st.status_reads = ended at hidentify
  obtain ⟨reason, pos⟩ := ended
  obtain rfl : reason = .identify := hidentify
  simp only [if_pos hsize]

theorem scan_of_found {slot : Slot} {slots : List Slot} {st : Detect} (h : (st.visit ports slot).1 ≠ 0) :
    Detect.scan ports (slot :: slots) st = st.visit ports slot := by
  rw [Detect.scan]
  generalize st.visit ports slot = next at h
  split
  · exact absurd rfl h
  · rfl

theorem scan_of_not_found {slot : Slot} {slots : List Slot} {st : Detect} (h : (st.visit ports slot).1 = 0) :
    Detect.scan ports (slot :: slots) st = Detect.scan ports slots (st.visit ports slot).2 := by
  rw [Detect.scan]
  generalize st.visit ports slot = next at h
  obtain ⟨code, st'⟩ := next
  obtain rfl : code = 0 := h
  rfl

/-- So has the driver after the scan. -/
theorem scan_sel (slots : List Slot) {st : Detect} (h : st.active_drive_sel = 0xE0 ∨ st.active_drive_sel = 0xF0) :
    (Detect.scan ports slots st).2.active_drive_sel = 0xE0 ∨ (Detect.scan ports slots st).2.active_drive_sel = 0xF0 := by
  induction slots generalizing st with
  | nil => exact h
  | cons slot slots ih =>
    have hvisit := @visit_sel ports st slot h
    by_cases hgoes : (st.visit ports slot).1 = 0
    · rw [scan_of_not_found hgoes]
      exact ih hvisit
    · rw [scan_of_found hgoes]
      exact hvisit

/-- The timeouts work at all slots that are probed exactly if no device in one of them hangs. -/
theorem detect_honours_timeouts_iff (ports : Ports) (st : Detect) :
    (∀ slot st', Probed ports slots st slot st' → HonoursTimeouts ports st'.status_reads) ↔
      ∀ slot st', Probed ports slots st slot st' → ¬ Hangs ports st'.status_reads := by
  constructor
  · intro h slot st' hprobed
    exact (honours_timeouts_iff ports _).mp (h slot st' hprobed)
  · intro h slot st' hprobed
    exact (honours_timeouts_iff ports _).mpr (h slot st' hprobed)

/-- A device that is busy for ever. -/
def stuck_ports : Ports := ⟨fun _ => ATA_SR_BSY, fun _ => 1⟩

/-- The driver before the probing. -/
def undetected : Detect := ⟨0, ATA_PRIMARY_BASE, 0xE0, 0, 0⟩

theorem stuck_status (k : ℕ) : stuck_ports.status k = ATA_SR_BSY := rfl

theorem stuck_ports_hangs (pos : ℕ) : Hangs stuck_ports pos := by
  refine .inl ⟨?_, fun k _ => ?_, ?_, ?_⟩
  · rw [stuck_status]
    decide
  · rw [busy, stuck_status]
    decide
  · rw [stuck_status]
    decide
  · rintro ⟨-, hlast⟩
    rw [unready, stuck_status] at hlast
    exact absurd hlast (by decide)

/-- The first slot of the stuck device is taken for a drive. -/
theorem stuck_device_found :
    ¬ (∀ slot st', Probed stuck_ports slots undetected slot st' → HonoursTimeouts stuck_ports st'.status_reads) ∧
      (ata_detect_real_drive stuck_ports undetected).1 = 1 := by
  have hslots : slots = ⟨ATA_PRIMARY_BASE, 0xA0⟩ :: slots.tail := rfl
  have hhangs := stuck_ports_hangs undetected.status_reads
  constructor
  · intro h
    rw [hslots] at h
    exact (honours_timeouts_iff _ _).mp (h _ undetected (.here _ _ _)) hhangs
  · have hsize : 0 < (undetected.identify stuck_ports).total_sectors := by
      simp only [Detect.identify, stuck_ports]
      decide
    have hvisit := visit_of_identify ⟨ATA_PRIMARY_BASE, 0xA0⟩ hhangs.identify.1 hsize
    rw [ata_detect_real_drive, hslots, scan_of_found (by rw [hvisit]; decide), hvisit]

end os_dev.ata
