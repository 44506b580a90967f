import OsDev.Lib.PioDisk
import OsDev.Ata

open pio_disk

namespace os_dev.ata_pio

def ATA_REG_FEATURES : ℕ := 0x01
def ATA_REG_SECCOUNT : ℕ := 0x02
def ATA_REG_LBA0 : ℕ := 0x03
def ATA_REG_LBA1 : ℕ := 0x04
def ATA_REG_LBA2 : ℕ := 0x05
def ATA_REG_HDDEVSEL : ℕ := 0x06
def ATA_REG_COMMAND : ℕ := 0x07

def ATA_CMD_READ_PIO : UInt8 := 0x20
def ATA_CMD_WRITE_PIO : UInt8 := 0x30

/-- How often the waits ask again. -/
def WAIT_BUDGET : ℕ := 500000

/-- The variables of the driver, the memory behind `ramdisk_ptr` and the bus behind `active_base_port`. -/
structure Driver where
  drive_present : Bool
  active_drive_sel : UInt8
  ramdisk_mode : Bool
  ramdisk_size : ℕ
  ramdisk : ℕ → UInt8
  bus : Bus

/-- `while (again(inb(status)) && timeout--);` -/
def wait_while (again : UInt8 → Bool) : ℕ → Bus → Bus
  | 0, bus => bus.status.2
  | timeout + 1, bus =>
    let (status, bus) := bus.status
    if again status then wait_while again timeout bus else bus

@[irreducible] def ata_wait_bsy (bus : Bus) : Bus := wait_while (fun status => status &&& 0x80 ≠ 0) WAIT_BUDGET bus

@[irreducible] def ata_wait_drq (bus : Bus) : Bus := wait_while (fun status => status &&& 0x08 = 0) WAIT_BUDGET bus

/-- The registers in front of a command. -/
def set_registers (bus : Bus) (active_drive_sel : UInt8) (lba : UInt32) (count : UInt8) : Bus :=
  let bus := bus.outb ATA_REG_HDDEVSEL (active_drive_sel ||| ((lba >>> 24).toUInt8 &&& 0x0F))
  let bus := bus.outb ATA_REG_FEATURES 0x00
  let bus := bus.outb ATA_REG_SECCOUNT count
  let bus := bus.outb ATA_REG_LBA0 lba.toUInt8
  let bus := bus.outb ATA_REG_LBA1 (lba >>> 8).toUInt8
  bus.outb ATA_REG_LBA2 (lba >>> 16).toUInt8

/-- The body of the loop of a read. -/
@[irreducible] def read_words (bus : Bus) : List UInt16 × Bus := (ata_wait_drq (ata_wait_bsy bus)).inws 256

/-- The body of the loop of a write. -/
@[irreducible] def write_words (words : List UInt16) (bus : Bus) : Bus := (ata_wait_drq (ata_wait_bsy bus)).outws words

/-- The loop of a read, over the sectors. -/
def read_data : ℕ → Bus → List UInt16 × Bus
  | 0, bus => ([], bus)
  | count + 1, bus =>
    let (words, bus) := read_words bus
    let (rest, bus) := read_data count bus
    (words ++ rest, bus)

/-- The loop of a write. -/
def write_data : ℕ → List UInt16 → Bus → Bus
  | 0, _, bus => bus
  | count + 1, words, bus => write_data count (words.drop 256) (write_words (words.take 256) bus)

/-- The result, what the buffer gets, and the state after the call. -/
def ata_read_sectors (st : Driver) (lba : UInt32) (count : UInt8) : (Int × List UInt8) × Driver :=
  if ¬ st.drive_present then ((-1, []), st)
  else if st.ramdisk_mode then
    let offset := lba.toNat * 512
    let length := count.toNat * 512
    if offset + length > st.ramdisk_size then ((-1, []), st) else ((0, slice st.ramdisk offset length), st)
  else
    let bus := (set_registers st.bus st.active_drive_sel lba count).outb ATA_REG_COMMAND ATA_CMD_READ_PIO
    let (words, bus) := read_data count.toNat bus
    ((0, of_words words), { st with bus })

def ata_write_sectors (st : Driver) (lba : UInt32) (count : UInt8) (buffer : List UInt8) : (Int × List UInt8) × Driver :=
  if ¬ st.drive_present then ((-1, []), st)
  else if st.ramdisk_mode then
    let offset := lba.toNat * 512
    let length := count.toNat * 512
    if offset + length > st.ramdisk_size then ((-1, []), st)
    else ((0, []), { st with ramdisk := put st.ramdisk offset (buffer.take length) })
  else
    let bus := (set_registers st.bus st.active_drive_sel lba count).outb ATA_REG_COMMAND ATA_CMD_WRITE_PIO
    let bus := write_data count.toNat (to_words buffer) bus
    -- the flush of the cache
    let bus := bus.outb ATA_REG_COMMAND 0xE7
    ((0, []), { st with bus := ata_wait_bsy bus })

/-- A call of the driver. -/
inductive Request
  | read (lba : UInt32) (count : UInt8)
  | write (lba : UInt32) (count : UInt8) (buffer : List UInt8)

def Driver.call (st : Driver) : Request → (Int × List UInt8) × Driver
  | .read lba count => ata_read_sectors st lba count
  | .write lba count buffer => ata_write_sectors st lba count buffer

def Driver.run (st : Driver) : List Request → List (Int × List UInt8) × Driver
  | [] => ([], st)
  | r :: rs =>
    let (result, st) := st.call r
    let (results, st) := st.run rs
    (result :: results, st)

/-- What the driver is for: bytes that are read and written by the sector, or not at all. A drive with 28 bits for the
    number of a sector takes a larger one modulo 2^28. -/
structure Storage where
  bytes : ℕ → UInt8
  size : ℕ
  wraps : Bool

def Storage.sector (s : Storage) (lba : UInt32) : ℕ := if s.wraps then lba.toNat % 2 ^ 28 else lba.toNat

def Storage.call (s : Storage) : Request → (Int × List UInt8) × Storage
  | .read lba count =>
    if 512 * (s.sector lba + count.toNat) ≤ s.size then ((0, slice s.bytes (512 * s.sector lba) (512 * count.toNat)), s)
    else ((-1, []), s)
  | .write lba count buffer =>
    if 512 * (s.sector lba + count.toNat) ≤ s.size then ((0, []), { s with bytes := put s.bytes (512 * s.sector lba) buffer })
    else ((-1, []), s)

def Storage.run (s : Storage) : List Request → List (Int × List UInt8) × Storage
  | [] => ([], s)
  | r :: rs =>
    let (result, s) := s.call r
    let (results, s) := s.run rs
    (result :: results, s)

def Driver.storage (st : Driver) : Storage :=
  if st.ramdisk_mode then ⟨st.ramdisk, st.ramdisk_size, false⟩
  else ⟨st.bus.drives (slave st.active_drive_sel), 512 * st.bus.capacity (slave st.active_drive_sel), true⟩

/-- The sectors are there. Only the ramdisk checks it. -/
def Storage.InRange (s : Storage) (lba : UInt32) (count : UInt8) : Prop :=
  s.wraps = true → 0 < count.toNat ∧ 512 * (s.sector lba + count.toNat) ≤ s.size

def Request.Fits (s : Storage) : Request → Prop
  | .read lba count => s.InRange lba count
  | .write lba count buffer => s.InRange lba count ∧ buffer.length = 512 * count.toNat

/-- Between two calls no transfer is going on, and the drive never stays busy beyond the waits. -/
structure Driver.Good (st : Driver) : Prop where
  present : st.drive_present = true
  sel : st.active_drive_sel = 0xE0 ∨ st.active_drive_sel = 0xF0
  idle : st.bus.transfer = .idle
  free : st.bus.busy = 0
  answers : ∀ n, st.bus.delays n ≤ WAIT_BUDGET

variable {bus : Bus} {sector n : ℕ} {st : Driver}

theorem wait_while_busy (timeout : ℕ) (h : bus.busy ≤ timeout) :
    wait_while (fun status => status &&& 0x80 ≠ 0) timeout bus = bus.free := by
  induction timeout generalizing bus with
  | zero =>
    have hfree : bus.busy = 0 := Nat.le_zero.mp h
    rw [wait_while, free_eq hfree]
    obtain hstatus | hstatus := status_free hfree <;> rw [hstatus]
  | succ timeout ih =>
    rw [wait_while]
    by_cases hfree : bus.busy = 0
    · rw [free_eq hfree]
      obtain hstatus | hstatus := status_free hfree
      · simp only [hstatus]
        rfl
      · simp only [hstatus]
        rfl
    · simp only [status_busy (Nat.pos_of_ne_zero hfree)]
      exact @ih { bus with busy := bus.busy - 1 } (by simp only; omega)

/-- A drive that is busy for no longer than the wait is free after it. -/
theorem ata_wait_bsy_eq (h : bus.busy ≤ WAIT_BUDGET) : ata_wait_bsy bus = bus.free := by
  rw [ata_wait_bsy]
  exact wait_while_busy _ h

theorem wait_while_data (timeout : ℕ) (hfree : bus.busy = 0) (ht : bus.transfer ≠ .idle) :
    wait_while (fun status => status &&& 0x08 = 0) timeout bus = bus := by
  cases timeout with
  | zero => rw [wait_while, status_data hfree ht]
  | succ timeout =>
    rw [wait_while, status_data hfree ht]
    rfl

theorem ata_wait_drq_eq (hfree : bus.busy = 0) (ht : bus.transfer ≠ .idle) : ata_wait_drq bus = bus := by
  rw [ata_wait_drq]
  exact wait_while_data _ hfree ht

/-- Both waits in front of the data of a sector. -/
theorem waits_eq (h : bus.busy ≤ WAIT_BUDGET) (ht : bus.transfer ≠ .idle) :
    ata_wait_drq (ata_wait_bsy bus) = bus.free := by
  rw [ata_wait_bsy_eq h]
  exact ata_wait_drq_eq rfl ht

/-- What the calls leave alone, and the state that they leave the bus in. -/
structure Done (bus bus' : Bus) : Prop where
  capacity : bus'.capacity = bus.capacity
  delays : bus'.delays = bus.delays
  drive : bus'.drive = bus.drive
  idle : bus'.transfer = .idle

theorem read_data_succ (count : ℕ) (bus : Bus) : read_data (count + 1) bus =
    ((read_words bus).1 ++ (read_data count (read_words bus).2).1, (read_data count (read_words bus).2).2) := rfl

theorem read_words_eq {left : ℕ} (ht : bus.transfer = .reading sector left 0) (hbusy : bus.busy ≤ WAIT_BUDGET) :
    read_words bus =
      (to_words (slice (bus.drives bus.drive) (512 * sector) 512), bus.free.sector_read sector left) := by
  have hwaits := waits_eq hbusy (by rw [ht]; exact Transfer.noConfusion)
  have hsector := inws_reading (show bus.free.busy = 0 from rfl) ht (Nat.zero_add 256) (Nat.succ_pos 255)
  unfold read_words
  exact (congrArg (Bus.inws 256) hwaits).trans hsector

/-- The sectors of a read. -/
theorem read_data_spec (ht : bus.transfer = .reading sector (n + 1) 0) (hbusy : bus.busy ≤ WAIT_BUDGET)
    (hdelays : ∀ k, bus.delays k ≤ WAIT_BUDGET) :
    of_words (read_data (n + 1) bus).1 = slice (bus.drives bus.drive) (512 * sector) (512 * (n + 1)) ∧
      Done bus (read_data (n + 1) bus).2 ∧ (read_data (n + 1) bus).2.busy = 0 ∧
      (read_data (n + 1) bus).2.drives = bus.drives := by
  have hwords : ∀ a, of_words (to_words (slice (bus.drives bus.drive) a 512)) = slice (bus.drives bus.drive) a 512 :=
    fun a => of_to_words _ (by rw [length_slice])
  induction n generalizing bus sector with
  | zero =>
    rw [read_data_succ, read_words_eq ht hbusy, sector_read_last, of_words_append, hwords]
    exact ⟨List.append_nil _, ⟨rfl, rfl, rfl, rfl⟩, rfl, rfl⟩
  | succ n ih =>
    obtain ⟨hdata, hdone, hfree, hdrives⟩ := @ih (bus.free.wait (.reading (sector + 1) (n + 1) 0))
      (sector + 1) rfl (hdelays _) hdelays hwords
    rw [read_data_succ, read_words_eq ht hbusy, sector_read_next, of_words_append, hwords, hdata]
    refine ⟨?_, ⟨hdone.capacity, hdone.delays, hdone.drive, hdone.idle⟩, hfree, hdrives⟩
    rw [show 512 * (n + 1 + 1) = 512 + 512 * (n + 1) by ring, slice_add]
    rfl

theorem write_data_succ (count : ℕ) (words : List UInt16) (bus : Bus) : write_data (count + 1) words bus =
    write_data count (words.drop 256) (write_words (words.take 256) bus) := rfl

theorem write_words_eq {left : ℕ} {words : List UInt16} (ht : bus.transfer = .writing sector left [])
    (hbusy : bus.busy ≤ WAIT_BUDGET) (hwords : words.length = 256) :
    write_words words bus = bus.free.sector_written sector left (of_words words) := by
  rw [write_words, waits_eq hbusy (by rw [ht]; exact Transfer.noConfusion)]
  refine outws_writing (show bus.free.busy = 0 from rfl) ht ?_ (List.ne_nil_of_length_pos (by omega))
  rw [hwords]
  rfl

/-- The sectors of a write. -/
theorem write_data_spec {words : List UInt16} (ht : bus.transfer = .writing sector (n + 1) []) (hbusy : bus.busy ≤ WAIT_BUDGET)
    (hdelays : ∀ k, bus.delays k ≤ WAIT_BUDGET) (hwords : words.length = 256 * (n + 1)) :
    Done bus (write_data (n + 1) words bus) ∧ (write_data (n + 1) words bus).busy ≤ WAIT_BUDGET ∧
      (write_data (n + 1) words bus).drives =
        Function.update bus.drives bus.drive (put (bus.drives bus.drive) (512 * sector) (of_words words)) := by
  induction n generalizing bus sector words with
  | zero =>
    have hlen : words.length = 256 := hwords
    rw [write_data_succ, List.take_of_length_le hlen.le, write_words_eq ht hbusy hlen, sector_written_last]
    exact ⟨⟨rfl, rfl, rfl, rfl⟩, hdelays _, rfl⟩
  | succ n ih =>
    have htake : (words.take 256).length = 256 := by
      rw [List.length_take]
      omega
    have hdrop : (words.drop 256).length = 256 * (n + 1) := by
      rw [List.length_drop]
      omega
    have hplace : 512 * (sector + 1) = 512 * sector + (of_words (words.take 256)).length := by
      rw [length_of_words, htake]
      omega
    obtain ⟨hdone, hfree, hdrives⟩ := @ih
      ((bus.free.stored sector (of_words (words.take 256))).wait (.writing (sector + 1) (n + 1) []))
      (sector + 1) (words.drop 256) rfl (hdelays _) hdelays hdrop
    rw [write_data_succ, write_words_eq ht hbusy htake, sector_written_next]
    refine ⟨⟨hdone.capacity, hdone.delays, hdone.drive, hdone.idle⟩, hfree, hdrives.trans ?_⟩
    rw [hplace]
    conv_rhs => rw [← List.take_append_drop 256 words, of_words_append, ← put_append]
    simp only [wait_drives, wait_drive, stored_drives, stored_drive, free_drives, free_drive, Function.update_self,
      Function.update_idem]

/-- The low half of the drive register has the upper bits of the sector. -/
theorem drive_register {sel : UInt8} (hsel : sel = 0xE0 ∨ sel = 0xF0) (bits : Fin 256) :
    (sel ||| (UInt8.ofNat bits &&& 0x0F)).toNat % 16 = bits % 16 ∧ slave (sel ||| (UInt8.ofNat bits &&& 0x0F)) = slave sel := by
  obtain rfl | rfl := hsel
  · revert bits
    decide +kernel
  · revert bits
    decide +kernel

/-- What the registers come to. -/
theorem set_registers_spec {sel : UInt8} (hsel : sel = 0xE0 ∨ sel = 0xF0) (bus : Bus) (lba : UInt32) (count : UInt8) :
    (set_registers bus sel lba count).sector = lba.toNat % 2 ^ 28 ∧ (set_registers bus sel lba count).drive = slave sel ∧
      (0 < count.toNat → (set_registers bus sel lba count).sectors = count.toNat) := by
  have hregs : set_registers bus sel lba count =
      { bus with
        hddevsel := sel ||| ((lba >>> 24).toUInt8 &&& 0x0F)
        seccount := count
        lba0 := lba.toUInt8
        lba1 := (lba >>> 8).toUInt8
        lba2 := (lba >>> 16).toUInt8 } := rfl
  have hbyte : ∀ k : UInt32, k < 32 → (lba >>> k).toUInt8.toNat = lba.toNat / 2 ^ k.toNat % 2 ^ 8 := by
    intro k hk
    have hlt : k.toNat < 32 := UInt32.lt_iff_toNat_lt.mp hk
    rw [UInt32.toNat_toUInt8, UInt32.toNat_shiftRight, Nat.shiftRight_eq_div_pow, Nat.mod_eq_of_lt hlt]
  have hlba := lba.toNat_lt
  have hhigh := hbyte 24 (by decide)
  obtain ⟨hnibble, hslave⟩ := drive_register hsel ⟨(lba >>> 24).toUInt8.toNat, (lba >>> 24).toUInt8.toNat_lt⟩
  simp only [UInt8.ofNat_toNat] at hnibble hslave
  rw [hregs]
  refine ⟨?_, hslave, fun hpos => if_neg fun hzero => ?_⟩
  · simp only [Bus.sector, hnibble, hhigh, hbyte 8 (by decide), hbyte 16 (by decide), UInt32.toNat_toUInt8,
      UInt32.reduceToNat]
    omega
  · simp only at hzero
    rw [hzero] at hpos
    exact absurd hpos (by decide)

/-- A command for sectors that the drive has. -/
theorem command_eq {bus' : Bus} {lba : UInt32} {count : UInt8} (h : st.Good)
    (hbus' : set_registers st.bus st.active_drive_sel lba count = bus')
    (hrange : 0 < count.toNat ∧ lba.toNat % 2 ^ 28 + count.toNat ≤ st.bus.capacity (slave st.active_drive_sel)) :
    bus'.outb ATA_REG_COMMAND ATA_CMD_READ_PIO = bus'.wait (.reading (lba.toNat % 2 ^ 28) count.toNat 0) ∧
      bus'.outb ATA_REG_COMMAND ATA_CMD_WRITE_PIO = bus'.wait (.writing (lba.toNat % 2 ^ 28) count.toNat []) := by
  obtain ⟨hsector, hdrive, hsectors⟩ := set_registers_spec h.sel st.bus lba count
  have hfree : bus'.busy = 0 := hbus' ▸ h.free
  have hcapacity : bus'.capacity = st.bus.capacity := hbus' ▸ rfl
  rw [hbus'] at hsector hdrive hsectors
  have hthere : bus'.sector + bus'.sectors ≤ bus'.capacity bus'.drive := by
    rw [hsector, hsectors hrange.1, hcapacity, hdrive]
    exact hrange.2
  have hidle : ¬ (0 < bus'.busy ∧ bus'.drops = true) := fun hbusy => by omega
  constructor
  · change bus'.command 0x20 = _
    rw [Bus.command, if_neg hidle, if_pos ⟨rfl, hthere⟩, hsector, hsectors hrange.1]
  · change bus'.command 0x30 = _
    rw [Bus.command, if_neg hidle, if_neg fun hread => absurd hread.1 (by decide), if_pos ⟨rfl, hthere⟩, hsector,
      hsectors hrange.1]

/-- The flush behind a write, whether or not the drive is still busy with the last sector. -/
theorem flush_done (hidle : bus.transfer = .idle) (hbusy : bus.busy ≤ WAIT_BUDGET) (hdelays : ∀ k, bus.delays k ≤ WAIT_BUDGET) :
    Done bus (ata_wait_bsy (bus.outb ATA_REG_COMMAND 0xE7)) ∧ (ata_wait_bsy (bus.outb ATA_REG_COMMAND 0xE7)).busy = 0 ∧
      (ata_wait_bsy (bus.outb ATA_REG_COMMAND 0xE7)).drives = bus.drives := by
  have hcommand : bus.outb ATA_REG_COMMAND 0xE7 = bus ∨ bus.outb ATA_REG_COMMAND 0xE7 = bus.wait .idle := by
    change bus.command 0xE7 = bus ∨ bus.command 0xE7 = bus.wait .idle
    rw [Bus.command]
    split_ifs with hdropped hread hwrite
    · exact .inl rfl
    · exact absurd hread.1 (by decide)
    · exact absurd hwrite.1 (by decide)
    · exact .inr rfl
  obtain heq | heq := hcommand
  · rw [heq, ata_wait_bsy_eq hbusy]
    exact ⟨⟨rfl, rfl, rfl, hidle⟩, rfl, rfl⟩
  · rw [heq, ata_wait_bsy_eq (hdelays _)]
    exact ⟨⟨rfl, rfl, rfl, rfl⟩, rfl, rfl⟩

/-- A call does what the storage does, and leaves the driver ready for the next one and the other drive alone. -/
structure Refines (st : Driver) (r : Request) : Prop where
  result : (st.call r).1 = (st.storage.call r).1
  storage : (st.call r).2.storage = (st.storage.call r).2
  good : (st.call r).2.Good
  mode : (st.call r).2.ramdisk_mode = st.ramdisk_mode
  sel : (st.call r).2.active_drive_sel = st.active_drive_sel
  other : ∀ d, st.ramdisk_mode = true ∨ d ≠ slave st.active_drive_sel → (st.call r).2.bus.drives d = st.bus.drives d

theorem Refines.of_eq {r : Request} {result : Int × List UInt8} {st' : Driver} (hcall : st.call r = (result, st'))
    (hserve : st.storage.call r = (result, st'.storage)) (hgood : st'.Good) (hmode : st'.ramdisk_mode = st.ramdisk_mode)
    (hsel : st'.active_drive_sel = st.active_drive_sel)
    (hother : ∀ d, st.ramdisk_mode = true ∨ d ≠ slave st.active_drive_sel → st'.bus.drives d = st.bus.drives d) :
    Refines st r := by
  refine ⟨?_, ?_, hcall ▸ hgood, hcall ▸ hmode, hcall ▸ hsel, hcall ▸ hother⟩
  · rw [hcall, hserve]
  · rw [hcall, hserve]

theorem ramdisk_refines (h : st.Good) (hmode : st.ramdisk_mode = true) {r : Request} (hfits : r.Fits st.storage) :
    Refines st r := by
  have hstorage : st.storage = ⟨st.ramdisk, st.ramdisk_size, false⟩ := if_pos hmode
  have hpresent : ¬ (¬ st.drive_present = true) := not_not_intro h.present
  cases r with
  | read lba count =>
    have hout : lba.toNat * 512 + count.toNat * 512 > st.ramdisk_size ↔ ¬ 512 * (lba.toNat + count.toNat) ≤ st.ramdisk_size := by
      omega
    refine @Refines.of_eq st _ (if lba.toNat * 512 + count.toNat * 512 > st.ramdisk_size then (-1, [])
      else (0, slice st.ramdisk (lba.toNat * 512) (count.toNat * 512))) st ?_ ?_ h rfl rfl fun _ _ => rfl
    · rw [Driver.call, ata_read_sectors, if_neg hpresent, if_pos hmode]
      simp only
      split_ifs <;> rfl
    · rw [hstorage]
      simp only [Storage.call, Storage.sector, Bool.false_eq_true, if_false, hout, Nat.mul_comm 512 lba.toNat,
        Nat.mul_comm 512 count.toNat]
      split_ifs <;> rfl
  | write lba count buffer =>
    have htake : buffer.take (count.toNat * 512) = buffer := List.take_of_length_le (by rw [hfits.2, Nat.mul_comm])
    have hsector : 512 * (lba.toNat + count.toNat) = lba.toNat * 512 + count.toNat * 512 := by ring
    by_cases hin : lba.toNat * 512 + count.toNat * 512 ≤ st.ramdisk_size
    · refine @Refines.of_eq st _ (0, []) { st with ramdisk := put st.ramdisk (lba.toNat * 512) buffer } ?_ ?_
        ⟨h.present, h.sel, h.idle, h.free, h.answers⟩ rfl rfl fun _ _ => rfl
      · rw [Driver.call, ata_write_sectors, if_neg hpresent, if_pos hmode]
        simp only [if_neg (Nat.not_lt.mpr hin), htake]
      · rw [hstorage, Driver.storage, if_pos hmode]
        simp only [Storage.call, Storage.sector, Bool.false_eq_true, if_false, hsector, if_pos hin,
          Nat.mul_comm 512 lba.toNat]
    · refine @Refines.of_eq st _ (-1, []) st ?_ ?_ h rfl rfl fun _ _ => rfl
      · rw [Driver.call, ata_write_sectors, if_neg hpresent, if_pos hmode]
        exact if_pos (Nat.not_le.mp hin)
      · rw [hstorage]
        simp only [Storage.call, Storage.sector, Bool.false_eq_true, if_false, hsector, if_neg hin]

/-- What the drive holds after a call, as a storage. -/
theorem drive_storage (hmode : ¬ st.ramdisk_mode = true) : st.storage =
    ⟨st.bus.drives (slave st.active_drive_sel), 512 * st.bus.capacity (slave st.active_drive_sel), true⟩ := if_neg hmode

theorem range_of_inRange (hmode : ¬ st.ramdisk_mode = true) {lba : UInt32} {count : UInt8} (h : st.storage.InRange lba count) :
    0 < count.toNat ∧ lba.toNat % 2 ^ 28 + count.toNat ≤ st.bus.capacity (slave st.active_drive_sel) := by
  rw [drive_storage hmode] at h
  obtain ⟨hpos, hsize⟩ := h rfl
  exact ⟨hpos, Nat.le_of_mul_le_mul_left hsize (by decide)⟩

/-- The storage answers a call on sectors that are there. -/
theorem storage_call_eq (hmode : ¬ st.ramdisk_mode = true) {lba : UInt32} {count : UInt8}
    (h : st.storage.InRange lba count) : st.storage.call (.read lba count) =
      ((0, slice (st.bus.drives (slave st.active_drive_sel)) (512 * (lba.toNat % 2 ^ 28)) (512 * count.toNat)), st.storage) ∧
    ∀ buffer, st.storage.call (.write lba count buffer) =
      ((0, []), { st.storage with
        bytes := put (st.bus.drives (slave st.active_drive_sel)) (512 * (lba.toNat % 2 ^ 28)) buffer }) := by
  have hrange := (range_of_inRange hmode h).2
  rw [drive_storage hmode]
  have hsize : 512 * (lba.toNat % 2 ^ 28 + count.toNat) ≤ 512 * st.bus.capacity (slave st.active_drive_sel) :=
    Nat.mul_le_mul_left 512 hrange
  exact ⟨if_pos hsize, fun buffer => if_pos hsize⟩

theorem Refines.of_bus (h : st.Good) (hmode : ¬ st.ramdisk_mode = true) {r : Request} {result : Int × List UInt8}
    (hcall : st.call r = (result, { st with bus }))
    (hserve : st.storage.call r = (result, { st.storage with bytes := bus.drives (slave st.active_drive_sel) }))
    (hcapacity : bus.capacity = st.bus.capacity) (hdelays : bus.delays = st.bus.delays) (hidle : bus.transfer = .idle)
    (hfree : bus.busy = 0) (hother : ∀ d, d ≠ slave st.active_drive_sel → bus.drives d = st.bus.drives d) : Refines st r := by
  refine .of_eq hcall (hserve.trans ?_) ⟨h.present, h.sel, hidle, hfree, ?_⟩ rfl rfl fun d hd => ?_
  · rw [drive_storage hmode]
    have hafter : ({ st with bus } : Driver).storage =
        ⟨bus.drives (slave st.active_drive_sel), 512 * bus.capacity (slave st.active_drive_sel), true⟩ := if_neg hmode
    rw [hafter, hcapacity]
  · rw [hdelays]
    exact h.answers
  · exact hother d (hd.resolve_left hmode)

theorem read_refines (h : st.Good) (hmode : ¬ st.ramdisk_mode = true) {lba : UInt32} {count : UInt8}
    (hfits : st.storage.InRange lba count) : Refines st (.read lba count) := by
  have hrange := range_of_inRange hmode hfits
  obtain ⟨n, hn⟩ := Nat.exists_eq_succ_of_ne_zero (Nat.ne_zero_of_lt hrange.1)
  obtain ⟨-, hdrive, -⟩ := set_registers_spec h.sel st.bus lba count
  have hcommand := (command_eq h rfl hrange).1
  have hcall : st.call (.read lba count) = ((0, of_words (read_data count.toNat
      ((set_registers st.bus st.active_drive_sel lba count).outb ATA_REG_COMMAND ATA_CMD_READ_PIO)).1),
      { st with bus := (read_data count.toNat
        ((set_registers st.bus st.active_drive_sel lba count).outb ATA_REG_COMMAND ATA_CMD_READ_PIO)).2 }) := by
    rw [Driver.call, ata_read_sectors, if_neg (not_not_intro h.present), if_neg hmode]
  rw [hcommand] at hcall
  obtain ⟨hdata, hdone, hfree, hsame⟩ := @read_data_spec
    ((set_registers st.bus st.active_drive_sel lba count).wait (.reading (lba.toNat % 2 ^ 28) (n + 1) 0)) _ n rfl
    (h.answers _) h.answers
  rw [← Nat.succ_eq_add_one, ← hn] at hdata hdone hfree hsame
  refine .of_bus h hmode hcall ?_ hdone.capacity hdone.delays hdone.idle hfree fun d _ => congrFun hsame d
  rw [(storage_call_eq hmode hfits).1, hdata, wait_drive, hdrive, hsame, drive_storage hmode]
  rfl

theorem write_refines (h : st.Good) (hmode : ¬ st.ramdisk_mode = true) {lba : UInt32} {count : UInt8} {buffer : List UInt8}
    (hfits : st.storage.InRange lba count) (hlen : buffer.length = 512 * count.toNat) :
    Refines st (.write lba count buffer) := by
  have hrange := range_of_inRange hmode hfits
  obtain ⟨n, hn⟩ := Nat.exists_eq_succ_of_ne_zero (Nat.ne_zero_of_lt hrange.1)
  obtain ⟨-, hdrive, -⟩ := set_registers_spec h.sel st.bus lba count
  have hcommand := (command_eq h rfl hrange).2
  have hbytes : of_words (to_words buffer) = buffer := of_to_words buffer (by omega)
  have hwords : (to_words buffer).length = 256 * (n + 1) := by
    have htwice := length_of_words (to_words buffer)
    rw [hbytes] at htwice
    omega
  have hcall : st.call (.write lba count buffer) = ((0, []),
      { st with bus := ata_wait_bsy ((write_data count.toNat (to_words buffer)
        ((set_registers st.bus st.active_drive_sel lba count).outb ATA_REG_COMMAND ATA_CMD_WRITE_PIO)).outb
          ATA_REG_COMMAND 0xE7) }) := by
    rw [Driver.call, ata_write_sectors, if_neg (not_not_intro h.present), if_neg hmode]
  rw [hcommand] at hcall
  obtain ⟨hdone, hbusy, hdrives⟩ := @write_data_spec
    ((set_registers st.bus st.active_drive_sel lba count).wait (.writing (lba.toNat % 2 ^ 28) (n + 1) [])) _ n _ rfl
    (h.answers _) h.answers hwords
  rw [← Nat.succ_eq_add_one, ← hn] at hdone hbusy hdrives
  obtain ⟨hflush, hfree, hsame⟩ := flush_done hdone.idle hbusy (by rw [hdone.delays]; exact h.answers)
  have hheld := hsame.trans hdrives
  refine .of_bus h hmode hcall ?_ (hflush.capacity.trans hdone.capacity) (hflush.delays.trans hdone.delays) hflush.idle
    hfree fun d hd => ?_
  · rw [(storage_call_eq hmode hfits).2, hheld, wait_drive, hdrive, Function.update_self, hbytes]
    rfl
  · rw [hheld, wait_drive, hdrive, Function.update_of_ne hd]
    rfl

theorem call_refines (h : st.Good) {r : Request} (hfits : r.Fits st.storage) : Refines st r := by
  by_cases hmode : st.ramdisk_mode = true
  · exact ramdisk_refines h hmode hfits
  · cases r with
    | read lba count => exact read_refines h hmode hfits
    | write lba count buffer => exact write_refines h hmode hfits.1 hfits.2

theorem Request.Fits.congr {s s' : Storage} (hsize : s'.size = s.size) (hwraps : s'.wraps = s.wraps) {r : Request}
    (h : r.Fits s) : r.Fits s' := by
  obtain ⟨bytes, size, wraps⟩ := s
  obtain ⟨bytes', size', wraps'⟩ := s'
  obtain rfl : size' = size := hsize
  obtain rfl : wraps' = wraps := hwraps
  cases r with
  | read lba count => exact h
  | write lba count buffer => exact h

/-- A drive that is busy for up to four polls. -/
def small_drive : Driver where
  drive_present := true
  active_drive_sel := 0xF0
  ramdisk_mode := false
  ramdisk_size := 0
  ramdisk := fun _ => 0
  bus :=
    { seccount := 0, lba0 := 0, lba1 := 0, lba2 := 0, hddevsel := 0, drives := fun _ _ => 0, capacity := fun _ => 100
      drops := true, delays := fun n => n % 5, phase := 0, busy := 0, transfer := .idle }

theorem small_drive_good : small_drive.Good :=
  ⟨rfl, .inr rfl, rfl, rfl, fun n => (Nat.mod_lt n (by decide)).le.trans (by decide)⟩

/-- The sectors of a storage, as the file system sees them. -/
def Storage.disk (s : Storage) : ata.Disk := fun lba i => s.bytes (512 * lba + i)

def Storage.drive (s : Storage) : ata.Drive := ⟨true, s.size⟩

/-- A call of the file system, which transfers one sector at a time. -/
inductive SectorRequest
  | read (lba : UInt32)
  | write (lba : UInt32) (sector : ata.Sector)

def SectorRequest.lba : SectorRequest → UInt32
  | .read lba => lba
  | .write lba _ => lba

def SectorRequest.request : SectorRequest → Request
  | .read lba => .read lba 1
  | .write lba sector => .write lba 1 (List.ofFn sector)

theorem holds_iff (s : Storage) (lba : UInt32) : s.drive.Holds (s.sector lba) ↔ 512 * (s.sector lba + 1) ≤ s.size := by
  rw [ata.Drive.Holds, ata.Drive.total_sectors, Storage.drive]
  simp only [true_and]
  omega

end os_dev.ata_pio
