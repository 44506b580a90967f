import OsDev.Lib.LittleEndian
import Mathlib.Data.List.Basic
import Mathlib.Data.List.GetD
import Mathlib.Logic.Function.Basic
import Mathlib.Tactic.Ring

open little_endian

namespace pio_disk

/-- The bytes from an address on. -/
def slice (bytes : ℕ → UInt8) (a n : ℕ) : List UInt8 := (List.range n).map fun i => bytes (a + i)

/-- Bytes put down from an address on. -/
def put (bytes : ℕ → UInt8) (a : ℕ) (data : List UInt8) (i : ℕ) : UInt8 :=
  if a ≤ i ∧ i < a + data.length then data.getD (i - a) 0 else bytes i

def word (lo hi : UInt8) : UInt16 := UInt16.ofNat (lo.toNat + 2 ^ 8 * hi.toNat)

def to_words : List UInt8 → List UInt16
  | lo :: hi :: rest => word lo hi :: to_words rest
  | _ => []

def of_words (words : List UInt16) : List UInt8 := words.flatMap fun w : UInt16 => [w.toUInt8, (w >>> 8).toUInt8]

/-- Where a drive is in a transfer of sectors through the data port, which goes on with a sector, of which some words have
    gone through. -/
inductive Transfer
  | idle
  | reading (sector left words : ℕ)
  | writing (sector left : ℕ) (buffer : List UInt16)

/-- Two drives on a cable. After a command and between sectors, the selected one is busy for some polls of its status. A
    command that comes then may be dropped. -/
structure Bus where
  seccount : UInt8
  lba0 : UInt8
  lba1 : UInt8
  lba2 : UInt8
  hddevsel : UInt8
  drives : Bool → ℕ → UInt8
  capacity : Bool → ℕ
  drops : Bool
  delays : ℕ → ℕ
  phase : ℕ
  busy : ℕ
  transfer : Transfer

/-- The slave has the bit 4. -/
def slave (hddevsel : UInt8) : Bool := hddevsel &&& 0x10 ≠ 0

def Bus.drive (bus : Bus) : Bool := slave bus.hddevsel

/-- The number of a sector has 28 bits. -/
def Bus.sector (bus : Bus) : ℕ :=
  bus.lba0.toNat + 2 ^ 8 * bus.lba1.toNat + 2 ^ 16 * bus.lba2.toNat + 2 ^ 24 * (bus.hddevsel.toNat % 16)

/-- 0 stands for 256. -/
def Bus.sectors (bus : Bus) : ℕ := if bus.seccount = 0 then 256 else bus.seccount.toNat

def Bus.wait (bus : Bus) (transfer : Transfer) : Bus :=
  { bus with transfer, busy := bus.delays bus.phase, phase := bus.phase + 1 }

/-- The commands 0x20 and 0x30 transfer sectors, if they are there. Any other has no data. -/
def Bus.command (bus : Bus) (c : UInt8) : Bus :=
  if 0 < bus.busy ∧ bus.drops then bus
  else if c = 0x20 ∧ bus.sector + bus.sectors ≤ bus.capacity bus.drive then bus.wait (.reading bus.sector bus.sectors 0)
  else if c = 0x30 ∧ bus.sector + bus.sectors ≤ bus.capacity bus.drive then bus.wait (.writing bus.sector bus.sectors [])
  else bus.wait .idle

/-- A byte into one of the registers. -/
def Bus.outb (bus : Bus) (reg : ℕ) (value : UInt8) : Bus :=
  match reg with
  | 2 => { bus with seccount := value }
  | 3 => { bus with lba0 := value }
  | 4 => { bus with lba1 := value }
  | 5 => { bus with lba2 := value }
  | 6 => { bus with hddevsel := value }
  | 7 => bus.command value
  | _ => bus

/-- A poll of the status: bit 7 for busy, bit 3 for data. -/
def Bus.status (bus : Bus) : UInt8 × Bus :=
  if 0 < bus.busy then (0x80, { bus with busy := bus.busy - 1 })
  else
    match bus.transfer with
    | .idle => (0x40, bus)
    | _ => (0x48, bus)

/-- A word out of the data port. -/
def Bus.inw (bus : Bus) : UInt16 × Bus :=
  match bus.transfer with
  | .reading sector left words =>
    let bytes := bus.drives bus.drive
    let w := word (bytes (512 * sector + 2 * words)) (bytes (512 * sector + 2 * words + 1))
    if 0 < bus.busy then (0, bus)
    else if words + 1 < 256 then (w, { bus with transfer := .reading sector left (words + 1) })
    else if left ≤ 1 then (w, { bus with transfer := .idle })
    else (w, bus.wait (.reading (sector + 1) (left - 1) 0))
  | _ => (0, bus)

/-- A word into the data port. A sector is on the drive once it is complete. -/
def Bus.outw (bus : Bus) (w : UInt16) : Bus :=
  match bus.transfer with
  | .writing sector left buffer =>
    if 0 < bus.busy then bus
    else if buffer.length + 1 < 256 then { bus with transfer := .writing sector left (buffer ++ [w]) }
    else
      let bytes := put (bus.drives bus.drive) (512 * sector) (of_words (buffer ++ [w]))
      let bus := { bus with drives := Function.update bus.drives bus.drive bytes }
      if left ≤ 1 then bus.wait .idle else bus.wait (.writing (sector + 1) (left - 1) [])
  | _ => bus

def Bus.inws : ℕ → Bus → List UInt16 × Bus
  | 0, bus => ([], bus)
  | n + 1, bus =>
    let (w, bus) := bus.inw
    let (ws, bus) := Bus.inws n bus
    (w :: ws, bus)

def Bus.outws (bus : Bus) (ws : List UInt16) : Bus := ws.foldl Bus.outw bus

section bytes

variable {bytes : ℕ → UInt8} {a i n : ℕ} {data : List UInt8}

@[simp] theorem length_slice (bytes : ℕ → UInt8) (a n : ℕ) : (slice bytes a n).length = n := by
  rw [slice, List.length_map, List.length_range]

theorem slice_add (bytes : ℕ → UInt8) (a m n : ℕ) : slice bytes a (m + n) = slice bytes a m ++ slice bytes (a + m) n := by
  simp only [slice, List.range_add, List.map_append, List.map_map, Function.comp_def, Nat.add_assoc]

theorem put_append (bytes : ℕ → UInt8) (a : ℕ) (data more : List UInt8) :
    put (put bytes a data) (a + data.length) more = put bytes a (data ++ more) := by
  funext i
  simp only [put, List.length_append]
  by_cases hmore : a + data.length ≤ i
  · have hindex : i - a - data.length = i - (a + data.length) := by omega
    rw [List.getD_append_right data more 0 (i - a) (by omega), hindex]
    split_ifs <;> first | rfl | omega
  · rw [if_neg fun h => hmore h.1]
    by_cases hdata : a ≤ i
    · rw [if_pos ⟨hdata, by omega⟩, if_pos ⟨hdata, by omega⟩, List.getD_append data more 0 (i - a) (by omega)]
    · rw [if_neg fun h => hdata h.1, if_neg fun h => hdata h.1]

theorem word_toNat (lo hi : UInt8) : (word lo hi).toNat = lo.toNat + 2 ^ 8 * hi.toNat := by
  have hlo := lo.toNat_lt
  have hhi := hi.toNat_lt
  rw [word, UInt16.toNat_ofNat']
  omega

theorem word_low (lo hi : UInt8) : (word lo hi).toUInt8 = lo := by
  have hlo := lo.toNat_lt
  rw [← UInt8.toNat_inj, UInt16.toNat_toUInt8, word_toNat]
  omega

theorem word_high (lo hi : UInt8) : (word lo hi >>> 8).toUInt8 = hi := by
  have hlo := lo.toNat_lt
  have hhi := hi.toNat_lt
  have hshift : (word lo hi >>> 8).toNat = (lo.toNat + 2 ^ 8 * hi.toNat) / 2 ^ 8 := by
    rw [UInt16.toNat_shiftRight, Nat.shiftRight_eq_div_pow, word_toNat]
    rfl
  rw [← UInt8.toNat_inj, UInt16.toNat_toUInt8, hshift]
  omega

theorem of_words_append (ws ws' : List UInt16) : of_words (ws ++ ws') = of_words ws ++ of_words ws' := List.flatMap_append

theorem length_of_words (ws : List UInt16) : (of_words ws).length = 2 * ws.length := by
  induction ws with
  | nil => rfl
  | cons w ws ih =>
    rw [of_words, List.flatMap_cons, List.length_append, ← of_words, ih, List.length_cons]
    change 2 + 2 * ws.length = 2 * (ws.length + 1)
    omega

/-- Words are two bytes each. -/
theorem of_to_words (data : List UInt8) (heven : data.length % 2 = 0) : of_words (to_words data) = data := by
  induction data using to_words.induct with
  | case1 lo hi rest ih =>
    have hrest : rest.length % 2 = 0 := by
      simp only [List.length_cons] at heven
      omega
    rw [to_words, of_words, List.flatMap_cons, ← of_words, ih hrest, word_low, word_high]
    rfl
  | case2 data hnot =>
    cases data with
    | nil => rfl
    | cons lo rest =>
      cases rest with
      | nil => cases heven
      | cons hi rest => exact absurd rfl (hnot lo hi rest)

theorem to_words_slice (bytes : ℕ → UInt8) (a n : ℕ) :
    to_words (slice bytes a (2 * (n + 1))) = word (bytes a) (bytes (a + 1)) :: to_words (slice bytes (a + 2) (2 * n)) := by
  have hhead : slice bytes a (2 * (n + 1)) = bytes a :: bytes (a + 1) :: slice bytes (a + 2) (2 * n) := by
    rw [Nat.mul_succ, Nat.add_comm, slice_add]
    rfl
  rw [hhead, to_words]

end bytes

section transfer

variable {bus : Bus} {sector left words n : ℕ} {buffer ws : List UInt16}

@[simp] theorem wait_drives (bus : Bus) (t : Transfer) : (bus.wait t).drives = bus.drives := rfl

@[simp] theorem wait_drive (bus : Bus) (t : Transfer) : (bus.wait t).drive = bus.drive := rfl

@[simp] theorem wait_capacity (bus : Bus) (t : Transfer) : (bus.wait t).capacity = bus.capacity := rfl

@[simp] theorem wait_transfer (bus : Bus) (t : Transfer) : (bus.wait t).transfer = t := rfl

theorem status_busy (h : 0 < bus.busy) : bus.status = (0x80, { bus with busy := bus.busy - 1 }) := if_pos h

theorem status_data (h : bus.busy = 0) (ht : bus.transfer ≠ .idle) : bus.status = (0x48, bus) := by
  rw [Bus.status, if_neg (by omega)]
  cases hcase : bus.transfer with
  | idle => exact absurd hcase ht
  | _ => rfl

theorem status_free (h : bus.busy = 0) : bus.status = (0x40, bus) ∨ bus.status = (0x48, bus) := by
  rw [Bus.status, if_neg (by omega)]
  cases bus.transfer with
  | idle => exact .inl rfl
  | _ => exact .inr rfl

/-- The bus once its drive is no longer busy. -/
def Bus.free (bus : Bus) : Bus := { bus with busy := 0 }

@[simp] theorem free_drives (bus : Bus) : bus.free.drives = bus.drives := rfl

@[simp] theorem free_drive (bus : Bus) : bus.free.drive = bus.drive := rfl

theorem free_eq (h : bus.busy = 0) : bus.free = bus := by
  cases bus
  simp only at h
  subst h
  rfl

/-- The bus after the last word of a sector that is read. -/
def Bus.sector_read (bus : Bus) (sector left : ℕ) : Bus :=
  if left ≤ 1 then { bus with transfer := .idle } else bus.wait (.reading (sector + 1) (left - 1) 0)

def Bus.stored (bus : Bus) (sector : ℕ) (data : List UInt8) : Bus :=
  { bus with drives := Function.update bus.drives bus.drive (put (bus.drives bus.drive) (512 * sector) data) }

@[simp] theorem stored_drives (bus : Bus) (sector : ℕ) (data : List UInt8) : (bus.stored sector data).drives =
    Function.update bus.drives bus.drive (put (bus.drives bus.drive) (512 * sector) data) := rfl

@[simp] theorem stored_drive (bus : Bus) (sector : ℕ) (data : List UInt8) : (bus.stored sector data).drive = bus.drive := rfl

/-- The bus after the last word of a sector that is written. -/
def Bus.sector_written (bus : Bus) (sector left : ℕ) (data : List UInt8) : Bus :=
  (bus.stored sector data).wait (if left ≤ 1 then .idle else .writing (sector + 1) (left - 1) [])

theorem sector_read_last (bus : Bus) (sector : ℕ) : bus.sector_read sector 1 = { bus with transfer := .idle } :=
  if_pos (Nat.le_refl 1)

theorem sector_read_next (bus : Bus) (sector n : ℕ) :
    bus.sector_read sector (n + 2) = bus.wait (.reading (sector + 1) (n + 1) 0) := if_neg (by omega)

theorem sector_written_last (bus : Bus) (sector : ℕ) (data : List UInt8) :
    bus.sector_written sector 1 data = (bus.stored sector data).wait .idle := rfl

theorem sector_written_next (bus : Bus) (sector n : ℕ) (data : List UInt8) :
    bus.sector_written sector (n + 2) data = (bus.stored sector data).wait (.writing (sector + 1) (n + 1) []) := by
  rw [Bus.sector_written, if_neg (by omega)]
  rfl

theorem inw_reading (hbusy : bus.busy = 0) (ht : bus.transfer = .reading sector left words) : bus.inw =
    (word (bus.drives bus.drive (512 * sector + 2 * words)) (bus.drives bus.drive (512 * sector + 2 * words + 1)),
      if words + 1 < 256 then { bus with transfer := .reading sector left (words + 1) } else bus.sector_read sector left) := by
  have hfree : ¬ 0 < bus.busy := by omega
  simp only [Bus.inw, ht, if_neg hfree, Bus.sector_read]
  split_ifs <;> rfl

theorem outw_writing (hbusy : bus.busy = 0) (ht : bus.transfer = .writing sector left buffer) (w : UInt16) : bus.outw w =
    if buffer.length + 1 < 256 then { bus with transfer := .writing sector left (buffer ++ [w]) }
    else bus.sector_written sector left (of_words (buffer ++ [w])) := by
  have hfree : ¬ 0 < bus.busy := by omega
  simp only [Bus.outw, ht, if_neg hfree, Bus.sector_written]
  split_ifs <;> rfl

/-- The rest of a sector through the data port. -/
theorem inws_reading (hbusy : bus.busy = 0) (ht : bus.transfer = .reading sector left words) (hn : words + n = 256)
    (hpos : 0 < n) : bus.inws n =
      (to_words (slice (bus.drives bus.drive) (512 * sector + 2 * words) (2 * n)), bus.sector_read sector left) := by
  induction n generalizing bus words with
  | zero => exact absurd hpos (Nat.lt_irrefl 0)
  | succ n ih =>
    rw [Bus.inws, inw_reading hbusy ht, to_words_slice]
    cases n with
    | zero =>
      rw [if_neg (by omega)]
      rfl
    | succ n =>
      have hnext := @ih { bus with transfer := .reading sector left (words + 1) } (words + 1) hbusy rfl (by omega)
        (Nat.succ_pos n)
      have hrest : ({ bus with transfer := .reading sector left (words + 1) } : Bus).sector_read sector left =
          bus.sector_read sector left := by
        simp only [Bus.sector_read, Bus.wait]
      rw [if_pos (by omega)]
      simp only [hnext, hrest]
      rfl

theorem outws_writing (hbusy : bus.busy = 0) (ht : bus.transfer = .writing sector left buffer)
    (hn : buffer.length + ws.length = 256) (hws : ws ≠ []) :
    bus.outws ws = bus.sector_written sector left (of_words (buffer ++ ws)) := by
  induction ws generalizing bus buffer with
  | nil => exact absurd rfl hws
  | cons w ws ih =>
    have hfirst : bus.outws (w :: ws) = (bus.outw w).outws ws := rfl
    rw [List.length_cons] at hn
    rw [hfirst, outw_writing hbusy ht]
    by_cases hlast : ws = []
    · subst hlast
      rw [List.length_nil] at hn
      rw [if_neg (by omega)]
      rfl
    · have hpos := List.length_pos_iff.mpr hlast
      have hrest := @ih { bus with transfer := .writing sector left (buffer ++ [w]) } (buffer ++ [w]) hbusy rfl
        (by rw [List.length_append, List.length_singleton]; omega) hlast
      rw [if_pos (by omega), hrest, List.append_assoc, List.singleton_append]
      rfl

end transfer

end pio_disk
