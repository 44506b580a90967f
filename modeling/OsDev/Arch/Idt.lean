import OsDev.Lib.LittleEndian
import Mathlib.Data.List.Basic
import Mathlib.Data.List.Induction
import Mathlib.Logic.Function.Basic

open little_endian

namespace os_dev.idt

structure idt_entry where
  base_low : UInt16
  sel : UInt16
  ist : UInt8
  flags : UInt8
  base_mid : UInt16
  base_high : UInt32
  reserved : UInt32

/-- The bytes of an entry, which is packed. -/
def idt_entry.byte (e : idt_entry) (k : ℕ) : UInt8 :=
  if k < 2 then byteOf e.base_low.toNat k
  else if k < 4 then byteOf e.sel.toNat (k - 2)
  else if k < 5 then e.ist
  else if k < 6 then e.flags
  else if k < 8 then byteOf e.base_mid.toNat (k - 6)
  else if k < 12 then byteOf e.base_high.toNat (k - 8)
  else byteOf e.reserved.toNat (k - 12)

abbrev Idt := UInt8 → idt_entry

/-- The table as it stands in memory from `idtp.base` on. -/
def idt_bytes (idt : Idt) (a : ℕ) : UInt8 := (idt (UInt8.ofNat (a / 16))).byte (a % 16)

def idt_set_gate (idt : Idt) (num : UInt8) (base : UInt64) (sel : UInt16) (flags : UInt8) : Idt :=
  Function.update idt num
    { base_low := base.toUInt16
      sel := sel
      ist := 0
      flags := flags
      base_mid := (base >>> 16).toUInt16
      base_high := (base >>> 32).toUInt32
      reserved := 0 }

/-- `sizeof(struct idt_entry) * 256 - 1`. -/
def idtp_limit : ℕ := 16 * 256 - 1

/-- Where the linker puts the assembler handlers. -/
structure Handlers where
  page_fault_asm_handler : UInt64
  timer_asm_handler : UInt64
  keyboard_asm_handler : UInt64
  dummy_exception_handler : UInt64
  distinct : [page_fault_asm_handler, timer_asm_handler, keyboard_asm_handler, dummy_exception_handler].Nodup

/-- The gates of `init_idt`. -/
def idt_gates (handlers : Handlers) (idt : Idt) : Idt :=
  let idt := (List.range 256).foldl
    (fun idt i => idt_set_gate idt (UInt8.ofNat i) handlers.dummy_exception_handler 0x08 0x8E) idt
  let idt := idt_set_gate idt 14 handlers.page_fault_asm_handler 0x08 0x8E
  let idt := idt_set_gate idt 32 handlers.timer_asm_handler 0x08 0x8E
  idt_set_gate idt 33 handlers.keyboard_asm_handler 0x08 0x8E

/-- What the processor reads in a gate. -/
structure Gate where
  offset : ℕ
  sel : ℕ
  ist : ℕ
  flags : UInt8
  deriving DecidableEq

def gate_at (bytes : ℕ → UInt8) (p : ℕ) : Gate where
  offset := le16 bytes p + 2 ^ 16 * le16 bytes (p + 6) + 2 ^ 32 * le32 bytes (p + 8)
  sel := le16 bytes (p + 2)
  ist := (bytes (p + 4)).toNat % 8
  flags := bytes (p + 5)

/-- The gate of a vector, if it is in the table, present, and an interrupt gate. -/
def fetch_gate (bytes : ℕ → UInt8) (limit vector : ℕ) : Option Gate :=
  let gate := gate_at bytes (16 * vector)
  if 16 * vector + 15 ≤ limit ∧ gate.flags &&& 0x9F = 0x8E then some gate else none

variable {idt : Idt} {num vector : UInt8} {base : UInt64} {sel : UInt16} {flags : UInt8}

theorem idt_bytes_eq (idt : Idt) (vector : UInt8) {k : ℕ} (hk : k < 16) :
    idt_bytes idt (16 * vector.toNat + k) = (idt vector).byte k := by
  rw [idt_bytes, Nat.mul_add_div (by decide), Nat.div_eq_of_lt hk, Nat.add_zero, Nat.mul_add_mod, Nat.mod_eq_of_lt hk,
    UInt8.ofNat_toNat]

/-- What the processor reads in the fields of an entry. -/
theorem gate_entry (idt : Idt) (vector : UInt8) : gate_at (idt_bytes idt) (16 * vector.toNat) =
    { offset := (idt vector).base_low.toNat + 2 ^ 16 * (idt vector).base_mid.toNat + 2 ^ 32 * (idt vector).base_high.toNat
      sel := (idt vector).sel.toNat
      ist := (idt vector).ist.toNat % 8
      flags := (idt vector).flags } := by
  have hbyte := fun k (hk : k < 16) => idt_bytes_eq idt vector hk
  have hlow : le16 (idt_bytes idt) (16 * vector.toNat) = (idt vector).base_low.toNat :=
    le16_of_bytes (idt vector).base_low.toNat_lt (hbyte 0 (by decide)) (hbyte 1 (by decide))
  have hsel : le16 (idt_bytes idt) (16 * vector.toNat + 2) = (idt vector).sel.toNat :=
    le16_of_bytes (idt vector).sel.toNat_lt (hbyte 2 (by decide)) (hbyte 3 (by decide))
  have hmid : le16 (idt_bytes idt) (16 * vector.toNat + 6) = (idt vector).base_mid.toNat :=
    le16_of_bytes (idt vector).base_mid.toNat_lt (hbyte 6 (by decide)) (hbyte 7 (by decide))
  have hhigh : le32 (idt_bytes idt) (16 * vector.toNat + 8) = (idt vector).base_high.toNat := by
    refine le32_of_bytes (idt vector).base_high.toNat_lt fun k hk => ?_
    rw [Nat.add_assoc, hbyte (8 + k) (by omega), idt_entry.byte]
    simp only [show ¬ 8 + k < 2 by omega, show ¬ 8 + k < 4 by omega, show ¬ 8 + k < 5 by omega, show ¬ 8 + k < 6 by omega,
      show ¬ 8 + k < 8 by omega, show 8 + k < 12 by omega, if_true, if_false, Nat.add_sub_cancel_left]
  rw [gate_at, hlow, hsel, hmid, hhigh, hbyte 4 (by decide), hbyte 5 (by decide)]
  rfl

theorem base_parts (base : UInt64) :
    base.toUInt16.toNat + 2 ^ 16 * (base >>> 16).toUInt16.toNat + 2 ^ 32 * (base >>> 32).toUInt32.toNat = base.toNat := by
  have hbase := base.toNat_lt
  have hmid : (base >>> 16).toUInt16.toNat = base.toNat / 2 ^ 16 % 2 ^ 16 := by
    rw [UInt64.toNat_toUInt16, UInt64.toNat_shiftRight, Nat.shiftRight_eq_div_pow]
    rfl
  have hhigh : (base >>> 32).toUInt32.toNat = base.toNat / 2 ^ 32 % 2 ^ 32 := by
    rw [UInt64.toNat_toUInt32, UInt64.toNat_shiftRight, Nat.shiftRight_eq_div_pow]
    rfl
  rw [hmid, hhigh, UInt64.toNat_toUInt16]
  omega

/-- What is set in the table is what the processor reads there, and nothing else changes. -/
theorem gate_of_set (idt : Idt) (num vector : UInt8) (base : UInt64) (sel : UInt16) (flags : UInt8) :
    gate_at (idt_bytes (idt_set_gate idt num base sel flags)) (16 * vector.toNat) =
      if vector = num then ⟨base.toNat, sel.toNat, 0, flags⟩ else gate_at (idt_bytes idt) (16 * vector.toNat) := by
  by_cases hvector : vector = num
  · subst hvector
    rw [if_pos rfl, gate_entry, idt_set_gate, Function.update_self]
    simp only [base_parts]
    rfl
  · rw [if_neg hvector, gate_entry, gate_entry, idt_set_gate, Function.update_of_ne hvector]

/-- A call of `idt_set_gate`. -/
structure GateCall where
  num : UInt8
  base : UInt64
  sel : UInt16
  flags : UInt8

def set_gates (idt : Idt) (calls : List GateCall) : Idt :=
  calls.foldl (fun idt call => idt_set_gate idt call.num call.base call.sel call.flags) idt

/-- After any calls, the processor reads for a vector what the last call for it has set. -/
theorem gate_of_set_gates (idt : Idt) (calls : List GateCall) (vector : UInt8) :
    gate_at (idt_bytes (set_gates idt calls)) (16 * vector.toNat) =
      match calls.reverse.find? (·.num = vector) with
      | some call => ⟨call.base.toNat, call.sel.toNat, 0, call.flags⟩
      | none => gate_at (idt_bytes idt) (16 * vector.toNat) := by
  induction calls using List.reverseRecOn with
  | nil => rfl
  | append_singleton calls call ih =>
    have hset : set_gates idt (calls ++ [call]) = idt_set_gate (set_gates idt calls) call.num call.base call.sel call.flags :=
      List.foldl_concat ..
    rw [hset, gate_of_set, List.reverse_concat, List.find?_cons]
    by_cases hvector : vector = call.num
    · subst hvector
      simp
    · simpa [hvector, Ne.symm hvector] using ih

/-- After the loop, every vector has the gate of the dummy handler. -/
theorem gate_of_dummies (idt : Idt) (base : UInt64) {n : ℕ} (hn : n ≤ 256) (hvector : vector.toNat < n) :
    gate_at (idt_bytes ((List.range n).foldl (fun idt i => idt_set_gate idt (UInt8.ofNat i) base 0x08 0x8E) idt))
      (16 * vector.toNat) = ⟨base.toNat, 0x08, 0, 0x8E⟩ := by
  induction n with
  | zero => exact absurd hvector (Nat.not_lt_zero _)
  | succ n ih =>
    rw [List.range_succ, List.foldl_append, List.foldl_cons, List.foldl_nil, gate_of_set]
    split
    · rfl
    · rename_i hne
      refine ih (by omega) ?_
      have hsame : vector.toNat ≠ n := by
        rintro rfl
        exact hne (UInt8.ofNat_toNat).symm
      omega

/-- The handler that a vector gets to. -/
def Handlers.of_vector (handlers : Handlers) (vector : UInt8) : UInt64 :=
  if vector = 33 then handlers.keyboard_asm_handler
  else if vector = 32 then handlers.timer_asm_handler
  else if vector = 14 then handlers.page_fault_asm_handler
  else handlers.dummy_exception_handler

/-- Every vector has an interrupt gate into the kernel's code segment. -/
theorem fetch_gate_eq (handlers : Handlers) (idt : Idt) (vector : UInt8) :
    fetch_gate (idt_bytes (idt_gates handlers idt)) idtp_limit vector.toNat =
      some ⟨(handlers.of_vector vector).toNat, 0x08, 0, 0x8E⟩ := by
  have hlt := vector.toNat_lt
  have hgate : gate_at (idt_bytes (idt_gates handlers idt)) (16 * vector.toNat) =
      ⟨(handlers.of_vector vector).toNat, 0x08, 0, 0x8E⟩ := by
    simp only [idt_gates, gate_of_set, gate_of_dummies idt handlers.dummy_exception_handler le_rfl hlt, Handlers.of_vector]
    split_ifs <;> rfl
  have hlimit : 16 * vector.toNat + 15 ≤ idtp_limit := by
    rw [show idtp_limit = 4095 from rfl]
    omega
  have hflags : (0x8E : UInt8) &&& 0x9F = 0x8E := by decide
  rw [fetch_gate, hgate]
  exact if_pos ⟨hlimit, hflags⟩

end os_dev.idt
