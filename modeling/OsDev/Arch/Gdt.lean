import OsDev.Lib.LittleEndian
import Mathlib.Data.List.Basic
import Mathlib.Data.List.Induction
import Mathlib.Logic.Function.Basic

open little_endian

namespace os_dev.gdt

def GDT_ACCESS_PRESENT : UInt8 := 0x80
def GDT_ACCESS_RING0 : UInt8 := 0x00
def GDT_ACCESS_CODE : UInt8 := 0x1A
def GDT_ACCESS_DATA : UInt8 := 0x12
def GDT_FLAG_64BIT : UInt8 := 0x20

structure gdt_entry where
  limit_low : UInt16
  base_low : UInt16
  base_middle : UInt8
  access : UInt8
  granularity : UInt8
  base_high : UInt8

/-- The bytes of an entry, which is packed. -/
def gdt_entry.byte (e : gdt_entry) (k : ℕ) : UInt8 :=
  if k < 2 then byteOf e.limit_low.toNat k
  else if k < 4 then byteOf e.base_low.toNat (k - 2)
  else if k < 5 then e.base_middle
  else if k < 6 then e.access
  else if k < 7 then e.granularity
  else e.base_high

/-- The table, with an entry for each number, as it stands in memory from `gp.base` on. -/
def gdt_bytes (gdt : ℕ → gdt_entry) (a : ℕ) : UInt8 := (gdt (a / 8)).byte (a % 8)

def gdt_set_gate (gdt : ℕ → gdt_entry) (num : ℕ) (base limit : UInt32) (access gran : UInt8) : ℕ → gdt_entry :=
  Function.update gdt num
    { base_low := base.toUInt16
      base_middle := (base >>> 16).toUInt8
      base_high := (base >>> 24).toUInt8
      limit_low := limit.toUInt16
      granularity := ((limit >>> 16).toUInt8 &&& 0x0F) ||| (gran &&& 0xF0)
      access := access }

/-- `sizeof(struct gdt_entry) * 3 - 1`. -/
def gp_limit : ℕ := 8 * 3 - 1

def init_gdt (gdt : ℕ → gdt_entry) : ℕ → gdt_entry :=
  let gdt := gdt_set_gate gdt 0 0 0 0 0
  let gdt := gdt_set_gate gdt 1 0 0 (GDT_ACCESS_PRESENT ||| GDT_ACCESS_RING0 ||| GDT_ACCESS_CODE) GDT_FLAG_64BIT
  gdt_set_gate gdt 2 0 0 (GDT_ACCESS_PRESENT ||| GDT_ACCESS_RING0 ||| GDT_ACCESS_DATA) 0

/-- What the processor reads in a segment descriptor. -/
structure Segment where
  base : ℕ
  limit : ℕ
  access : UInt8
  flags : ℕ
  deriving DecidableEq

/-- The descriptor at an address: its limit has 20 bits, and shares a byte with the flags. -/
def segment_at (bytes : ℕ → UInt8) (p : ℕ) : Segment where
  base := le16 bytes (p + 2) + 2 ^ 16 * (bytes (p + 4)).toNat + 2 ^ 24 * (bytes (p + 7)).toNat
  limit := le16 bytes p + 2 ^ 16 * ((bytes (p + 6)).toNat % 16)
  access := bytes (p + 5)
  flags := (bytes (p + 6)).toNat / 16

/-- A selector is an offset into the table, with the privilege in its low bits. Selector 0 is null. -/
def load_segment (bytes : ℕ → UInt8) (limit selector : ℕ) : Option Segment :=
  if selector / 8 = 0 ∨ limit < selector / 8 * 8 + 7 then none else some (segment_at bytes (selector / 8 * 8))

variable {gdt : ℕ → gdt_entry} {num n : ℕ} {base limit : UInt32} {access gran : UInt8}

theorem gdt_bytes_eq (gdt : ℕ → gdt_entry) (n : ℕ) {k : ℕ} (hk : k < 8) : gdt_bytes gdt (8 * n + k) = (gdt n).byte k := by
  rw [gdt_bytes, Nat.mul_add_div (by decide), Nat.div_eq_of_lt hk, Nat.add_zero, Nat.mul_add_mod, Nat.mod_eq_of_lt hk]

/-- What the processor reads in the fields of an entry. -/
theorem segment_entry (gdt : ℕ → gdt_entry) (n : ℕ) : segment_at (gdt_bytes gdt) (8 * n) =
    { base := (gdt n).base_low.toNat + 2 ^ 16 * (gdt n).base_middle.toNat + 2 ^ 24 * (gdt n).base_high.toNat
      limit := (gdt n).limit_low.toNat + 2 ^ 16 * ((gdt n).granularity.toNat % 16)
      access := (gdt n).access
      flags := (gdt n).granularity.toNat / 16 } := by
  have hbyte := fun k (hk : k < 8) => gdt_bytes_eq gdt n hk
  have hlimit : le16 (gdt_bytes gdt) (8 * n) = (gdt n).limit_low.toNat :=
    le16_of_bytes (gdt n).limit_low.toNat_lt (hbyte 0 (by decide)) (hbyte 1 (by decide))
  have hbase : le16 (gdt_bytes gdt) (8 * n + 2) = (gdt n).base_low.toNat :=
    le16_of_bytes (gdt n).base_low.toNat_lt (hbyte 2 (by decide)) (hbyte 3 (by decide))
  rw [segment_at, hlimit, hbase, hbyte 4 (by decide), hbyte 5 (by decide), hbyte 6 (by decide), hbyte 7 (by decide)]
  rfl

theorem high_nibble (b : Fin 256) : b.val &&& 0xF0 = 2 ^ 4 * (b.val / 16) := by
  revert b
  decide +kernel

theorem granularity_toNat (limit : UInt32) (gran : UInt8) :
    (((limit >>> 16).toUInt8 &&& 0x0F) ||| (gran &&& 0xF0)).toNat = limit.toNat / 2 ^ 16 % 16 + 16 * (gran.toNat / 16) := by
  have hlow : ((limit >>> 16).toUInt8 &&& 0x0F).toNat = limit.toNat / 2 ^ 16 % 16 := by
    have hshift : (limit >>> 16).toUInt8.toNat = limit.toNat / 2 ^ 16 % 2 ^ 8 := by
      rw [UInt32.toNat_toUInt8, UInt32.toNat_shiftRight, Nat.shiftRight_eq_div_pow]
      rfl
    have hmask := Nat.and_two_pow_sub_one_eq_mod (limit.toNat / 2 ^ 16 % 2 ^ 8) 4
    rw [UInt8.toNat_and, hshift]
    exact hmask.trans (by omega)
  have hhigh : (gran &&& 0xF0).toNat = 2 ^ 4 * (gran.toNat / 16) := by
    rw [UInt8.toNat_and]
    exact high_nibble ⟨gran.toNat, gran.toNat_lt⟩
  rw [UInt8.toNat_or, hlow, hhigh, Nat.or_comm, ← Nat.two_pow_add_eq_or_of_lt (Nat.mod_lt _ (by decide))]
  omega

/-- What is set in the table is what the processor reads there, with the limit cut to 20 bits, and nothing else changes. -/
theorem segment_of_set (gdt : ℕ → gdt_entry) (num n : ℕ) (base limit : UInt32) (access gran : UInt8) :
    segment_at (gdt_bytes (gdt_set_gate gdt num base limit access gran)) (8 * n) =
      if n = num then ⟨base.toNat, limit.toNat % 2 ^ 20, access, gran.toNat / 16⟩ else segment_at (gdt_bytes gdt) (8 * n) := by
  by_cases hn : n = num
  · subst hn
    have hbase := base.toNat_lt
    have hgran := gran.toNat_lt
    have hmiddle : (base >>> 16).toUInt8.toNat = base.toNat / 2 ^ 16 % 2 ^ 8 := by
      rw [UInt32.toNat_toUInt8, UInt32.toNat_shiftRight, Nat.shiftRight_eq_div_pow]
      rfl
    have hhigh : (base >>> 24).toUInt8.toNat = base.toNat / 2 ^ 24 % 2 ^ 8 := by
      rw [UInt32.toNat_toUInt8, UInt32.toNat_shiftRight, Nat.shiftRight_eq_div_pow]
      rfl
    rw [if_pos rfl, segment_entry, gdt_set_gate, Function.update_self]
    simp only [granularity_toNat, hmiddle, hhigh, UInt32.toNat_toUInt16, Segment.mk.injEq, true_and]
    omega
  · rw [if_neg hn, segment_entry, segment_entry, gdt_set_gate, Function.update_of_ne hn]

/-- The minimal table of the boot code: null, 64-bit code and data. -/
def gdt64 (n : ℕ) : ℕ :=
  if n = 1 then 2 ^ 43 + 2 ^ 44 + 2 ^ 47 + 2 ^ 53 else if n = 2 then 2 ^ 44 + 2 ^ 47 + 2 ^ 41 else 0

def gdt64_bytes (a : ℕ) : UInt8 := byteOf (gdt64 (a / 8)) (a % 8)

/-- A code segment that can be read, or a data segment that can be written. -/
def Segment.opened (s : Segment) : Segment := { s with access := s.access ||| 0x02 }

theorem load_segment_eq (bytes : ℕ → UInt8) (selector : ℕ) : load_segment bytes gp_limit selector =
    if selector / 8 = 1 then some (segment_at bytes 8)
    else if selector / 8 = 2 then some (segment_at bytes 16) else none := by
  have hlimit : gp_limit = 23 := rfl
  rw [load_segment]
  split_ifs with hout hone htwo hone htwo
  · omega
  · omega
  · rfl
  · rw [hone]
  · rw [htwo]
  · omega

/-- The table that replaces the boot code's has the same segments, if nothing is made of the bit that lets code be read. -/
theorem gdt_reload (gdt : ℕ → gdt_entry) (selector : ℕ) :
    (load_segment (gdt_bytes (init_gdt gdt)) gp_limit selector).map Segment.opened =
      (load_segment gdt64_bytes gp_limit selector).map Segment.opened := by
  have hcode : segment_at gdt64_bytes 8 = ⟨0, 0, 0x98, 2⟩ := by decide
  have hdata : segment_at gdt64_bytes 16 = ⟨0, 0, 0x92, 0⟩ := by decide
  have hcode' : segment_at (gdt_bytes (init_gdt gdt)) 8 = ⟨0, 0, 0x9A, 2⟩ := by
    rw [init_gdt, show 8 = 8 * 1 from rfl, segment_of_set, if_neg (by decide), segment_of_set, if_pos rfl]
    rfl
  have hdata' : segment_at (gdt_bytes (init_gdt gdt)) 16 = ⟨0, 0, 0x92, 0⟩ := by
    rw [init_gdt, show 16 = 8 * 2 from rfl, segment_of_set, if_pos rfl]
    rfl
  rw [load_segment_eq, load_segment_eq, hcode, hdata, hcode', hdata']
  split_ifs <;> rfl

/-- A call of `gdt_set_gate`. -/
structure GateCall where
  num : ℕ
  base : UInt32
  limit : UInt32
  access : UInt8
  gran : UInt8

def set_gates (gdt : ℕ → gdt_entry) (calls : List GateCall) : ℕ → gdt_entry :=
  calls.foldl (fun gdt call => gdt_set_gate gdt call.num call.base call.limit call.access call.gran) gdt

def GateCall.segment (call : GateCall) : Segment :=
  ⟨call.base.toNat, call.limit.toNat % 2 ^ 20, call.access, call.gran.toNat / 16⟩

/-- After any calls, the processor reads for an entry what the last call for it has set. -/
theorem segment_of_set_gates (gdt : ℕ → gdt_entry) (calls : List GateCall) (n : ℕ) :
    segment_at (gdt_bytes (set_gates gdt calls)) (8 * n) =
      match calls.reverse.find? (·.num = n) with
      | some call => call.segment
      | none => segment_at (gdt_bytes gdt) (8 * n) := by
  induction calls using List.reverseRecOn with
  | nil => rfl
  | append_singleton calls call ih =>
    have hset : set_gates gdt (calls ++ [call]) =
        gdt_set_gate (set_gates gdt calls) call.num call.base call.limit call.access call.gran := List.foldl_concat ..
    rw [hset, segment_of_set, List.reverse_concat, List.find?_cons]
    by_cases hn : n = call.num
    · subst hn
      simp [GateCall.segment]
    · simpa [hn, Ne.symm hn] using ih

end os_dev.gdt
