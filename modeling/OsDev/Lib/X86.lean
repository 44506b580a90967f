import OsDev.Lib.LittleEndian
import Mathlib.Logic.Function.Basic
import Mathlib.Data.List.Basic

open little_endian

namespace x86

inductive Reg
  | rax | rcx | rdx | rbx | rsp | rbp | rsi | rdi | r8 | r9 | r10 | r11 | r12 | r13 | r14 | r15
  deriving DecidableEq

/-- A processor in 64-bit mode, and the memory it works on. -/
structure Cpu where
  gpr : Reg → UInt64
  xmm : Fin 16 → ℕ
  rip : UInt64
  rflags : UInt64
  cs : UInt16
  ss : UInt16
  cr2 : UInt64
  mem : ℕ → UInt8

def Cpu.sp (c : Cpu) : ℕ := (c.gpr .rsp).toNat

def Cpu.set (c : Cpu) (r : Reg) (v : UInt64) : Cpu := { c with gpr := Function.update c.gpr r v }

/-- The eight bytes at an address. -/
def Cpu.load (c : Cpu) (addr : ℕ) : UInt64 := UInt64.ofNat (le64 c.mem addr)

def Cpu.store (c : Cpu) (addr : ℕ) (v : UInt64) : Cpu := { c with mem := put64 c.mem addr v.toNat }

def Cpu.push (c : Cpu) (v : UInt64) : Cpu :=
  let c := c.set .rsp (c.gpr .rsp - 8)
  c.store c.sp v

def Cpu.pushes (c : Cpu) (vs : List UInt64) : Cpu := vs.foldl Cpu.push c

/-- The instructions of interrupt stubs. A called function is what it does to the processor, from its entry to its return. -/
inductive Instr
  | push (r : Reg)
  | pop (r : Reg)
  | load (r : Reg) (offset : ℕ)
  | read_cr2 (r : Reg)
  | add_rsp (n : UInt64)
  | call (back : UInt64) (f : Cpu → Cpu)
  | iretq

/-- Back to what the interrupt has pushed. -/
def Cpu.iretq (c : Cpu) : Cpu :=
  { c.set .rsp (c.load (c.sp + 24)) with
    rip := c.load c.sp
    cs := (c.load (c.sp + 8)).toUInt16
    rflags := c.load (c.sp + 16)
    ss := (c.load (c.sp + 32)).toUInt16 }

def exec (c : Cpu) : Instr → Cpu
  | .push r => c.push (c.gpr r)
  | .pop r => (c.set .rsp (c.gpr .rsp + 8)).set r (c.load c.sp)
  | .load r offset => c.set r (c.load (c.sp + offset))
  | .read_cr2 r => c.set r c.cr2
  | .add_rsp n => c.set .rsp (c.gpr .rsp + n)
  | .call back f => f (c.push back)
  | .iretq => c.iretq

/-- Instructions one after the other. -/
def run (is : List Instr) (c : Cpu) : Cpu := is.foldl exec c

/-- The flags that an interrupt gate clears: TF, IF, NT, RF and VM. -/
def GATE_CLEARED : UInt64 := 0x34300

def IF : UInt64 := 0x200

def Cpu.align (c : Cpu) : Cpu := c.set .rsp (c.gpr .rsp - c.gpr .rsp % 16)

/-- What an interrupt pushes, with an error code for some exceptions. -/
def Cpu.interrupt_frame (c : Cpu) (error_code : Option UInt64) : List UInt64 :=
  [c.ss.toUInt64, c.gpr .rsp, c.rflags, c.cs.toUInt64, c.rip] ++ error_code.toList

/-- What the processor does for an interrupt, without a change of privilege: it aligns the stack, pushes where it was
    and goes to the gate. -/
def Cpu.interrupt (c : Cpu) (sel : UInt16) (offset : UInt64) (error_code : Option UInt64) : Cpu :=
  { c.align.pushes (c.interrupt_frame error_code) with
    rip := offset
    cs := sel
    rflags := c.rflags &&& ~~~GATE_CLEARED }

variable {c c' : Cpu} {r : Reg} {v : UInt64} {a : ℕ}

@[simp] theorem run_nil (c : Cpu) : run [] c = c := rfl

@[simp] theorem run_cons (i : Instr) (is : List Instr) (c : Cpu) : run (i :: is) c = run is (exec c i) := rfl

theorem run_append (is is' : List Instr) (c : Cpu) : run (is ++ is') c = run is' (run is c) := List.foldl_append

@[simp] theorem set_same (c : Cpu) (r : Reg) (v : UInt64) : (c.set r v).gpr r = v := by
  simp only [Cpu.set, Function.update_self]

theorem set_other {r' : Reg} (h : r' ≠ r) : (c.set r v).gpr r' = c.gpr r' := by
  simp only [Cpu.set, Function.update_of_ne h]

@[simp] theorem set_mem (c : Cpu) (r : Reg) (v : UInt64) : (c.set r v).mem = c.mem := rfl

@[simp] theorem push_rsp (c : Cpu) (v : UInt64) : (c.push v).gpr .rsp = c.gpr .rsp - 8 := set_same c .rsp _

theorem push_gpr (h : r ≠ .rsp) : (c.push v).gpr r = c.gpr r := set_other h

/-- All that a push changes. -/
theorem push_eq (c : Cpu) (v : UInt64) :
    c.push v = { c with gpr := Function.update c.gpr .rsp (c.gpr .rsp - 8), mem := (c.push v).mem } := rfl

theorem sp_sub {n : UInt64} (h : n.toNat ≤ c.sp) : (c.gpr .rsp - n).toNat = c.sp - n.toNat :=
  UInt64.toNat_sub_of_le _ _ (UInt64.le_iff_toNat_le.mpr h)

theorem push_sp (h : 8 ≤ c.sp) : (c.push v).sp = c.sp - 8 := by
  rw [Cpu.sp, push_rsp]
  exact sp_sub h

theorem push_mem (h : 8 ≤ c.sp) : (c.push v).mem = put64 c.mem (c.sp - 8) v.toNat := by
  have hsp : (c.set .rsp (c.gpr .rsp - 8)).sp = c.sp - 8 := by
    rw [Cpu.sp, set_same]
    exact sp_sub h
  simp only [Cpu.push, Cpu.store, hsp, set_mem]

theorem push_mem_of_outside (h : 8 ≤ c.sp) (ha : a < c.sp - 8 ∨ c.sp ≤ a) : (c.push v).mem a = c.mem a := by
  rw [push_mem h]
  exact put64_of_outside (by omega)

theorem load_congr (h : ∀ k < 8, c'.mem (a + k) = c.mem (a + k)) : c'.load a = c.load a :=
  congrArg UInt64.ofNat (le64_congr h)

theorem load_push (h : 8 ≤ c.sp) : (c.push v).load (c.sp - 8) = v := by
  rw [Cpu.load, push_mem h, le64_put64_same v.toNat_lt, UInt64.ofNat_toNat]

/-- What pushing changes: the stack pointer, and the memory in front of it. -/
theorem pushes_spec (vs : List UInt64) {c : Cpu} (hroom : 8 * vs.length ≤ c.sp) :
    ∃ mem, c.pushes vs = { c with gpr := Function.update c.gpr .rsp ((c.pushes vs).gpr .rsp), mem } ∧
      (c.pushes vs).sp = c.sp - 8 * vs.length ∧ ∀ a, a < c.sp - 8 * vs.length ∨ c.sp ≤ a → mem a = c.mem a := by
  induction vs generalizing c with
  | nil => exact ⟨c.mem, by simp [Cpu.pushes], rfl, fun a _ => rfl⟩
  | cons v vs ih =>
    rw [List.length_cons] at hroom ⊢
    have hsp := push_sp (v := v) (show 8 ≤ c.sp by omega)
    obtain ⟨mem, heq, hend, hmem⟩ := @ih (c.push v) (by omega)
    refine ⟨mem, heq.trans ?_, ?_, fun a ha => ?_⟩
    · exact congrArg (fun gpr => { c with gpr, mem }) (Function.update_idem _ _ _)
    · rw [hsp] at hend
      exact hend.trans (by omega)
    · rw [hmem a (by omega), push_mem_of_outside (by omega) (by omega)]

theorem pushes_mem (vs : List UInt64) (hroom : 8 * vs.length ≤ c.sp) (ha : a < c.sp - 8 * vs.length ∨ c.sp ≤ a) :
    (c.pushes vs).mem a = c.mem a := by
  obtain ⟨mem, heq, -, hmem⟩ := pushes_spec vs hroom
  rw [heq]
  exact hmem a ha

/-- Every value stands where it has been pushed. -/
theorem load_pushes (vs : List UInt64) {c : Cpu} (hroom : 8 * vs.length ≤ c.sp) {i : ℕ} (hi : i < vs.length) :
    (c.pushes vs).load (c.sp - 8 * (i + 1)) = vs[i] := by
  induction vs generalizing c i with
  | nil => exact absurd hi (Nat.not_lt_zero i)
  | cons v vs ih =>
    rw [List.length_cons] at hroom hi
    have hsp := push_sp (v := v) (show 8 ≤ c.sp by omega)
    have hpushes : c.pushes (v :: vs) = (c.push v).pushes vs := rfl
    rw [hpushes]
    cases i with
    | zero =>
      refine Eq.trans (load_congr fun k hk => ?_) (load_push (show 8 ≤ c.sp by omega))
      exact pushes_mem vs (by omega) (by omega)
    | succ i =>
      have hlater := @ih (c.push v) (by omega) i (by omega)
      rw [hsp] at hlater
      rw [List.getElem_cons_succ, ← hlater]
      congr 1
      omega

theorem run_push (rs : List Reg) (hrsp : .rsp ∉ rs) (c : Cpu) : run (rs.map .push) c = c.pushes (rs.map c.gpr) := by
  induction rs generalizing c with
  | nil => rfl
  | cons r rs ih =>
    have hgpr : rs.map (c.push (c.gpr r)).gpr = rs.map c.gpr := by
      refine List.map_congr_left fun q hq => push_gpr ?_
      rintro rfl
      exact hrsp (List.mem_cons_of_mem r hq)
    have hrest := ih (fun h => hrsp (List.mem_cons_of_mem r h)) (c.push (c.gpr r))
    rw [hgpr] at hrest
    exact hrest

/-- Popping what has been pushed, in the opposite order, brings the registers back, whatever has been done in between
    that leaves the stack alone. -/
theorem run_pops (rs : List Reg) (hrsp : .rsp ∉ rs) {c c' : Cpu} (hroom : 8 * rs.length ≤ c.sp)
    (hsp : c'.gpr .rsp = (c.pushes (rs.map c.gpr)).gpr .rsp)
    (hmem : ∀ a, c.sp - 8 * rs.length ≤ a → a < c.sp → c'.mem a = (c.pushes (rs.map c.gpr)).mem a) :
    run (rs.reverse.map .pop) c' =
      { c' with gpr := fun r => if r = .rsp then c.gpr .rsp else if r ∈ rs then c.gpr r else c'.gpr r } := by
  induction rs generalizing c with
  | nil =>
    have hgpr : c'.gpr = fun r => if r = .rsp then c.gpr .rsp else if r ∈ [] then c.gpr r else c'.gpr r := by
      funext r
      by_cases hr : r = .rsp
      · subst hr
        rw [if_pos rfl]
        exact hsp
      · rw [if_neg hr, if_neg List.not_mem_nil]
    exact congrArg (fun gpr => { c' with gpr }) hgpr
  | cons r rs ih =>
    have hr : r ≠ .rsp := fun heq => hrsp (heq ▸ List.mem_cons_self)
    have hrs : .rsp ∉ rs := fun h => hrsp (List.mem_cons_of_mem r h)
    rw [List.length_cons] at hroom hmem
    have hpush := push_sp (v := c.gpr r) (show 8 ≤ c.sp by omega)
    have hpushes : c.pushes ((r :: rs).map c.gpr) = (c.push (c.gpr r)).pushes (rs.map (c.push (c.gpr r)).gpr) := by
      rw [← run_push (r :: rs) hrsp, List.map_cons, run_cons, ← run_push rs hrs]
      rfl
    rw [hpushes] at hsp hmem
    have hback := @ih hrs (c.push (c.gpr r)) (by omega) hsp fun a ha hlt => hmem a (by omega) (by omega)
    have hvalue : c'.load (c.sp - 8) = c.gpr r := by
      rw [← @load_push c (c.gpr r) (by omega)]
      refine load_congr fun k hk => ?_
      rw [hmem _ (by omega) (by omega)]
      exact pushes_mem _ (by rw [List.length_map]; omega) (by rw [List.length_map]; omega)
    rw [List.reverse_cons, List.map_append, run_append, hback]
    have hpop : c.gpr .rsp - 8 + 8 = c.gpr .rsp := UInt64.sub_add_cancel _ _
    have htop : (c.gpr .rsp - 8).toNat = (c.gpr .rsp).toNat - 8 := sp_sub (Nat.le_trans (Nat.le_add_left _ _) hroom)
    have hload : ∀ gpr, ({ c' with gpr } : Cpu).load ((c.gpr .rsp).toNat - 8) = c.gpr r := fun _ => hvalue
    simp only [List.map_cons, List.map_nil, run_cons, run_nil, exec, Cpu.sp, if_true, push_rsp, htop, hload, hpop, Cpu.set]
    congr 1
    funext q
    by_cases hqr : q = r
    · subst hqr
      rw [Function.update_self, if_neg hr, if_pos List.mem_cons_self]
    · rw [Function.update_of_ne hqr]
      by_cases hq : q = .rsp
      · subst hq
        rw [Function.update_self, if_pos rfl]
      · rw [Function.update_of_ne hq, if_neg hq, if_neg hq, push_gpr hq]
        simp only [List.mem_cons, hqr, false_or]

end x86
