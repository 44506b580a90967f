import OsDev.Lib.X86
import Mathlib.Data.List.Induction

namespace x86

variable {c c' : Cpu} {r : Reg} {v : UInt64} {a : ℕ}

def caller_saved : List Reg := [.rax, .rcx, .rdx, .rdi, .rsi, .r8, .r9, .r10, .r11]

def callee_saved : List Reg := [.rbx, .rbp, .r12, .r13, .r14, .r15]

theorem reg_cases (r : Reg) : r = .rsp ∨ r ∈ caller_saved ∨ r ∈ callee_saved := by
  cases r <;> decide

/-- How a C function is entered: the stack is aligned in front of the return address, and has room. -/
structure Called (frame : ℕ) (c : Cpu) : Prop where
  aligned : c.sp % 16 = 8
  room : frame ≤ c.sp

/-- A compiled C function: it returns, leaves the registers of its caller alone, and writes its own data and the stack
    from its return address down. -/
structure CFunction (Own : ℕ → Prop) where
  code : Cpu → Cpu
  frame : ℕ
  returns : ∀ c, Called frame c → (code c).gpr .rsp = c.gpr .rsp + 8
  saved : ∀ c, Called frame c → ∀ r ∈ callee_saved, (code c).gpr r = c.gpr r
  writes : ∀ c, Called frame c → ∀ a, (code c).mem a ≠ c.mem a → Own a ∨ c.sp - frame ≤ a ∧ a < c.sp + 8

/-- What an interrupt at `c` pushes stands in `s` from `p` on. -/
structure SavedAt (c s : Cpu) (p : ℕ) : Prop where
  rip : s.load p = c.rip
  cs : (s.load (p + 8)).toUInt16 = c.cs
  rflags : s.load (p + 16) = c.rflags
  rsp : s.load (p + 24) = c.gpr .rsp
  ss : (s.load (p + 32)).toUInt16 = c.ss

/-- The stack pointer after the alignment. -/
def Cpu.base (c : Cpu) : ℕ := c.sp - c.sp % 16

theorem base_le (c : Cpu) : c.base ≤ c.sp := Nat.sub_le _ _

theorem base_aligned (c : Cpu) : 16 ∣ c.base := by
  unfold Cpu.base
  omega

theorem lt_base (c : Cpu) : c.sp < c.base + 16 := by
  unfold Cpu.base
  omega

theorem align_sp (c : Cpu) : c.align.sp = c.base := by
  have hmod : (c.gpr .rsp % 16).toNat = c.sp % 16 := UInt64.toNat_mod ..
  rw [Cpu.sp, Cpu.align, set_same, UInt64.toNat_sub_of_le _ _ (UInt64.le_iff_toNat_le.mpr (hmod ▸ Nat.mod_le _ _)), hmod]
  rfl

theorem interrupt_gpr (c : Cpu) (sel : UInt16) (offset : UInt64) (error_code : Option UInt64) :
    (c.interrupt sel offset error_code).gpr = (c.align.pushes (c.interrupt_frame error_code)).gpr := by
  simp only [Cpu.interrupt]

theorem interrupt_mem (c : Cpu) (sel : UInt16) (offset : UInt64) (error_code : Option UInt64) :
    (c.interrupt sel offset error_code).mem = (c.align.pushes (c.interrupt_frame error_code)).mem := by
  simp only [Cpu.interrupt]

/-- What an interrupt leaves on the stack. -/
theorem interrupt_spec (sel : UInt16) (offset : UInt64) (error_code : Option UInt64)
    (hroom : 40 + 8 * error_code.toList.length ≤ c.base) :
    ∃ mem, c.interrupt sel offset error_code =
        { c with
          gpr := Function.update c.gpr .rsp ((c.interrupt sel offset error_code).gpr .rsp), mem
          rip := offset, cs := sel, rflags := c.rflags &&& ~~~GATE_CLEARED } ∧
      (c.interrupt sel offset error_code).sp = c.base - 40 - 8 * error_code.toList.length ∧
      SavedAt c (c.interrupt sel offset error_code) (c.base - 40) ∧
      (∀ code, error_code = some code → (c.interrupt sel offset error_code).load (c.base - 48) = code) ∧
      ∀ a, a < c.base - 40 - 8 * error_code.toList.length ∨ c.base ≤ a → mem a = c.mem a := by
  have hsp := align_sp c
  have hlen : (c.interrupt_frame error_code).length = 5 + error_code.toList.length := List.length_append
  have hfits : 8 * (c.interrupt_frame error_code).length ≤ c.align.sp := by omega
  obtain ⟨mem, heq, hend, hmem⟩ := pushes_spec _ hfits
  have hload : ∀ i (hi : i < (c.interrupt_frame error_code).length),
      (c.interrupt sel offset error_code).load (c.base - 8 * (i + 1)) = (c.interrupt_frame error_code)[i] := by
    intro i hi
    rw [← hsp, Cpu.load, interrupt_mem]
    exact load_pushes _ hfits hi
  have hstack : (c.interrupt sel offset error_code).sp = c.base - 40 - 8 * error_code.toList.length := by
    rw [Cpu.sp, interrupt_gpr, ← Cpu.sp, hend]
    omega
  have hslot : ∀ i k, i < 5 → k + 8 * i = 32 → c.base - 40 + k = c.base - 8 * (i + 1) := by omega
  have hvalue : ∀ i k (hi : i < 5), k + 8 * i = 32 → (c.interrupt sel offset error_code).load (c.base - 40 + k) =
      [c.ss.toUInt64, c.gpr .rsp, c.rflags, c.cs.toUInt64, c.rip][i] := by
    intro i k hi hk
    rw [hslot i k hi hk, hload i (by omega)]
    exact List.getElem_append_left hi
  refine ⟨mem, ?_, hstack, ⟨hvalue 4 0 (by decide) rfl, ?_, hvalue 2 16 (by decide) rfl, hvalue 1 24 (by decide) rfl, ?_⟩,
    fun code hcode => ?_, fun a ha => hmem a (by omega)⟩
  · conv_lhs => rw [Cpu.interrupt, heq]
    rw [interrupt_gpr]
    exact congrArg (fun gpr => { c with gpr, mem, rip := offset, cs := sel, rflags := c.rflags &&& ~~~GATE_CLEARED })
      (Function.update_idem _ _ _)
  · rw [hvalue 3 8 (by decide) rfl]
    exact UInt16.toUInt16_toUInt64 c.cs
  · rw [hvalue 0 32 (by decide) rfl]
    exact UInt16.toUInt16_toUInt64 c.ss
  · subst hcode
    exact hload 5 (by rw [hlen, Option.toList_some, List.length_singleton]; decide)

/-- A return to what an interrupt has pushed. -/
theorem iretq_of_savedAt {s : Cpu} (h : SavedAt c s s.sp) :
    s.iretq = { s with gpr := Function.update s.gpr .rsp (c.gpr .rsp), rip := c.rip, cs := c.cs, rflags := c.rflags, ss := c.ss } := by
  rw [Cpu.iretq, h.rip, h.cs, h.rflags, h.rsp, h.ss]
  rfl

theorem SavedAt.congr {s s' : Cpu} {p : ℕ} (h : SavedAt c s p) (hsame : ∀ a, p ≤ a → a < p + 40 → s'.mem a = s.mem a) :
    SavedAt c s' p := by
  have hload : ∀ i < 5, s'.load (p + 8 * i) = s.load (p + 8 * i) :=
    fun i hi => load_congr fun k hk => hsame _ (by omega) (by omega)
  exact ⟨(hload 0 (by decide)).trans h.rip, by rw [hload 1 (by decide), h.cs], (hload 2 (by decide)).trans h.rflags,
    (hload 3 (by decide)).trans h.rsp, by rw [hload 4 (by decide), h.ss]⟩

/-- The stub around a C function: it saves registers, calls the function, restores them and returns. -/
def stub (rs : List Reg) (back : UInt64) (f : Cpu → Cpu) : List Instr :=
  rs.map .push ++ [.call back f] ++ rs.reverse.map .pop ++ [.iretq]

section stub

variable {Own : ℕ → Prop} {rs : List Reg}

/-- How much stack an interrupt takes whose stub saves registers. -/
def depth (rs : List Reg) (f : CFunction Own) : ℕ := 64 + 8 * rs.length + f.frame

/-- A stub that saves what the function may change, and aligns the stack for it, is not seen by the code it
    interrupts: only the function's own data, the stack in front of it and the vector registers can have changed. -/
theorem run_stub (f : CFunction Own) (hsaved : ∀ r ∈ caller_saved, r ∈ rs) (hrsp : .rsp ∉ rs) (hodd : rs.length % 2 = 1)
    (sel : UInt16) (offset back : UInt64) (hroom : depth rs f ≤ c.sp)
    (hown : ∀ a, c.sp - depth rs f ≤ a → a < c.sp → ¬ Own a) :
    ∃ mem xmm cr2, run (stub rs back f.code) (c.interrupt sel offset none) = { c with mem, xmm, cr2 } ∧
      ((∀ s, (f.code s).xmm = s.xmm) → xmm = c.xmm) ∧
      ∀ a, mem a ≠ c.mem a → Own a ∨ c.sp - depth rs f ≤ a ∧ a < c.sp := by
  have hbase := base_le c
  have hlt := lt_base c
  have haligned := base_aligned c
  unfold depth at hroom hown ⊢
  obtain ⟨mem₁, hs, hsp, hframe, -, hmem₁⟩ := interrupt_spec (c := c) sel offset none (show 40 + 0 ≤ c.base by omega)
  generalize c.interrupt sel offset none = s at hs hsp hframe ⊢
  have hlen : (rs.map s.gpr).length = rs.length := List.length_map ..
  rw [Option.toList_none, List.length_nil, Nat.mul_zero, Nat.sub_zero] at hsp hmem₁
  obtain ⟨mem₂, hp, hpsp, hmem₂⟩ := pushes_spec (rs.map s.gpr) (show 8 * (rs.map s.gpr).length ≤ s.sp by omega)
  have hpops := @run_pops rs hrsp s (f.code ((s.pushes (rs.map s.gpr)).push back)) (by omega)
  have hrun : run (stub rs back f.code) s =
      (run (rs.reverse.map .pop) (f.code ((s.pushes (rs.map s.gpr)).push back))).iretq := by
    simp only [stub, run_append, run_push rs hrsp, run_cons, run_nil, exec]
  generalize s.pushes (rs.map s.gpr) = p at hp hpsp hpops hrun
  rw [hlen] at hpsp hmem₂
  have hentry : Called f.frame (p.push back) := ⟨by rw [push_sp (by omega)]; omega, by rw [push_sp (by omega)]; omega⟩
  have hreturn : (f.code (p.push back)).gpr .rsp = p.gpr .rsp := by
    rw [f.returns _ hentry, push_rsp]
    exact UInt64.sub_add_cancel _ _
  have hwrites := f.writes _ hentry
  have hsaved' := f.saved _ hentry
  have hxmm : (∀ s, (f.code s).xmm = s.xmm) → (f.code (p.push back)).xmm = c.xmm := by
    intro hkeeps
    rw [hkeeps, push_eq, hp, hs]
  rw [push_sp (by omega)] at hwrites
  generalize f.code (p.push back) = q at hpops hrun hreturn hwrites hsaved' hxmm
  have hpush : ∀ a, a < p.sp - 8 ∨ p.sp ≤ a → (p.push back).mem a = p.mem a := fun a => push_mem_of_outside (by omega)
  have hpmem : ∀ a, p.mem a = mem₂ a := fun a => congrFun (congrArg Cpu.mem hp) a
  have hsmem : ∀ a, s.mem a = mem₁ a := fun a => congrFun (congrArg Cpu.mem hs) a
  -- the stack above the call is as it was
  have hkept : ∀ a, p.sp ≤ a → a < c.sp → q.mem a = p.mem a := by
    intro a ha halt
    rw [← hpush a (.inr ha)]
    by_contra hne
    obtain hmine | hrange := hwrites a hne
    · exact hown a (by omega) halt hmine
    · omega
  have hback := hpops hreturn fun a ha halt => hkept a (by omega) (by omega)
  have hgpr : ∀ r, r ≠ .rsp → s.gpr r = c.gpr r := by
    intro r hr
    rw [hs]
    exact Function.update_of_ne hr _ _
  have hregs : Function.update (fun r => if r = .rsp then s.gpr .rsp else if r ∈ rs then s.gpr r else q.gpr r) .rsp
      (c.gpr .rsp) = c.gpr := by
    funext r
    obtain rfl | hsave | hkeep := reg_cases r
    · exact Function.update_self ..
    · have hr : r ≠ .rsp := fun heq => hrsp (heq ▸ hsaved r hsave)
      rw [Function.update_of_ne hr, if_neg hr, if_pos (hsaved r hsave), hgpr r hr]
    · have hr : r ≠ .rsp := by
        rintro rfl
        exact absurd hkeep (by decide)
      rw [Function.update_of_ne hr, if_neg hr]
      split
      · exact hgpr r hr
      · rw [hsaved' r hkeep, push_gpr hr, hp]
        exact (Function.update_of_ne hr _ _).trans (hgpr r hr)
  have hsp' : ∀ gpr : Reg → UInt64, gpr .rsp = s.gpr .rsp → ({ q with gpr } : Cpu).sp = c.base - 40 :=
    fun gpr heq => (congrArg UInt64.toNat heq).trans hsp
  rw [hrun, hback, iretq_of_savedAt (c := c)]
  · refine ⟨q.mem, q.xmm, q.cr2, congrArg (fun gpr => { c with gpr, mem := q.mem, xmm := q.xmm, cr2 := q.cr2 }) hregs,
      hxmm, fun a hne => ?_⟩
    by_contra hout
    rw [not_or] at hout
    have hstack := hout.2
    have hsame : q.mem a = (p.push back).mem a := by
      by_contra hdiff
      obtain hmine | hrange := hwrites a hdiff
      · exact hout.1 hmine
      · omega
    rw [hsame, hpush a (by omega), hpmem, hmem₂ a (by omega), hsmem] at hne
    exact hne (hmem₁ a (by omega))
  · rw [hsp' _ (if_pos rfl)]
    refine hframe.congr fun a ha halt => ?_
    change q.mem a = s.mem a
    rw [hkept a (by omega) (by omega), hpmem, hmem₂ a (.inr (by omega))]

end stub

/-- What an interrupt gate leads to: a stub, and the C function that it calls. -/
structure Isr (Own : ℕ → Prop) where
  sel : UInt16
  offset : UInt64
  back : UInt64
  saves : List Reg
  function : CFunction Own
  caller_saved : ∀ r ∈ caller_saved, r ∈ saves
  no_rsp : .rsp ∉ saves
  odd : saves.length % 2 = 1

/-- An interrupt comes in between two instructions, if interrupts are enabled. -/
def Isr.deliver {Own : ℕ → Prop} (isr : Isr Own) (c : Cpu) : Cpu :=
  if c.rflags &&& IF = 0 then c
  else run (stub isr.saves isr.back isr.function.code) (c.interrupt isr.sel isr.offset none)

/-- What the processor does next: a part of the program that runs, or an interrupt. -/
inductive Event (Own : ℕ → Prop)
  | program (f : Cpu → Cpu)
  | interrupt (isr : Isr Own)

section Transparency

variable {Own : ℕ → Prop} {bottom top : ℕ} {evs : List (Event Own)}

def step (c : Cpu) : Event Own → Cpu
  | .program f => f c
  | .interrupt isr => isr.deliver c

/-- The program without the interrupts. -/
def step_alone (c : Cpu) : Event Own → Cpu
  | .program f => f c
  | .interrupt _ => c

def run_events (c : Cpu) (evs : List (Event Own)) : Cpu := evs.foldl step c

def run_alone (c : Cpu) (evs : List (Event Own)) : Cpu := evs.foldl step_alone c

/-- Nothing differs but what belongs to the interrupts, and the part of the stack that is not in use. -/
structure Same (Own : ℕ → Prop) (bottom : ℕ) (c c' : Cpu) : Prop where
  gpr : c'.gpr = c.gpr
  xmm : c'.xmm = c.xmm
  rip : c'.rip = c.rip
  rflags : c'.rflags = c.rflags
  cs : c'.cs = c.cs
  ss : c'.ss = c.ss
  mem : ∀ a, ¬ Own a → ¬ (bottom ≤ a ∧ a < c.sp) → c'.mem a = c.mem a

/-- The program does not look at what belongs to the interrupts, nor at the stack in front of its stack pointer. -/
def Blind (Own : ℕ → Prop) (bottom : ℕ) (f : Cpu → Cpu) : Prop := ∀ c c', Same Own bottom c c' → Same Own bottom (f c) (f c')

theorem Same.refl (c : Cpu) : Same Own bottom c c := ⟨rfl, rfl, rfl, rfl, rfl, rfl, fun _ _ _ => rfl⟩

theorem Same.sp (h : Same Own bottom c c') : c'.sp = c.sp := congrArg (fun gpr => (gpr Reg.rsp).toNat) h.gpr

/-- An interrupt is not seen by the program that it comes in on. -/
theorem Same.deliver (h : Same Own bottom c c') (isr : Isr Own) (hxmm : ∀ s, (isr.function.code s).xmm = s.xmm)
    (hroom : bottom + depth isr.saves isr.function ≤ c.sp) (hown : ∀ a, bottom ≤ a → a < c.sp → ¬ Own a) :
    Same Own bottom c (isr.deliver c') := by
  have hsp := h.sp
  rw [Isr.deliver]
  split
  · exact h
  · obtain ⟨mem, xmm, cr2, heq, hkeeps, hmem⟩ := run_stub isr.function isr.caller_saved isr.no_rsp isr.odd isr.sel isr.offset
      isr.back (show depth isr.saves isr.function ≤ c'.sp by omega) fun a ha hlt => hown a (by omega) (by omega)
    rw [heq]
    refine ⟨h.gpr, (hkeeps hxmm).trans h.xmm, h.rip, h.rflags, h.cs, h.ss, fun a ha hdead => ?_⟩
    rw [← h.mem a ha hdead]
    by_contra hne
    obtain hmine | hstack := hmem a hne
    · exact ha hmine
    · exact hdead (by omega)

/-- Wherever interrupts come in, the program computes what it computes without them. -/
theorem run_events_same (hblind : ∀ f, .program f ∈ evs → Blind Own bottom f)
    (hxmm : ∀ isr, .interrupt isr ∈ evs → ∀ s, (isr.function.code s).xmm = s.xmm)
    (hroom : ∀ pre isr, pre ++ [.interrupt isr] <+: evs → bottom + depth isr.saves isr.function ≤ (run_alone c pre).sp)
    (htop : ∀ pre, pre <+: evs → (run_alone c pre).sp ≤ top) (hown : ∀ a, bottom ≤ a → a < top → ¬ Own a) :
    Same Own bottom (run_alone c evs) (run_events c evs) := by
  induction evs using List.reverseRecOn with
  | nil => exact .refl c
  | append_singleton evs e ih =>
    have hprefix : evs <+: evs ++ [e] := List.prefix_append evs [e]
    have hsame := ih (fun f hf => hblind f (List.mem_append_left _ hf)) (fun isr hisr => hxmm isr (List.mem_append_left _ hisr))
      (fun pre isr hpre => hroom pre isr (hpre.trans hprefix)) fun pre hpre => htop pre (hpre.trans hprefix)
    rw [run_alone, run_events, List.foldl_concat, List.foldl_concat]
    cases e with
    | program f => exact hblind f (by simp) _ _ hsame
    | interrupt isr =>
      exact hsame.deliver isr (hxmm isr (by simp)) (hroom evs isr List.prefix_rfl)
        fun a ha hlt => hown a ha (Nat.lt_of_lt_of_le hlt (htop evs hprefix))

end Transparency

end x86
