import OsDev.Lib.InterruptStub
import OsDev.Arch.Idt

open x86 os_dev.idt

namespace os_dev.interrupts

/-- The registers of `SAVE_REGS`, in the order in which it pushes them. -/
def saved_regs : List Reg := [.rax, .rcx, .rdx, .rdi, .rsi, .r8, .r9, .r10, .r11]

def SAVE_REGS : List Instr := saved_regs.map .push

def RESTORE_REGS : List Instr :=
  [.pop .r11, .pop .r10, .pop .r9, .pop .r8, .pop .rsi, .pop .rdi, .pop .rdx, .pop .rcx, .pop .rax]

def timer_asm_handler (back : UInt64) (timer_handler : Cpu → Cpu) : List Instr :=
  SAVE_REGS ++ [.call back timer_handler] ++ RESTORE_REGS ++ [.iretq]

def keyboard_asm_handler (back : UInt64) (keyboard_handler : Cpu → Cpu) : List Instr :=
  SAVE_REGS ++ [.call back keyboard_handler] ++ RESTORE_REGS ++ [.iretq]

/-- What the page fault stub does in front of its call. -/
def page_fault_arguments : List Instr := [.load .rdi (9 * 8), .read_cr2 .rsi]

def page_fault_asm_handler (back : UInt64) (page_fault_handler : Cpu → Cpu) : List Instr :=
  SAVE_REGS ++ page_fault_arguments ++ [.call back page_fault_handler] ++ RESTORE_REGS ++ [.add_rsp 8, .iretq]

/-- The registers of the I/O APIC. -/
abbrev Ioapic := UInt8 → UInt32

def ioapic_write (regs : Ioapic) (reg : UInt8) (val : UInt32) : Ioapic := Function.update regs reg val

/-- The keyboard goes to vector 33 and the timer, wherever it comes in, to vector 32. -/
def init_ioapic (regs : Ioapic) (timer_gsi : UInt32) : Ioapic :=
  let regs := ioapic_write regs 0x12 33
  let regs := ioapic_write regs 0x13 0
  let timer_reg_low := 0x10 + timer_gsi * 2
  let timer_reg_high := timer_reg_low + 1
  let regs := ioapic_write regs timer_reg_low.toUInt8 32
  let regs := ioapic_write regs timer_reg_high.toUInt8 0
  ioapic_write regs 0x15 0

/-- The lines that the registers have room for. -/
def LINES : ℕ := 120

/-- The vector that a line interrupts the boot processor with: its entry is not masked and has this processor as its
    destination. -/
def delivers (regs : Ioapic) (line : ℕ) : Option ℕ :=
  let low := regs (UInt8.ofNat (0x10 + 2 * line))
  let high := regs (UInt8.ofNat (0x11 + 2 * line))
  if low &&& 0x10000 = 0 ∧ high >>> 24 = 0 then some (low.toNat % 256) else none

/-- After a reset, every line is masked. -/
def Masked (regs : Ioapic) : Prop := ∀ line < LINES, regs (UInt8.ofNat (0x10 + 2 * line)) &&& 0x10000 ≠ 0

variable {regs : Ioapic} {timer_gsi : UInt32} {line : ℕ}

theorem reg_eq_iff {j k : ℕ} (hj : j < 256) (hk : k < 256) : UInt8.ofNat j = UInt8.ofNat k ↔ j = k := by
  rw [← UInt8.toNat_inj, UInt8.toNat_ofNat_of_lt' hj, UInt8.toNat_ofNat_of_lt' hk]

theorem timer_reg_low_eq (timer_gsi : UInt32) :
    (0x10 + timer_gsi * 2).toUInt8 = UInt8.ofNat ((0x10 + 2 * timer_gsi.toNat) % 256) := by
  rw [← UInt8.toNat_inj, UInt32.toNat_toUInt8, UInt32.toNat_add, UInt32.toNat_mul, UInt8.toNat_ofNat']
  simp only [UInt32.reduceToNat]
  omega

theorem timer_reg_high_eq (timer_gsi : UInt32) :
    (0x10 + timer_gsi * 2 + 1).toUInt8 = UInt8.ofNat ((0x11 + 2 * timer_gsi.toNat) % 256) := by
  rw [← UInt8.toNat_inj, UInt32.toNat_toUInt8, UInt32.toNat_add, UInt32.toNat_add, UInt32.toNat_mul, UInt8.toNat_ofNat']
  simp only [UInt32.reduceToNat]
  omega

/-- The registers once the I/O APIC is set up. -/
theorem init_ioapic_reg (regs : Ioapic) (timer_gsi : UInt32) {k : ℕ} (hk : k < 256) :
    init_ioapic regs timer_gsi (UInt8.ofNat k) =
      if k = 0x15 then 0
      else if k = (0x11 + 2 * timer_gsi.toNat) % 256 then 0
      else if k = (0x10 + 2 * timer_gsi.toNat) % 256 then 32
      else if k = 0x13 then 0
      else if k = 0x12 then 33
      else regs (UInt8.ofNat k) := by
  simp only [init_ioapic, ioapic_write, timer_reg_low_eq, timer_reg_high_eq, Function.update_apply]
  simp only [reg_eq_iff hk (Nat.mod_lt (0x11 + 2 * timer_gsi.toNat) (show 0 < 256 by decide)),
    reg_eq_iff hk (Nat.mod_lt (0x10 + 2 * timer_gsi.toNat) (show 0 < 256 by decide)),
    show (UInt8.ofNat k = 0x15) = (k = 0x15) from propext (reg_eq_iff hk (by decide)),
    show (UInt8.ofNat k = 0x13) = (k = 0x13) from propext (reg_eq_iff hk (by decide)),
    show (UInt8.ofNat k = 0x12) = (k = 0x12) from propext (reg_eq_iff hk (by decide))]

/-- The line that the timer is taken to come in on. The number of a register has eight bits. -/
def timer_line (timer_gsi : UInt32) : ℕ := timer_gsi.toNat % 128

/-- What the lines do once the I/O APIC is set up. -/
theorem delivers_init (hmasked : Masked regs) (timer_gsi : UInt32) (hline : line < LINES) :
    delivers (init_ioapic regs timer_gsi) line =
      if line = timer_line timer_gsi then some 32 else if line = 1 then some 33 else none := by
  have hlines : LINES = 120 := rfl
  have hmask := hmasked line hline
  have hmod : timer_line timer_gsi = timer_gsi.toNat % 128 := rfl
  simp only [delivers, init_ioapic_reg regs timer_gsi (show 0x10 + 2 * line < 256 by omega),
    init_ioapic_reg regs timer_gsi (show 0x11 + 2 * line < 256 by omega)]
  simp only [show ¬ 0x10 + 2 * line = 0x15 by omega,
    show ¬ 0x10 + 2 * line = (0x11 + 2 * timer_gsi.toNat) % 256 by omega, show ¬ 0x10 + 2 * line = 0x13 by omega, if_false,
    show (0x10 + 2 * line = 0x12) = (line = 1) by ext; omega,
    show (0x10 + 2 * line = (0x10 + 2 * timer_gsi.toNat) % 256) = (line = timer_line timer_gsi) by ext; omega,
    show (0x11 + 2 * line = (0x11 + 2 * timer_gsi.toNat) % 256) = (line = timer_line timer_gsi) by ext; omega,
    show (0x11 + 2 * line = 0x13) = (line = 1) by ext; omega]
  by_cases htimer : line = timer_line timer_gsi
  · simp only [htimer, if_true, ite_self]
    decide
  · by_cases hkeyboard : line = 1
    · subst hkeyboard
      simp only [htimer, if_false, if_true, show ¬ 0x11 + 2 * 1 = (0x10 + 2 * timer_gsi.toNat) % 256 by omega]
      decide
    · simp only [htimer, hkeyboard, if_false, hmask, false_and]

/-- What the interrupts work with: the tables, and the C handlers that the stubs call. -/
structure Interrupts (Own : ℕ → Prop) where
  handlers : Handlers
  idt : Idt
  regs : Ioapic
  back : UInt64
  timer_handler : CFunction Own
  keyboard_handler : CFunction Own

/-- The state after `init_idt`, whatever was in the table before. -/
def init_idt {Own : ℕ → Prop} (st : Interrupts Own) (timer_gsi : UInt32) : Interrupts Own :=
  { st with idt := idt_gates st.handlers st.idt, regs := init_ioapic st.regs timer_gsi }

section Run

variable {Own : ℕ → Prop} {st : Interrupts Own} {c c' : Cpu} {bottom top : ℕ}

/-- The stub at an address. The page fault handler restarts the machine and the dummy handler stops it. -/
def Interrupts.handle (st : Interrupts Own) (offset : ℕ) (s : Cpu) : Option Cpu :=
  if offset = st.handlers.timer_asm_handler.toNat then
    some (run (timer_asm_handler st.back st.timer_handler.code) s)
  else if offset = st.handlers.keyboard_asm_handler.toNat then
    some (run (keyboard_asm_handler st.back st.keyboard_handler.code) s)
  else none

/-- A device raises a line: from the I/O APIC through the table to the stub. While interrupts are off it has to wait. -/
def Interrupts.raise (st : Interrupts Own) (line : ℕ) (c : Cpu) : Option Cpu :=
  if c.rflags &&& IF = 0 then some c
  else
    match delivers st.regs line with
    | none => some c
    | some vector => do
      let gate ← fetch_gate (idt_bytes st.idt) idtp_limit vector
      st.handle gate.offset (c.interrupt (UInt16.ofNat gate.sel) (UInt64.ofNat gate.offset) none)

/-- Parts of a program, and lines that are raised in between. -/
inductive Event
  | program (f : Cpu → Cpu)
  | line (n : ℕ)

def Interrupts.step (st : Interrupts Own) (c : Cpu) : Event → Option Cpu
  | .program f => some (f c)
  | .line n => st.raise n c

def Interrupts.run (st : Interrupts Own) (c : Cpu) (evs : List Event) : Option Cpu := evs.foldlM st.step c

/-- The program when no line is raised. -/
def alone (c : Cpu) (evs : List Event) : Cpu :=
  evs.foldl (fun c e => match e with
    | .program f => f c
    | .line _ => c) c

/-- The stack that an interrupt may take. -/
def Interrupts.room (st : Interrupts Own) : ℕ := 136 + max st.timer_handler.frame st.keyboard_handler.frame

/-- The program does not look at what the interrupts use, its stack has room for one of them, and the handlers leave the
    vector registers alone, which the stubs do not save. -/
structure Undisturbed (st : Interrupts Own) (bottom top : ℕ) (c : Cpu) (evs : List Event) : Prop where
  blind : ∀ f, .program f ∈ evs → Blind Own bottom f
  lines : ∀ n, .line n ∈ evs → n < LINES
  stack : ∀ pre, pre <+: evs → bottom + st.room ≤ (alone c pre).sp ∧ (alone c pre).sp ≤ top
  own : ∀ a, bottom ≤ a → a < top → ¬ Own a
  timer_xmm : ∀ s, (st.timer_handler.code s).xmm = s.xmm
  keyboard_xmm : ∀ s, (st.keyboard_handler.code s).xmm = s.xmm

/-- The service routine of a C handler. -/
def Interrupts.isr (st : Interrupts Own) (offset : UInt64) (function : CFunction Own) : Isr Own where
  sel := 0x08
  offset := offset
  back := st.back
  saves := saved_regs
  function := function
  caller_saved := by decide
  no_rsp := by decide
  odd := rfl

theorem keyboard_ne_timer (handlers : Handlers) :
    handlers.keyboard_asm_handler.toNat ≠ handlers.timer_asm_handler.toNat := by
  have hdistinct := handlers.distinct
  simp only [List.nodup_cons, List.mem_cons, not_or] at hdistinct
  exact fun heq => hdistinct.2.1.1 (UInt64.toNat_inj.mp heq).symm

/-- The stubs are those around their C handlers. -/
theorem handle_eq (st : Interrupts Own) {offset : UInt64} {function : CFunction Own}
    (h : offset = st.handlers.timer_asm_handler ∧ function = st.timer_handler ∨
      offset = st.handlers.keyboard_asm_handler ∧ function = st.keyboard_handler) (hif : c.rflags &&& IF ≠ 0) :
    st.handle offset.toNat (c.interrupt 0x08 (UInt64.ofNat offset.toNat) none) = some ((st.isr offset function).deliver c) := by
  rw [UInt64.ofNat_toNat, Isr.deliver, if_neg hif, Interrupts.handle]
  obtain ⟨rfl, rfl⟩ | ⟨rfl, rfl⟩ := h
  · rw [if_pos rfl]
    rfl
  · rw [if_neg (keyboard_ne_timer st.handlers), if_pos rfl]
    rfl

/-- Each line gets to its handler. -/
theorem raise_init (hmasked : Masked st.regs)
    (hline : line < LINES) (c : Cpu) : (init_idt st timer_gsi).raise line c =
      some (if line = timer_line timer_gsi then (st.isr st.handlers.timer_asm_handler st.timer_handler).deliver c
        else if line = 1 then (st.isr st.handlers.keyboard_asm_handler st.keyboard_handler).deliver c
        else c) := by
  have hdelivers : delivers (init_idt st timer_gsi).regs line = _ := delivers_init hmasked timer_gsi hline
  have hgate : ∀ vector : UInt8, fetch_gate (idt_bytes (init_idt st timer_gsi).idt) idtp_limit vector.toNat = _ :=
    fetch_gate_eq st.handlers st.idt
  rw [Interrupts.raise, hdelivers]
  by_cases hif : c.rflags &&& IF = 0
  · simp only [hif, if_true, Isr.deliver, ite_self]
  · rw [if_neg hif]
    by_cases htimer : line = timer_line timer_gsi
    · have hvector : fetch_gate (idt_bytes (init_idt st timer_gsi).idt) idtp_limit 32 = _ := hgate 32
      simp only [htimer, if_true, hvector]
      exact handle_eq (init_idt st timer_gsi) (.inl ⟨rfl, rfl⟩) hif
    · by_cases hkeyboard : line = 1
      · have hvector : fetch_gate (idt_bytes (init_idt st timer_gsi).idt) idtp_limit 33 = _ := hgate 33
        rw [hkeyboard] at htimer
        simp only [hkeyboard, if_true, htimer, if_false, hvector]
        exact handle_eq (init_idt st timer_gsi) (.inr ⟨rfl, rfl⟩) hif
      · simp only [htimer, hkeyboard, if_false]

/-- What a line comes to. A line that is masked does nothing. -/
def Interrupts.lift (st : Interrupts Own) (timer_gsi : UInt32) : Event → x86.Event Own
  | .program f => .program f
  | .line n =>
    if n = timer_line timer_gsi then .interrupt (st.isr st.handlers.timer_asm_handler st.timer_handler)
    else if n = 1 then .interrupt (st.isr st.handlers.keyboard_asm_handler st.keyboard_handler)
    else .program id

theorem step_lift (hmasked : Masked st.regs) (timer_gsi : UInt32) (c : Cpu)
    {e : Event} (hline : ∀ n, e = .line n → n < LINES) :
    (init_idt st timer_gsi).step c e = some (x86.step c (st.lift timer_gsi e)) := by
  cases e with
  | program f => rfl
  | line n =>
    rw [Interrupts.step, raise_init hmasked (hline n rfl), Interrupts.lift]
    split_ifs <;> rfl

theorem run_lift (hmasked : Masked st.regs) (timer_gsi : UInt32) {evs : List Event}
    (hlines : ∀ n, .line n ∈ evs → n < LINES) (c : Cpu) :
    (init_idt st timer_gsi).run c evs = some (run_events c (evs.map (st.lift timer_gsi))) := by
  induction evs generalizing c with
  | nil => rfl
  | cons e evs ih =>
    have hstep := step_lift hmasked timer_gsi c fun n hn => hlines n (hn ▸ List.mem_cons_self)
    rw [Interrupts.run, List.foldlM_cons, hstep]
    exact ih (fun n hn => hlines n (List.mem_cons_of_mem e hn)) _

theorem alone_lift (st : Interrupts Own) (timer_gsi : UInt32) (c : Cpu) (evs : List Event) :
    run_alone c (evs.map (st.lift timer_gsi)) = alone c evs := by
  induction evs generalizing c with
  | nil => rfl
  | cons e evs ih =>
    rw [List.map_cons, run_alone, List.foldl_cons, alone, List.foldl_cons]
    have hsame : step_alone c (st.lift timer_gsi e) = match e with
        | .program f => f c
        | .line _ => c := by
      cases e with
      | program f => rfl
      | line n =>
        rw [Interrupts.lift]
        split_ifs <;> rfl
    rw [hsame]
    exact ih _

theorem isr_room (st : Interrupts Own) (timer_gsi : UInt32) {e : Event} {isr : Isr Own}
    (h : st.lift timer_gsi e = .interrupt isr) : depth isr.saves isr.function ≤ st.room ∧
      (isr.function = st.timer_handler ∨ isr.function = st.keyboard_handler) := by
  have hlen : saved_regs.length = 9 := rfl
  cases e with
  | program f => cases h
  | line n =>
    rw [Interrupts.lift] at h
    split_ifs at h
    · cases h
      refine ⟨?_, .inl rfl⟩
      simp only [depth, Interrupts.isr, Interrupts.room, hlen]
      omega
    · cases h
      refine ⟨?_, .inr rfl⟩
      simp only [depth, Interrupts.isr, Interrupts.room, hlen]
      omega

/-- After `init_idt`, wherever the timer, the keyboard or any other line comes in on a program, the processor goes on,
    and the program computes what it computes undisturbed. -/
theorem interrupts_invisible (st : Interrupts Own) (timer_gsi : UInt32) (c : Cpu) (evs : List Event) (hmasked : Masked st.regs) (h : Undisturbed st bottom top c evs) :
    ∃ c', (init_idt st timer_gsi).run c evs = some c' ∧ Same Own bottom (alone c evs) c' := by
  refine ⟨_, run_lift hmasked timer_gsi h.lines c, ?_⟩
  rw [← alone_lift st timer_gsi]
  refine run_events_same (fun f hf => ?_) (fun isr hisr => ?_) (fun pre isr hpre => ?_) (fun pre hpre => ?_) h.own
  · obtain ⟨e, he, hlift⟩ := List.mem_map.mp hf
    cases e with
    | program g =>
      cases hlift
      exact h.blind f he
    | line n =>
      rw [Interrupts.lift] at hlift
      split_ifs at hlift
      cases hlift
      exact fun _ _ hsame => hsame
  · obtain ⟨e, -, hlift⟩ := List.mem_map.mp hisr
    obtain hfunction | hfunction := (isr_room st timer_gsi hlift).2
    · exact hfunction ▸ h.timer_xmm
    · exact hfunction ▸ h.keyboard_xmm
  · obtain ⟨pre', hpre', hmap⟩ := List.prefix_map_iff.mp hpre
    obtain ⟨before, last, rfl, rfl, hlast⟩ := List.map_eq_append_iff.mp hmap.symm
    obtain ⟨e, rfl, hlift⟩ := List.map_eq_singleton_iff.mp hlast
    have hdepth := (isr_room st timer_gsi hlift).1
    have hstack := (h.stack before ((List.prefix_append before [e]).trans hpre')).1
    rw [alone_lift]
    omega
  · obtain ⟨pre', hpre', rfl⟩ := List.prefix_map_iff.mp hpre
    rw [alone_lift]
    exact (h.stack pre' hpre').2

end Run

/-- From the gate of a page fault to its C handler: the arguments are the error code and the address, and below them
    stands where the fault was. The error code makes the stack odd, and the stub does not even it out. -/
theorem page_fault_entry (c : Cpu) (sel : UInt16) (offset code back : UInt64) (page_fault_handler : Cpu → Cpu)
    (hroom : 128 ≤ c.base) : ∃ entry,
      run (SAVE_REGS ++ page_fault_arguments ++ [.call back page_fault_handler]) (c.interrupt sel offset (some code)) =
        page_fault_handler entry ∧
      entry.gpr .rdi = code ∧ entry.gpr .rsi = c.cr2 ∧ entry.load entry.sp = back ∧ SavedAt c entry (c.base - 40) ∧
      entry.sp = c.base - 128 := by
  obtain ⟨mem₁, hs, hsp, hframe, hcode, -⟩ := interrupt_spec (c := c) sel offset (some code) (show 40 + 8 ≤ c.base by omega)
  replace hsp : (c.interrupt sel offset (some code)).sp = c.base - 48 := hsp.trans (by
    rw [Option.toList_some, List.length_singleton]
    omega)
  replace hcode := hcode code rfl
  generalize c.interrupt sel offset (some code) = s at hs hsp hframe hcode ⊢
  have hlen : (saved_regs.map s.gpr).length = 9 := rfl
  obtain ⟨mem₂, hp, hpsp, hmem₂⟩ := pushes_spec (saved_regs.map s.gpr) (show 8 * (saved_regs.map s.gpr).length ≤ s.sp by omega)
  have hsave : run SAVE_REGS s = s.pushes (saved_regs.map s.gpr) := run_push saved_regs (by decide) s
  rw [run_append, run_append, hsave]
  generalize s.pushes (saved_regs.map s.gpr) = p at hp hpsp
  have hpmem : ∀ a, s.sp ≤ a → p.mem a = s.mem a := fun a ha =>
    (congrFun (congrArg Cpu.mem hp) a).trans (hmem₂ a (.inr ha))
  have hpcode : p.load (p.sp + 72) = code := by
    rw [← hcode, show p.sp + 72 = c.base - 48 by omega]
    exact load_congr fun k _ => hpmem _ (by omega)
  have hcr2 : p.cr2 = c.cr2 := by rw [hp, hs]
  have hargs : run page_fault_arguments p = (p.set .rdi code).set .rsi c.cr2 := by
    simp only [page_fault_arguments, run_cons, run_nil, exec, Nat.reduceMul, hpcode, Cpu.set, hcr2]
  rw [hargs]
  generalize hq : (p.set .rdi code).set .rsi c.cr2 = q
  have hqsp : q.sp = p.sp := by
    rw [← hq, Cpu.sp, set_other (by decide), set_other (by decide), Cpu.sp]
  have hqmem : q.mem = p.mem := by rw [← hq, set_mem, set_mem]
  have hentry := push_sp (c := q) (v := back) (by omega)
  refine ⟨q.push back, rfl, ?_, ?_, ?_, hframe.congr fun a ha _ => ?_, by omega⟩
  · rw [push_gpr (by decide), ← hq, set_other (by decide), set_same]
  · rw [push_gpr (by decide), ← hq, set_same]
  · rw [hentry]
    exact load_push (by omega)
  · rw [push_mem_of_outside (by omega) (by omega), hqmem]
    exact hpmem a (by omega)

/-- From the gate of a line to its C handler. -/
theorem line_entry (c : Cpu) (sel : UInt16) (offset back : UInt64) (handler : Cpu → Cpu) (hroom : 120 ≤ c.base) : ∃ entry,
    run (SAVE_REGS ++ [.call back handler]) (c.interrupt sel offset none) = handler entry ∧
      SavedAt c entry (c.base - 40) ∧ entry.sp = c.base - 120 := by
  obtain ⟨mem₁, hs, hsp, hframe, -, -⟩ := interrupt_spec (c := c) sel offset none (show 40 + 0 ≤ c.base by omega)
  replace hsp : (c.interrupt sel offset none).sp = c.base - 40 := hsp
  generalize c.interrupt sel offset none = s at hs hsp hframe ⊢
  have hlen : (saved_regs.map s.gpr).length = 9 := rfl
  have hroom' : 8 * (saved_regs.map s.gpr).length ≤ s.sp := by omega
  obtain ⟨mem₂, -, hpsp, -⟩ := pushes_spec _ hroom'
  have hsave : run SAVE_REGS s = s.pushes (saved_regs.map s.gpr) := run_push saved_regs (by decide) s
  have hentry := push_sp (c := s.pushes (saved_regs.map s.gpr)) (v := back) (by omega)
  rw [run_append, hsave]
  refine ⟨_, rfl, hframe.congr fun a ha _ => ?_, by omega⟩
  rw [push_mem_of_outside (by omega) (by omega)]
  exact pushes_mem _ hroom' (by omega)

/-- The C handlers of the lines are entered the way a C function expects it, whatever the stack was, and the page fault
    handler never is, although it gets its arguments. -/
theorem stubs_align (c : Cpu) (sel : UInt16) (offset code back : UInt64) (handler : Cpu → Cpu) (hroom : 128 ≤ c.base) :
    (∃ entry, run (SAVE_REGS ++ [.call back handler]) (c.interrupt sel offset none) = handler entry ∧ Called 0 entry ∧
      SavedAt c entry (c.base - 40)) ∧
    ∃ entry, run (SAVE_REGS ++ page_fault_arguments ++ [.call back handler]) (c.interrupt sel offset (some code)) =
        handler entry ∧ ¬ Called 0 entry ∧ SavedAt c entry (c.base - 40) ∧
      entry.gpr .rdi = code ∧ entry.gpr .rsi = c.cr2 ∧ entry.load entry.sp = back := by
  have haligned := base_aligned c
  obtain ⟨entry, hrun, hsaved, hsp⟩ := line_entry c sel offset back handler (by omega)
  obtain ⟨entry', hrun', hrdi, hrsi, hback, hsaved', hsp'⟩ := page_fault_entry c sel offset code back handler hroom
  refine ⟨⟨entry, hrun, ⟨by omega, Nat.zero_le _⟩, hsaved⟩, entry', hrun', fun h => ?_, hsaved', hrdi, hrsi, hback⟩
  have heven := h.aligned
  omega

/-- The processor with interrupts enabled. -/
def running : Cpu where
  gpr := fun r => if r = .rsp then 0x9000 else 0
  xmm := fun _ => 0
  rip := 0x102000
  rflags := 0x202
  cs := 0x08
  ss := 0x10
  cr2 := 0
  mem := fun _ => 0

theorem stubs_align_running :
    (∃ entry, run (SAVE_REGS ++ [.call 0x101220 id]) (running.interrupt 0x08 0x101100 none) = id entry ∧ Called 0 entry ∧
      SavedAt running entry (running.base - 40)) ∧
    ∃ entry, run (SAVE_REGS ++ page_fault_arguments ++ [.call 0x101220 id]) (running.interrupt 0x08 0x101100 (some 2)) =
        id entry ∧ ¬ Called 0 entry ∧ SavedAt running entry (running.base - 40) ∧
      entry.gpr .rdi = 2 ∧ entry.gpr .rsi = running.cr2 ∧ entry.load entry.sp = 0x101220 :=
  stubs_align running 0x08 0x101100 2 0x101220 id (by decide)

/-- A handler that counts in one byte. -/
def counting_handler (cell : ℕ) : CFunction (· < 16) where
  code := fun c =>
    { c.set .rsp (c.gpr .rsp + 8) with mem := Function.update c.mem (cell % 16) (c.mem (cell % 16) + 1) }
  frame := 0
  returns := fun c _ => set_same c .rsp _
  saved := fun c _ r hr => set_other (by rintro rfl; exact absurd hr (by decide))
  writes := fun c _ a hne => by
    by_cases ha : a = cell % 16
    · exact .inl (ha ▸ Nat.mod_lt _ (by decide))
    · exact absurd (Function.update_of_ne ha _ _) hne

/-- The interrupts with two such handlers. -/
def counting_interrupts : Interrupts (· < 16) where
  handlers := ⟨0x101000, 0x101100, 0x101200, 0x101300, by decide⟩
  idt := fun _ => ⟨0, 0, 0, 0, 0, 0, 0⟩
  regs := fun _ => 0x10000
  back := 0x101220
  timer_handler := counting_handler 0
  keyboard_handler := counting_handler 1

theorem counting_masked : Masked counting_interrupts.regs := fun _ _ => show (0x10000 : UInt32) &&& 0x10000 ≠ 0 by decide

/-- A program that adds one to `rax`. -/
def add_one (c : Cpu) : Cpu := c.set .rax (c.gpr .rax + 1)

theorem add_one_blind (Own : ℕ → Prop) (bottom : ℕ) : Blind Own bottom add_one := by
  intro c c' h
  have hgpr : (add_one c').gpr = (add_one c).gpr := by
    simp only [add_one, Cpu.set, h.gpr]
  refine ⟨hgpr, h.xmm, h.rip, h.rflags, h.cs, h.ss, fun a ha hdead => ?_⟩
  refine h.mem a ha fun hstack => hdead ?_
  rwa [Cpu.sp, add_one, set_other (by decide)]

theorem alone_add_one_sp {evs : List Event} (h : ∀ f, .program f ∈ evs → f = add_one) (c : Cpu) :
    (alone c evs).sp = c.sp := by
  induction evs generalizing c with
  | nil => rfl
  | cons e evs ih =>
    rw [alone, List.foldl_cons]
    refine (ih (fun f hf => h f (List.mem_cons_of_mem e hf)) _).trans ?_
    cases e with
    | program f =>
      obtain rfl := h f List.mem_cons_self
      rw [Cpu.sp, Cpu.sp, show (add_one c).gpr .rsp = c.gpr .rsp from set_other (by decide)]
    | line n => rfl

def interrupted_run : List Event := [.program add_one, .line 2, .program add_one, .line 1]

theorem interrupted_run_undisturbed : Undisturbed counting_interrupts 0x1000 0xA000 running interrupted_run where
  blind := fun f hf => by
    obtain rfl : f = add_one := by simpa [interrupted_run] using hf
    exact add_one_blind _ _
  lines := fun n hn => by
    obtain rfl | rfl : n = 2 ∨ n = 1 := by simpa [interrupted_run] using hn
    all_goals decide
  stack := fun pre hpre => by
    rw [alone_add_one_sp fun f hf => by simpa [interrupted_run] using hpre.subset hf]
    decide
  own := fun a ha _ hlt => by omega
  timer_xmm := fun _ => rfl
  keyboard_xmm := fun _ => rfl

theorem interrupts_invisible_counting : ∃ c', (init_idt counting_interrupts 2).run running interrupted_run = some c' ∧
    Same (· < 16) 0x1000 (alone running interrupted_run) c' :=
  interrupts_invisible counting_interrupts 2 running interrupted_run
    counting_masked interrupted_run_undisturbed

end os_dev.interrupts
