import Mathlib.Logic.Function.Iterate
import OsDev.Drivers.Pci

open os_dev.libc os_dev.pci

namespace os_dev.net

/-- The static variables of the drivers for network cards. `bring_ups` has the register addresses with which
    `rtl8169_init` has gone on to set up a card. -/
structure Nics where
  screen : CStr
  rtl_initialized : Bool
  mmio_base : UInt64
  bring_ups : List UInt64
  qemu_initialized : Bool

def print_string (st : Host Nics) (s : CStr) : Host Nics :=
  { st with kernel := { st.kernel with screen := st.kernel.screen ++ s } }

/-- The loop over the base address registers of a card, from `bar_off` on: the first memory address that is not zero. -/
def find_mmio (l : Location) : ℕ → ℕ → Host Nics → UInt64 × Host Nics
  | 0, _, st => (0, st)
  | n + 1, bar_off, st =>
    if 0x24 < bar_off then (0, st)
    else
      let bar := st.read l (UInt8.ofNat bar_off)
      if bar.1 = 0 ∨ bar.1 = 0xFFFFFFFF then find_mmio l n (bar_off + 4) bar.2
      else if bar.1 &&& 0x01 ≠ 0 then find_mmio l n (bar_off + 4) bar.2
      else
        let base := (bar.1 &&& 0xFFFFFFF0).toUInt64
        if bar.1 >>> 1 &&& 0x3 = 0x2 then
          let bar_high := bar.2.read l (UInt8.ofNat (bar_off + 4))
          let base := base ||| bar_high.1.toUInt64 <<< 32
          if base ≠ 0 then (base, bar_high.2) else find_mmio l n (bar_off + 8) bar_high.2
        else if base ≠ 0 then (base, bar.2) else find_mmio l n (bar_off + 4) bar.2

/-- Let the card answer on the memory bus and use it. -/
def enable_card (l : Location) (st : Host Nics) : Host Nics :=
  let pci_cmd := st.read l 0x04
  if pci_cmd.1 &&& 0x0006 ≠ 0x0006 then
    (print_string pci_cmd.2 (ascii "RTL8169: Enabling PCI Memory Space + Bus Mastering...\n")).write l 0x04 (pci_cmd.1 ||| 0x0006)
  else pci_cmd.2

/-- `rtl8169_init` up to the address of the card's registers. -/
def rtl8169_init (l : Location) (st : Host Nics) : Host Nics :=
  if st.kernel.rtl_initialized then
    print_string st (ascii "RTL8169: Already initialized. Skipping to avoid lwIP crashes.\n")
  else
    let st := { st with kernel := { st.kernel with rtl_initialized := true } }
    let st := print_string st (ascii "RTL8169: Initializing hardware...\n")
    let st := enable_card l st
    let mmio_phys := find_mmio l 6 0x10 st
    let st := { mmio_phys.2 with kernel := { mmio_phys.2.kernel with mmio_base := mmio_phys.1 } }
    let st := print_string st (ascii "RTL8169: MMIO mapped at 0x" ++ hex 8 mmio_phys.1.toUInt32 ++ ascii "\n")
    if mmio_phys.1 = 0 then print_string st (ascii "RTL8169: FATAL - No MMIO BAR found! NIC unusable.\n")
    else { st with kernel := { st.kernel with bring_ups := st.kernel.bring_ups ++ [mmio_phys.1] } }

def qemu_net_init (st : Host Nics) : Host Nics :=
  if st.kernel.qemu_initialized then
    print_string st (ascii "QEMU E1000: Already initialized. Skipping to avoid lwIP crashes.\n")
  else
    let st := { st with kernel := { st.kernel with qemu_initialized := true } }
    print_string (print_string st (ascii "QEMU E1000: Found Virtual NIC. Initializing lwIP Mock Bridge...\n"))
      (ascii "QEMU E1000: lwIP Bound to Mock Hardware! DHCP Discovery in progress...\n")

/-- The identifications that the scan starts a driver for. -/
def is_realtek (id : UInt32) : Prop := vendor_id id = 0x10EC ∧ (device_id id = 0x8168 ∨ device_id id = 0x8169)

instance (id : UInt32) : Decidable (is_realtek id) := inferInstanceAs (Decidable (_ ∧ _))

def is_e1000 (id : UInt32) : Prop := vendor_id id = 0x8086 ∧ device_id id = 0x100E

instance (id : UInt32) : Decidable (is_e1000 id) := inferInstanceAs (Decidable (_ ∧ _))

def start_driver (l : Location) (id : UInt32) (st : Host Nics) : Host Nics :=
  if is_realtek id then
    rtl8169_init l (print_string st (ascii "\nPCI: Realtek 8168/8169 Ethernet matched. Bootstrapping...\n"))
  else if is_e1000 id then
    qemu_net_init (print_string st (ascii "\nPCI: Intel E1000 matched. Loading QEMU Virtual Net...\n"))
  else st

def visit_network (l : Location) (id cls : UInt32) (st : Host Nics) : Host Nics :=
  if class_code cls = 0x02 then
    let st := print_string st (found (ascii "Network Controller") l id)
    let st :=
      if subclass cls = 0x00 then start_driver l id (print_string st (ascii " Ethernet"))
      else if subclass cls = 0x80 then print_string st (ascii " Wi-Fi / Other")
      else print_string st (ascii " Unknown Network")
    print_string st (ascii "\n")
  else st

def pci_scan_network (st : Host Nics) : Host Nics :=
  scan visit_network (print_string st (ascii "PCI: Scanning for Network Controllers...\n"))

/-- The addresses that a card's registers have in memory, from register `i` on. A wide one takes two registers. -/
def memory_bars (regs : ℕ → UInt32) : ℕ → ℕ → List UInt64
  | 0, _ => []
  | n + 1, i =>
    if 9 < i then []
    else if regs i = 0 ∨ regs i = 0xFFFFFFFF then memory_bars regs n (i + 1)
    else if regs i &&& 0x01 ≠ 0 then memory_bars regs n (i + 1)
    else if regs i >>> 1 &&& 0x3 = 0x2 then
      ((regs i &&& 0xFFFFFFF0).toUInt64 ||| (regs (i + 1)).toUInt64 <<< 32) :: memory_bars regs n (i + 2)
    else (regs i &&& 0xFFFFFFF0).toUInt64 :: memory_bars regs n (i + 1)

/-- Where the registers of a card are, or zero. -/
def mmio_of (regs : ℕ → UInt32) : UInt64 := ((memory_bars regs 6 4).find? (· ≠ 0)).getD 0

/-- The card may use the memory bus, and nothing else differs. -/
def enabled (c : Config) (l : Location) : Config := c.set l 1 (c l 1 ||| 0x0006)

def Realtek (c : Config) (l : Location) : Prop := class_code (c l 2) = 0x02 ∧ subclass (c l 2) = 0x00 ∧ is_realtek (c l 0)

instance (c : Config) (l : Location) : Decidable (Realtek c l) := inferInstanceAs (Decidable (_ ∧ _))

def E1000 (c : Config) (l : Location) : Prop := class_code (c l 2) = 0x02 ∧ subclass (c l 2) = 0x00 ∧ is_e1000 (c l 0)

instance (c : Config) (l : Location) : Decidable (E1000 c l) := inferInstanceAs (Decidable (_ ∧ _))

/-- The first card that `rtl8169_init` is called for. -/
def first_card (c : Config) (seen : List Location) : Option Location := seen.find? fun l => Realtek c l

/-- What a scan makes of the drivers once it has seen these functions: that of the first card is started, and no other's. -/
structure Started (c : Config) (seen : List Location) (st : Host Nics) : Prop where
  config : st.bridge.config = ((first_card c seen).map (enabled c)).getD c
  rtl_initialized : st.kernel.rtl_initialized = (first_card c seen).isSome
  mmio_base : st.kernel.mmio_base = ((first_card c seen).map fun l => mmio_of (c l)).getD 0
  bring_ups : st.kernel.bring_ups = ((first_card c seen).map fun l => mmio_of (c l)).toList.filter (· ≠ 0)
  qemu_initialized : st.kernel.qemu_initialized = seen.any fun l => E1000 c l

/-- Before the first scan no driver has been started. -/
structure Fresh (st : Host Nics) : Prop where
  rtl_initialized : st.kernel.rtl_initialized = false
  mmio_base : st.kernel.mmio_base = 0
  bring_ups : st.kernel.bring_ups = []
  qemu_initialized : st.kernel.qemu_initialized = false

/-- Everything but the screen. -/
def Nics.quiet (k : Nics) : Nics := { k with screen := [] }

variable {c : Config} {seen : List Location} {l : Location} {st st' : Host Nics}

theorem enabled_other (c : Config) (l l' : Location) {i : ℕ} (hi : i ≠ 1) : enabled c l l' i = c l' i :=
  if_neg fun h => hi h.2

theorem or_eq_of_and_eq {x m : UInt32} (h : x &&& m = m) : x ||| m = x := by
  rw [← h]
  apply UInt32.toNat_inj.mp
  apply Nat.eq_of_testBit_eq
  intro i
  simp only [UInt32.toNat_or, UInt32.toNat_and, Nat.testBit_or, Nat.testBit_and]
  cases x.toNat.testBit i <;> simp

theorem enable_card_eq (hvalid : l.Valid) (st : Host Nics) : (enable_card l st).bridge.config = enabled st.bridge.config l ∧
    (enable_card l st).kernel.quiet = st.kernel.quiet := by
  have hreg : (0x04 : UInt8).toNat / 4 = 1 := rfl
  rw [enable_card, Host.read_eq st hvalid, hreg]
  dsimp only
  split
  · exact ⟨Host.write_config _ hvalid 0x04 _, rfl⟩
  · rename_i hset
    refine ⟨?_, rfl⟩
    funext l' i
    rw [readdress_config, enabled, Config.set, or_eq_of_and_eq (not_not.mp hset)]
    split
    · rename_i hplace
      rw [hplace.1, hplace.2]
    · rfl

theorem memory_bars_congr {regs regs' : ℕ → UInt32} (h : ∀ j, 4 ≤ j → regs' j = regs j) {n i : ℕ} (hi : 4 ≤ i) :
    memory_bars regs' n i = memory_bars regs n i := by
  induction n generalizing i with
  | zero => rfl
  | succ n ih =>
    simp only [memory_bars, h i hi, h (i + 1) (by omega), ih (show 4 ≤ i + 1 by omega), ih (show 4 ≤ i + 2 by omega)]

theorem first_of_ne_zero {base : UInt64} {rest : List UInt64} (h : base ≠ 0) :
    ((base :: rest).find? (· ≠ 0)).getD 0 = base := by
  simp [h]

theorem first_of_zero {base : UInt64} {rest : List UInt64} (h : ¬ base ≠ 0) :
    ((base :: rest).find? (· ≠ 0)).getD 0 = (rest.find? (· ≠ 0)).getD 0 := by
  simp [not_not.mp h]

/-- The loop gives the first memory address of the card that is not zero. -/
theorem find_mmio_eq (hvalid : l.Valid) (n i : ℕ) (st : Host Nics) : ∃ address, find_mmio l n (4 * i) st =
    (((memory_bars (st.bridge.config l) n i).find? (· ≠ 0)).getD 0, st.readdress address) := by
  induction n generalizing i st with
  | zero => exact ⟨st.bridge.address, rfl⟩
  | succ n ih =>
    rw [find_mmio, memory_bars]
    by_cases hend : 9 < i
    · rw [if_pos (show 0x24 < 4 * i by omega), if_pos hend]
      exact ⟨st.bridge.address, rfl⟩
    have hread : ∀ (st : Host Nics) (j : ℕ), j ≤ 10 → st.read l (UInt8.ofNat (4 * j)) =
        (st.bridge.config l j, st.readdress (config_address l (UInt8.ofNat (4 * j)))) := fun st j hj => by
      rw [Host.read_eq st hvalid, UInt8.toNat_ofNat_of_lt' (show 4 * j < 256 by omega), Nat.mul_div_cancel_left j (by decide)]
    have hnext : ∀ (k : ℕ) (a : UInt32), ∃ address, find_mmio l n (4 * (i + k)) (st.readdress a) =
        (((memory_bars (st.bridge.config l) n (i + k)).find? (· ≠ 0)).getD 0, st.readdress address) :=
      fun k a => ih (i + k) (st.readdress a)
    rw [if_neg (show ¬ 0x24 < 4 * i by omega), if_neg hend, hread st i (by omega)]
    dsimp +instances only
    by_cases hskip : st.bridge.config l i = 0 ∨ st.bridge.config l i = 0xFFFFFFFF
    · rw [if_pos hskip, if_pos hskip]
      exact hnext 1 _
    by_cases hport : st.bridge.config l i &&& 0x01 ≠ 0
    · rw [if_neg hskip, if_neg hskip, if_pos hport, if_pos hport]
      exact hnext 1 _
    rw [if_neg hskip, if_neg hskip, if_neg hport, if_neg hport]
    by_cases hwide : st.bridge.config l i >>> 1 &&& 0x3 = 0x2
    · have hhigh := hread (st.readdress (config_address l (UInt8.ofNat (4 * i)))) (i + 1) (by omega)
      rw [Nat.mul_succ] at hhigh
      rw [if_pos hwide, if_pos hwide, hhigh]
      dsimp +instances only [readdress_config]
      by_cases hbase : (st.bridge.config l i &&& 0xFFFFFFF0).toUInt64 ||| (st.bridge.config l (i + 1)).toUInt64 <<< 32 ≠ 0
      · rw [if_pos hbase, first_of_ne_zero hbase]
        exact ⟨_, rfl⟩
      · rw [if_neg hbase, first_of_zero hbase]
        exact hnext 2 _
    · rw [if_neg hwide, if_neg hwide]
      by_cases hbase : (st.bridge.config l i &&& 0xFFFFFFF0).toUInt64 ≠ 0
      · rw [if_pos hbase, first_of_ne_zero hbase]
        exact ⟨_, rfl⟩
      · rw [if_neg hbase, first_of_zero hbase]
        exact hnext 1 _

theorem rtl8169_init_first (hvalid : l.Valid) (h : st.kernel.rtl_initialized = false) :
    (rtl8169_init l st).bridge.config = enabled st.bridge.config l ∧ (rtl8169_init l st).kernel.quiet =
      { st.kernel.quiet with
        rtl_initialized := true
        mmio_base := mmio_of (st.bridge.config l)
        bring_ups := st.kernel.bring_ups ++ [mmio_of (st.bridge.config l)].filter (· ≠ 0) } := by
  rw [rtl8169_init, if_neg (by rw [h]; exact Bool.false_ne_true)]
  dsimp only
  generalize hst : enable_card l _ = st₁
  have henable := enable_card_eq hvalid (print_string { st with kernel := { st.kernel with rtl_initialized := true } }
    (ascii "RTL8169: Initializing hardware...\n"))
  rw [hst] at henable
  obtain ⟨hconfig, hkernel⟩ := henable
  have hbars : memory_bars (st₁.bridge.config l) 6 4 = memory_bars (st.bridge.config l) 6 4 :=
    memory_bars_congr (fun j hj => by rw [hconfig]; exact enabled_other _ l l (by omega)) (le_refl 4)
  obtain ⟨a, hmmio⟩ := find_mmio_eq hvalid 6 4 st₁
  have hmmio : find_mmio l 6 0x10 st₁ = (mmio_of (st.bridge.config l), st₁.readdress a) := by
    rw [mmio_of, ← hbars, ← hmmio]
  have hbring : st₁.kernel.bring_ups = st.kernel.bring_ups := (congrArg Nics.bring_ups hkernel :)
  have hqemu : st₁.kernel.qemu_initialized = st.kernel.qemu_initialized := (congrArg Nics.qemu_initialized hkernel :)
  have hrtl : st₁.kernel.rtl_initialized = true := (congrArg Nics.rtl_initialized hkernel :)
  rw [hmmio]
  dsimp only
  split
  · rename_i hzero
    refine ⟨hconfig, ?_⟩
    simp [Nics.quiet, print_string, hzero, hbring, hqemu, hrtl]
  · rename_i hfound
    refine ⟨hconfig, ?_⟩
    simp [Nics.quiet, print_string, hfound, hbring, hqemu, hrtl]

theorem rtl8169_init_again (h : st.kernel.rtl_initialized = true) :
    (rtl8169_init l st).bridge.config = st.bridge.config ∧ (rtl8169_init l st).kernel.quiet = st.kernel.quiet := by
  rw [rtl8169_init, if_pos h]
  exact ⟨rfl, rfl⟩

theorem qemu_net_init_eq (st : Host Nics) : (qemu_net_init st).bridge.config = st.bridge.config ∧
    (qemu_net_init st).kernel.quiet = { st.kernel.quiet with qemu_initialized := true } := by
  rw [qemu_net_init]
  split
  · rename_i hdone
    refine ⟨rfl, ?_⟩
    simp [Nics.quiet, print_string, hdone]
  · exact ⟨rfl, rfl⟩

theorem first_card_concat (c : Config) (seen : List Location) (l : Location) :
    first_card c (seen ++ [l]) = (first_card c seen).or (if Realtek c l then some l else none) := by
  rw [first_card, List.find?_append, List.find?_singleton, first_card]
  simp only [decide_eq_true_eq]

theorem Started.congr (h : Started c seen st) (hconfig : st'.bridge.config = st.bridge.config)
    (hkernel : st'.kernel.quiet = st.kernel.quiet) : Started c seen st' where
  config := hconfig.trans h.config
  rtl_initialized := (congrArg Nics.rtl_initialized hkernel).trans h.rtl_initialized
  mmio_base := (congrArg Nics.mmio_base hkernel).trans h.mmio_base
  bring_ups := (congrArg Nics.bring_ups hkernel).trans h.bring_ups
  qemu_initialized := (congrArg Nics.qemu_initialized hkernel).trans h.qemu_initialized

theorem first_card_other (hcard : ¬ Realtek c l) : first_card c (seen ++ [l]) = first_card c seen := by
  rw [first_card_concat, if_neg hcard, Option.or_none]

theorem first_card_later {card : Location} (h : first_card c seen = some card) :
    first_card c (seen ++ [l]) = first_card c seen := by
  rw [first_card_concat, h, Option.some_or]

/-- One more function, for which at most the mock driver is started. -/
theorem Started.advance (h : Started c seen st) (hfirst : first_card c (seen ++ [l]) = first_card c seen)
    (hconfig : st'.bridge.config = st.bridge.config) (hkernel : st'.kernel.quiet =
      { st.kernel.quiet with qemu_initialized := st.kernel.qemu_initialized || decide (E1000 c l) }) :
    Started c (seen ++ [l]) st' where
  config := by rw [hfirst, hconfig, h.config]
  rtl_initialized := hfirst ▸ (congrArg Nics.rtl_initialized hkernel).trans h.rtl_initialized
  mmio_base := hfirst ▸ (congrArg Nics.mmio_base hkernel).trans h.mmio_base
  bring_ups := hfirst ▸ (congrArg Nics.bring_ups hkernel).trans h.bring_ups
  qemu_initialized := by
    refine (congrArg Nics.qemu_initialized hkernel).trans ?_
    dsimp only
    rw [h.qemu_initialized, List.any_append, List.any_cons, List.any_nil, Bool.or_false]

/-- Nothing is started for the other functions. -/
theorem Started.other (h : Started c seen st) (hcard : ¬ Realtek c l) (he1000 : ¬ E1000 c l) : Started c (seen ++ [l]) st :=
  h.advance (first_card_other hcard) rfl (by simp [Nics.quiet, he1000])

theorem not_e1000_of_realtek (h : Realtek c l) : ¬ E1000 c l := fun h' => by
  have hvendor := h.2.2.1.symm.trans h'.2.2.1
  revert hvendor
  decide

/-- A Realtek card: its driver is started if it is the first one. -/
theorem Started.realtek (h : Started c seen st) (hvalid : l.Valid) (hcard : Realtek c l) :
    Started c (seen ++ [l]) (rtl8169_init l st) := by
  have he1000 := not_e1000_of_realtek hcard
  cases hfirst : first_card c seen with
  | none =>
    have hnow : first_card c (seen ++ [l]) = some l := by rw [first_card_concat, hfirst, if_pos hcard, Option.none_or]
    have hrtl := h.rtl_initialized
    have hconfig := h.config
    have hbring := h.bring_ups
    rw [hfirst] at hrtl hconfig hbring
    obtain ⟨hconfig', hkernel'⟩ := rtl8169_init_first hvalid hrtl
    rw [hconfig, hbring] at hkernel'
    rw [hconfig] at hconfig'
    have hqemu : (rtl8169_init l st).kernel.qemu_initialized = st.kernel.qemu_initialized :=
      (congrArg Nics.qemu_initialized hkernel' :)
    refine ⟨?_, ?_, ?_, ?_, ?_⟩
    · rw [hnow]
      exact hconfig'
    · rw [hnow]
      exact congrArg Nics.rtl_initialized hkernel'
    · rw [hnow]
      exact congrArg Nics.mmio_base hkernel'
    · rw [hnow]
      exact congrArg Nics.bring_ups hkernel'
    · rw [hqemu, h.qemu_initialized, List.any_append]
      simp [he1000]
  | some card =>
    have hrtl := h.rtl_initialized
    rw [hfirst] at hrtl
    obtain ⟨hconfig', hkernel'⟩ := rtl8169_init_again (l := l) hrtl
    exact h.advance (first_card_later hfirst) hconfig' (hkernel'.trans (by simp [Nics.quiet, he1000]))

theorem Started.e1000 (h : Started c seen st) (hcard : E1000 c l) : Started c (seen ++ [l]) (qemu_net_init st) := by
  obtain ⟨hconfig, hkernel⟩ := qemu_net_init_eq st
  have hother : ¬ Realtek c l := fun hcard' => not_e1000_of_realtek hcard' hcard
  exact h.advance (first_card_other hother) hconfig (hkernel.trans (by simp [hcard]))

theorem Started.start (h : Started c seen st) (hvalid : l.Valid)
    (hclass : class_code (c l 2) = 0x02 ∧ subclass (c l 2) = 0x00) : Started c (seen ++ [l]) (start_driver l (c l 0) st) := by
  have hprinted : ∀ text, Started c seen (print_string st text) := fun text => h.congr rfl rfl
  rw [start_driver]
  split
  · rename_i hid
    exact (hprinted _).realtek hvalid ⟨hclass.1, hclass.2, hid⟩
  · rename_i hid
    split
    · rename_i he1000
      exact (hprinted _).e1000 ⟨hclass.1, hclass.2, he1000⟩
    · rename_i he1000
      exact h.other (fun hcard => hid hcard.2.2) fun hcard => he1000 hcard.2.2

theorem Started.visit (h : Started c seen st) (hvalid : l.Valid) :
    Started c (seen ++ [l]) (visit_network l (c l 0) (c l 2) st) := by
  rw [visit_network]
  split
  · rename_i hclass
    dsimp only
    split
    · rename_i hsub
      have h : Started c seen
          (print_string (print_string st (found (ascii "Network Controller") l (c l 0))) (ascii " Ethernet")) := h.congr rfl rfl
      exact (h.start hvalid ⟨hclass, hsub⟩).congr rfl rfl
    · rename_i hsub
      refine (h.other (fun h' => hsub h'.2.1) fun h' => hsub h'.2.1).congr ?_ ?_ <;> split <;> rfl
  · rename_i hclass
    exact h.other (fun h' => hclass h'.1) fun h' => hclass h'.1

theorem Started.sameIds (h : Started c seen st) : SameIds c st.bridge.config := by
  rw [h.config]
  cases first_card c seen with
  | none => exact ⟨fun _ => rfl, fun _ => rfl, fun _ => rfl⟩
  | some card =>
    exact ⟨fun l => enabled_other c card l (by decide), fun l => enabled_other c card l (by decide),
      fun l => enabled_other c card l (by decide)⟩

theorem Started.scan (h : Started c seen st) : Started c (seen ++ functions c) (pci_scan_network st) := by
  have hstart : Started c seen (print_string st (ascii "PCI: Scanning for Network Controllers...\n")) := h.congr rfl rfl
  rw [pci_scan_network]
  exact scan_inv (Started c) (fun _ _ h => h.sameIds) (fun _ _ _ h => h.congr rfl rfl)
    (fun _ _ _ hvalid h => h.visit hvalid) hstart

/-- What has been seen before changes nothing. -/
theorem Started.again (h : Started c (functions c ++ functions c) st) : Started c (functions c) st := by
  have hfirst : first_card c (functions c ++ functions c) = first_card c (functions c) := by
    rw [first_card, List.find?_append, Option.or_self]
    rfl
  refine ⟨hfirst ▸ h.config, hfirst ▸ h.rtl_initialized, hfirst ▸ h.mmio_base, hfirst ▸ h.bring_ups, ?_⟩
  rw [h.qemu_initialized, List.any_append, Bool.or_self]

/-- However often the bus is scanned, the driver is started for the first Realtek card alone: it may then use the memory bus,
    its registers are where the card's first memory address says, and no other register of any function is touched. -/
theorem network_scans (st : Host Nics) (hfresh : Fresh st) (n : ℕ) :
    Started st.bridge.config (functions st.bridge.config) (pci_scan_network^[n + 1] st) := by
  induction n with
  | zero =>
    have hstart : Started st.bridge.config [] st :=
      ⟨rfl, hfresh.rtl_initialized, hfresh.mmio_base, hfresh.bring_ups, hfresh.qemu_initialized⟩
    have hscan := hstart.scan
    rw [List.nil_append] at hscan
    exact hscan
  | succ n ih =>
    rw [Function.iterate_succ_apply']
    exact ih.scan.again

/-- A machine with one card, whose first address is one of ports and whose second is a wide one. -/
def card_config : Config := fun l i =>
  if l = ⟨0, 3, 0⟩ then
    if i = 0 then 0x816810EC
    else if i = 2 then 0x02000000
    else if i = 4 then 0x0000C001
    else if i = 6 then 0xFEB00004
    else 0
  else 0xFFFFFFFF

def card_host : Host Nics := ⟨⟨0, card_config⟩, ⟨[], false, 0, [], false⟩⟩

theorem network_scans_card : Started card_config (functions card_config) (pci_scan_network^[2] card_host) ∧
    first_card card_config (functions card_config) = some ⟨0, 3, 0⟩ ∧ mmio_of (card_config ⟨0, 3, 0⟩) = 0xFEB00000 :=
  ⟨network_scans card_host ⟨rfl, rfl, rfl, rfl⟩ 1, by decide +kernel, by decide⟩

end os_dev.net
