import Mathlib.Data.List.Nodup
import Mathlib.Tactic.Ring
import OsDev.Net.NetStack

open os_dev.libc os_dev.net_stack

namespace os_dev.pci

def PCI_CONFIG_ADDRESS : ℕ := 0xCF8
def PCI_CONFIG_DATA : ℕ := 0xCFC

/-- A function of a device on a bus. -/
structure Location where
  bus : UInt8
  device : UInt8
  function : UInt8
  deriving DecidableEq

/-- The configuration registers of the functions, of four bytes each. -/
abbrev Config := Location → ℕ → UInt32

def Config.set (c : Config) (l : Location) (i : ℕ) (value : UInt32) : Config :=
  fun l' i' => if l' = l ∧ i' = i then value else c l' i'

/-- The host bridge: what its address port has got last, and the registers behind its data port. -/
structure Bridge where
  address : UInt32
  config : Config

/-- The function and the register that an address stands for. -/
def decode (address : UInt32) : Location × ℕ :=
  let a := address.toNat
  (⟨UInt8.ofNat (a / 65536), UInt8.ofNat (a / 2048 % 32), UInt8.ofNat (a / 256 % 8)⟩, a / 4 % 64)

def Bridge.outl (b : Bridge) (port : ℕ) (value : UInt32) : Bridge :=
  if port = PCI_CONFIG_ADDRESS then { b with address := value }
  else if port = PCI_CONFIG_DATA ∧ 0x80000000 ≤ b.address then
    { b with config := b.config.set (decode b.address).1 (decode b.address).2 value }
  else b

/-- Where no function is addressed, all lines are high. -/
def Bridge.inl (b : Bridge) (port : ℕ) : UInt32 :=
  if port = PCI_CONFIG_DATA ∧ 0x80000000 ≤ b.address then b.config (decode b.address).1 (decode b.address).2 else 0xFFFFFFFF

def config_address (l : Location) (offset : UInt8) : UInt32 :=
  (1 : UInt32) <<< 31 ||| l.bus.toUInt32 <<< 16 ||| l.device.toUInt32 <<< 11 ||| l.function.toUInt32 <<< 8 |||
    (offset &&& 0xFC).toUInt32

def pci_read_config_dword (b : Bridge) (l : Location) (offset : UInt8) : UInt32 × Bridge :=
  let b := b.outl PCI_CONFIG_ADDRESS (config_address l offset)
  (b.inl PCI_CONFIG_DATA, b)

def pci_write_config_dword (b : Bridge) (l : Location) (offset : UInt8) (value : UInt32) : Bridge :=
  let b := b.outl PCI_CONFIG_ADDRESS (config_address l offset)
  b.outl PCI_CONFIG_DATA value

/-- The place is one that an address has room for. -/
structure Location.Valid (l : Location) : Prop where
  device : l.device < 32
  function : l.function < 8

variable {b : Bridge} {l l' : Location} {offset : UInt8} {c c' : Config}

theorem offset_toNat (offset : UInt8) : (offset &&& 0xFC).toNat = offset.toNat / 4 * 4 := by
  have hmask : ∀ n < 256, n &&& 0xFC = n / 4 * 4 := by decide +kernel
  rw [UInt8.toNat_and]
  exact hmask offset.toNat offset.toNat_lt

/-- The fields of an address do not overlap. -/
theorem config_address_toNat (h : l.Valid) (offset : UInt8) : (config_address l offset).toNat =
    0x80000000 + 65536 * l.bus.toNat + 2048 * l.device.toNat + 256 * l.function.toNat + offset.toNat / 4 * 4 := by
  have hbus := l.bus.toNat_lt
  have hdevice : l.device.toNat < 32 := h.device
  have hfunction : l.function.toNat < 8 := h.function
  have hoffset := offset.toNat_lt
  have hfields : (config_address l offset).toNat = 2 ^ 31 * 1 ||| (2 ^ 16 * l.bus.toNat ||| (2 ^ 11 * l.device.toNat |||
      (2 ^ 8 * l.function.toNat ||| offset.toNat / 4 * 4))) := by
    simp only [config_address, UInt32.toNat_or, UInt32.toNat_shiftLeft, UInt8.toNat_toUInt32, offset_toNat, Nat.shiftLeft_eq,
      Nat.or_assoc, UInt32.reduceToNat, Nat.reduceMod]
    have htop : 1 * 2 ^ 31 % 2 ^ 32 = 2 ^ 31 * 1 := rfl
    rw [htop, Nat.mod_eq_of_lt (show l.bus.toNat * 2 ^ 16 < 2 ^ 32 by omega),
      Nat.mod_eq_of_lt (show l.device.toNat * 2 ^ 11 < 2 ^ 32 by omega),
      Nat.mod_eq_of_lt (show l.function.toNat * 2 ^ 8 < 2 ^ 32 by omega), Nat.mul_comm l.bus.toNat, Nat.mul_comm l.device.toNat,
      Nat.mul_comm l.function.toNat]
  have hjoin : ∀ {i a b : ℕ}, b < 2 ^ i → 2 ^ i * a ||| b = 2 ^ i * a + b :=
    fun hb => (Nat.two_pow_add_eq_or_of_lt hb _).symm
  rw [hfields, hjoin (show offset.toNat / 4 * 4 < 2 ^ 8 by omega), hjoin (show _ < 2 ^ 11 by omega),
    hjoin (show _ < 2 ^ 16 by omega), hjoin (show _ < 2 ^ 31 by omega)]
  omega

theorem decode_config_address (h : l.Valid) (offset : UInt8) : decode (config_address l offset) = (l, offset.toNat / 4) := by
  have hbus := l.bus.toNat_lt
  have hdevice : l.device.toNat < 32 := h.device
  have hfunction : l.function.toNat < 8 := h.function
  have hoffset := offset.toNat_lt
  have hnum := config_address_toNat h offset
  have hfields : (config_address l offset).toNat / 65536 % 256 = l.bus.toNat ∧
      (config_address l offset).toNat / 2048 % 32 = l.device.toNat ∧
      (config_address l offset).toNat / 256 % 8 = l.function.toNat ∧
      (config_address l offset).toNat / 4 % 64 = offset.toNat / 4 := by omega
  obtain ⟨hb, hd, hf, ho⟩ := hfields
  have hb' : UInt8.ofNat ((config_address l offset).toNat / 65536) = l.bus := by
    rw [← UInt8.toNat_inj, UInt8.toNat_ofNat']
    exact hb
  simp only [decode, hb', hd, hf, ho, UInt8.ofNat_toNat]

theorem addressed (h : l.Valid) (offset : UInt8) : 0x80000000 ≤ config_address l offset := by
  rw [UInt32.le_iff_toNat_le, config_address_toNat h]
  simp only [UInt32.reduceToNat]
  omega

/-- A read gives the register, and a write changes it alone. -/
theorem read_eq (b : Bridge) (h : l.Valid) (offset : UInt8) :
    pci_read_config_dword b l offset = (b.config l (offset.toNat / 4), { b with address := config_address l offset }) := by
  have haddress := addressed h offset
  simp [pci_read_config_dword, Bridge.outl, Bridge.inl, haddress, decode_config_address h]

theorem write_eq (b : Bridge) (h : l.Valid) (offset : UInt8) (value : UInt32) :
    pci_write_config_dword b l offset value = ⟨config_address l offset, b.config.set l (offset.toNat / 4) value⟩ := by
  have haddress := addressed h offset
  simp [pci_write_config_dword, Bridge.outl, haddress, decode_config_address h, PCI_CONFIG_ADDRESS, PCI_CONFIG_DATA]

/-- The bridge, and what else a scan works on. -/
structure Host (σ : Type) where
  bridge : Bridge
  kernel : σ

variable {σ : Type} {st : Host σ}

def Host.read (st : Host σ) (l : Location) (offset : UInt8) : UInt32 × Host σ :=
  let r := pci_read_config_dword st.bridge l offset
  (r.1, { st with bridge := r.2 })

def Host.write (st : Host σ) (l : Location) (offset : UInt8) (value : UInt32) : Host σ :=
  { st with bridge := pci_write_config_dword st.bridge l offset value }

/-- Only the address port has changed. -/
def Host.readdress (st : Host σ) (address : UInt32) : Host σ := { st with bridge := { st.bridge with address := address } }

@[simp] theorem readdress_config (st : Host σ) (a : UInt32) : (st.readdress a).bridge.config = st.bridge.config := rfl

@[simp] theorem readdress_kernel (st : Host σ) (a : UInt32) : (st.readdress a).kernel = st.kernel := rfl

theorem Host.read_eq (st : Host σ) (h : l.Valid) (offset : UInt8) :
    st.read l offset = (st.bridge.config l (offset.toNat / 4), st.readdress (config_address l offset)) := by
  rw [Host.read, pci.read_eq st.bridge h]
  rfl

theorem Host.write_config (st : Host σ) (h : l.Valid) (offset : UInt8) (value : UInt32) :
    (st.write l offset value).bridge.config = st.bridge.config.set l (offset.toNat / 4) value := by
  rw [Host.write, pci.write_eq st.bridge h]

/-- Nothing answers: a vendor would have another number. -/
def Absent (id : UInt32) : Prop := id &&& 0xFFFF = 0xFFFF

instance (id : UInt32) : Decidable (Absent id) := inferInstanceAs (Decidable (_ = _))

/-- The functions that a device may have, by its header type. -/
def max_func (header : UInt32) : ℕ :=
  let header_type := header >>> 16 &&& 0xFF
  if header_type &&& 0x80 ≠ 0 then 8 else 1

def location (bus device function : ℕ) : Location := ⟨UInt8.ofNat bus, UInt8.ofNat device, UInt8.ofNat function⟩

section Scan

variable (visit : Location → UInt32 → UInt32 → Host σ → Host σ)

/-- The body of the inner loop: a function that is there is looked at with its first and its third register. -/
def visit_function (l : Location) (st : Host σ) : Host σ :=
  let id := st.read l 0x00
  if Absent id.1 then id.2
  else
    let cls := id.2.read l 0x08
    visit l id.1 cls.1 cls.2

def visit_device (bus device : ℕ) (st : Host σ) : Host σ :=
  let vendor_dev := st.read (location bus device 0) 0x00
  if Absent vendor_dev.1 then vendor_dev.2
  else
    let header := vendor_dev.2.read (location bus device 0) 0x0C
    (List.range (max_func header.1)).foldl (fun st function => visit_function visit (location bus device function) st) header.2

/-- The loops that the scans share. -/
def scan (st : Host σ) : Host σ :=
  (List.range 256).foldl (fun st bus => (List.range 32).foldl (fun st device => visit_device visit bus device st) st) st

end Scan

/-- The functions of the machine, in the order of a scan. -/
def device_functions (c : Config) (bus device : ℕ) : List Location :=
  if Absent (c (location bus device 0) 0) then []
  else (List.range (max_func (c (location bus device 0) 3))).flatMap fun function =>
    if Absent (c (location bus device function) 0) then [] else [location bus device function]

def functions (c : Config) : List Location :=
  (List.range 256).flatMap fun bus => (List.range 32).flatMap fun device => device_functions c bus device

/-- The registers that a scan reads are the same. -/
structure SameIds (c c' : Config) : Prop where
  id : ∀ l, c' l 0 = c l 0
  cls : ∀ l, c' l 2 = c l 2
  header : ∀ l, c' l 3 = c l 3

theorem max_func_le (header : UInt32) : max_func header ≤ 8 := by
  rw [max_func]
  split <;> decide

theorem location_valid {bus device function : ℕ} (hdevice : device < 32) (hfunction : function < 8) :
    (location bus device function).Valid := by
  constructor
  · rw [UInt8.lt_iff_toNat_lt, location, UInt8.toNat_ofNat_of_lt' (show device < 256 by omega)]
    exact hdevice
  · rw [UInt8.lt_iff_toNat_lt, location, UInt8.toNat_ofNat_of_lt' (show function < 256 by omega)]
    exact hfunction

section Rule

variable {visit : Location → UInt32 → UInt32 → Host σ → Host σ} (Inv : List Location → Host σ → Prop)
  {seen : List Location}

/-- A loop whose body handles a list of functions for each of its values. -/
theorem foldl_inv {f : Host σ → ℕ → Host σ} {handled : ℕ → List Location} {n : ℕ}
    (hbody : ∀ k < n, ∀ seen st, Inv seen st → Inv (seen ++ handled k) (f st k)) (h : Inv seen st) :
    Inv (seen ++ (List.range n).flatMap handled) ((List.range n).foldl f st) := by
  induction n with
  | zero => simpa using h
  | succ n ih =>
    have hrest := ih fun k hk => hbody k (by omega)
    rw [List.range_succ, List.flatMap_append, List.foldl_concat, ← List.append_assoc, List.flatMap_singleton]
    exact hbody n (by omega) _ _ hrest

variable (hids : ∀ seen st, Inv seen st → SameIds c st.bridge.config)
  (haddress : ∀ seen st address, Inv seen st → Inv seen (st.readdress address))
  (hvisit : ∀ seen l st, l.Valid → Inv seen st → Inv (seen ++ [l]) (visit l (c l 0) (c l 2) st))

include hids haddress hvisit

theorem visit_function_inv (hvalid : l.Valid) (h : Inv seen st) :
    Inv (seen ++ if Absent (c l 0) then [] else [l]) (visit_function visit l st) := by
  have hsame := hids seen st h
  have hid : (0x00 : UInt8).toNat / 4 = 0 := rfl
  have hcls : (0x08 : UInt8).toNat / 4 = 2 := rfl
  rw [visit_function, Host.read_eq st hvalid, hid, hsame.id l]
  dsimp only
  by_cases habsent : Absent (c l 0)
  · rw [if_pos habsent, if_pos habsent, List.append_nil]
    exact haddress _ _ _ h
  · rw [if_neg habsent, if_neg habsent, Host.read_eq _ hvalid, hcls, readdress_config, hsame.cls l]
    exact hvisit _ _ _ hvalid (haddress _ _ _ (haddress _ _ _ h))

theorem visit_device_inv {bus device : ℕ} (hdevice : device < 32) (h : Inv seen st) :
    Inv (seen ++ device_functions c bus device) (visit_device visit bus device st) := by
  have hsame := hids seen st h
  have hid : (0x00 : UInt8).toNat / 4 = 0 := rfl
  have hheader : (0x0C : UInt8).toNat / 4 = 3 := rfl
  have hfirst : (location bus device 0).Valid := location_valid hdevice (by decide)
  rw [device_functions, visit_device, Host.read_eq st hfirst, hid, hsame.id]
  dsimp only
  by_cases habsent : Absent (c (location bus device 0) 0)
  · rw [if_pos habsent, if_pos habsent, List.append_nil]
    exact haddress _ _ _ h
  · rw [if_neg habsent, if_neg habsent, Host.read_eq _ hfirst, hheader, readdress_config, hsame.header]
    refine foldl_inv Inv (fun function hfunction seen st h => ?_) (haddress _ _ _ (haddress _ _ _ h))
    exact visit_function_inv Inv hids haddress hvisit (location_valid hdevice (hfunction.trans_le (max_func_le _))) h

/-- The rule for scans: an invariant that keeps the registers which the scan reads, and does not look at the address port,
    holds behind a scan for all functions of the machine if every visit makes it hold for one more. -/
theorem scan_inv (h : Inv seen st) : Inv (seen ++ functions c) (scan visit st) :=
  foldl_inv Inv (fun _ _ _ _ h => foldl_inv Inv
    (fun _ hdevice _ _ h => visit_device_inv Inv hids haddress hvisit hdevice h) h) h

end Rule

/-- A function is looked at if it is there, the device's first one is, and the device may have so many. -/
theorem mem_functions_iff : l ∈ functions c ↔ l.device < 32 ∧ l.function.toNat < max_func (c { l with function := 0 } 3) ∧
    ¬ Absent (c { l with function := 0 } 0) ∧ ¬ Absent (c l 0) := by
  have hplace : ∀ function : ℕ, location l.bus.toNat l.device.toNat function = { l with function := UInt8.ofNat function } :=
    fun function => by rw [location, UInt8.ofNat_toNat, UInt8.ofNat_toNat]
  simp only [functions, device_functions, List.mem_flatMap, List.mem_range]
  constructor
  · rintro ⟨bus, -, device, hdevice, hmem⟩
    split at hmem
    · cases hmem
    rename_i hfirst
    obtain ⟨function, hfunction, hmem⟩ := List.mem_flatMap.mp hmem
    rw [List.mem_range] at hfunction
    split at hmem
    · cases hmem
    rename_i hthere
    obtain rfl := List.mem_singleton.mp hmem
    have hlt : function < 256 := (hfunction.trans_le (max_func_le _)).trans (by decide)
    have hvalid : (location bus device 0).Valid := location_valid hdevice (by decide)
    refine ⟨hvalid.device, ?_, hfirst, hthere⟩
    rw [location, UInt8.toNat_ofNat_of_lt' hlt]
    exact hfunction
  · rintro ⟨hdevice, hfunction, hfirst, hthere⟩
    have hself : location l.bus.toNat l.device.toNat l.function.toNat = l := by rw [hplace, UInt8.ofNat_toNat]
    have hzero : location l.bus.toNat l.device.toNat 0 = { l with function := 0 } := hplace 0
    refine ⟨l.bus.toNat, l.bus.toNat_lt, l.device.toNat, hdevice, ?_⟩
    rw [hzero, if_neg hfirst]
    refine List.mem_flatMap.mpr ⟨l.function.toNat, List.mem_range.mpr hfunction, ?_⟩
    rw [hself, if_neg hthere]
    exact List.mem_singleton_self l

theorem nodup_range_flatMap {n : ℕ} {handled : ℕ → List Location} (key : Location → ℕ)
    (hkey : ∀ k < n, ∀ l ∈ handled k, key l = k) (h : ∀ k < n, (handled k).Nodup) :
    ((List.range n).flatMap handled).Nodup := by
  refine List.nodup_flatMap.mpr ⟨fun k hk => h k (List.mem_range.mp hk), ?_⟩
  refine List.nodup_range.imp_of_mem fun {j k} hj hk hne l hlj hlk => hne ?_
  rw [← hkey j (List.mem_range.mp hj) l hlj, ← hkey k (List.mem_range.mp hk) l hlk]

theorem device_functions_place {bus device : ℕ} (h : l ∈ device_functions c bus device) :
    l.bus = UInt8.ofNat bus ∧ l.device = UInt8.ofNat device := by
  rw [device_functions] at h
  split at h
  · cases h
  obtain ⟨function, -, hmem⟩ := List.mem_flatMap.mp h
  split at hmem
  · cases hmem
  obtain rfl := List.mem_singleton.mp hmem
  exact ⟨rfl, rfl⟩

/-- Every function is looked at once. -/
theorem functions_nodup (c : Config) : (functions c).Nodup := by
  refine nodup_range_flatMap (fun l : Location => l.bus.toNat) (fun bus hbus l hl => ?_) fun bus _ =>
    nodup_range_flatMap (fun l : Location => l.device.toNat) (fun device hdevice l hl => ?_) fun device _ => ?_
  · obtain ⟨device, -, hmem⟩ := List.mem_flatMap.mp hl
    rw [(device_functions_place hmem).1, UInt8.toNat_ofNat_of_lt' hbus]
  · rw [(device_functions_place hl).2, UInt8.toNat_ofNat_of_lt' (show device < 256 by omega)]
  · rw [device_functions]
    split
    · exact List.nodup_nil
    refine nodup_range_flatMap (fun l : Location => l.function.toNat) (fun function hfunction l hl => ?_) fun function _ => ?_
    · have hlt : function < 256 := (hfunction.trans_le (max_func_le _)).trans (by decide)
      split at hl
      · cases hl
      rw [List.mem_singleton.mp hl, location, UInt8.toNat_ofNat_of_lt' hlt]
    · split
      · exact List.nodup_nil
      · exact List.nodup_singleton _

def vendor_id (id : UInt32) : UInt32 := id &&& 0xFFFF
def device_id (id : UInt32) : UInt32 := id >>> 16 &&& 0xFFFF
def class_code (cls : UInt32) : UInt32 := cls >>> 24 &&& 0xFF
def subclass (cls : UInt32) : UInt32 := cls >>> 16 &&& 0xFF
def prog_if (cls : UInt32) : UInt32 := cls >>> 8 &&& 0xFF

/-- The lowest `n` hexadecimal digits of a number. -/
def hex (n : ℕ) (v : UInt32) : CStr :=
  (List.range n).reverse.map fun i => (ascii "0123456789ABCDEF").getD (v.toNat >>> (4 * i) &&& 0xF) 0

def place (l : Location) : CStr :=
  ascii "bus " ++ itoa l.bus.toNat ++ ascii " dev " ++ itoa l.device.toNat ++ ascii " func " ++ itoa l.function.toNat

def found (what : CStr) (l : Location) (id : UInt32) : CStr :=
  ascii "PCI: Found " ++ what ++ ascii " at " ++ place l ++ ascii " [vid=" ++ hex 4 (vendor_id id) ++ ascii " did=" ++
    hex 4 (device_id id) ++ ascii "] ->"

def multimedia_line (l : Location) (id cls : UInt32) : CStr :=
  if class_code cls = 0x04 ∧ subclass cls = 0x03 then
    ascii "Found Multimedia Audio Controller at " ++ place l ++ ascii " vendor= 0x" ++ hex 8 (vendor_id id) ++
      ascii " device= 0x" ++ hex 8 (device_id id) ++ ascii "\n"
  else []

def storage_line (l : Location) (id cls : UInt32) : CStr :=
  if class_code cls = 0x01 then
    found (ascii "SSD / Storage Controller") l id ++
      (if subclass cls = 0x01 then ascii " IDE"
      else if subclass cls = 0x06 then ascii " SATA" ++ (if prog_if cls = 0x01 then ascii " (AHCI)" else [])
      else if subclass cls = 0x08 then ascii " NVMe SSD"
      else ascii " Other Storage") ++ ascii "\n"
  else if class_code cls = 0x0C ∧ subclass cls = 0x03 then
    found (ascii "USB Controller") l id ++
      (if prog_if cls = 0x00 then ascii " UHCI (USB 1.x)"
      else if prog_if cls = 0x10 then ascii " OHCI (USB 1.x)"
      else if prog_if cls = 0x20 then ascii " EHCI (USB 2.0)"
      else if prog_if cls = 0x30 then ascii " xHCI (USB 3.0)"
      else ascii " Unknown USB") ++ ascii "\n"
  else []

def Host.print (st : Host CStr) (s : CStr) : Host CStr := { st with kernel := st.kernel ++ s }

@[simp] theorem print_config (st : Host CStr) (s : CStr) : (st.print s).bridge.config = st.bridge.config := rfl

@[simp] theorem print_kernel (st : Host CStr) (s : CStr) : (st.print s).kernel = st.kernel ++ s := rfl

/-- A scan that only prints. -/
def report (line : Location → UInt32 → UInt32 → CStr) (st : Host CStr) : Host CStr :=
  scan (fun l id cls st => st.print (line l id cls)) st

def pci_scan_multimedia (st : Host CStr) : Host CStr :=
  (report multimedia_line (st.print (ascii "PCI: Scanning for Multimedia Audio Controllers...\n"))).print
    (ascii "PCI: Scan complete.\n")

def pci_scan_storage (st : Host CStr) : Host CStr :=
  report storage_line (st.print (ascii "PCI: Scanning for Storage Controllers...\n"))

/-- Lines have been printed for these functions, and nothing else has changed. -/
structure Printed (line : Location → UInt32 → UInt32 → CStr) (st : Host CStr) (seen : List Location) (st' : Host CStr) :
    Prop where
  config : st'.bridge.config = st.bridge.config
  kernel : st'.kernel = st.kernel ++ seen.flatMap fun l => line l (st.bridge.config l 0) (st.bridge.config l 2)

/-- A report has the lines of all functions, in their order. -/
theorem report_printed (line : Location → UInt32 → UInt32 → CStr) (st : Host CStr) :
    Printed line st (functions st.bridge.config) (report line st) := by
  have hids : ∀ seen st', Printed line st seen st' → SameIds st.bridge.config st'.bridge.config := fun seen st' h => by
    rw [h.config]
    exact ⟨fun _ => rfl, fun _ => rfl, fun _ => rfl⟩
  have hvisit : ∀ seen l st', l.Valid → Printed line st seen st' →
      Printed line st (seen ++ [l]) (st'.print (line l (st.bridge.config l 0) (st.bridge.config l 2))) :=
    fun seen l st' _ h => by
      refine ⟨h.config, ?_⟩
      rw [List.flatMap_append, List.flatMap_singleton, ← List.append_assoc, ← h.kernel, print_kernel]
  have hstart : Printed line st [] st := ⟨rfl, (List.append_nil _).symm⟩
  rw [report, ← List.nil_append (functions st.bridge.config)]
  exact scan_inv (Printed line st) hids (fun _ _ _ h => ⟨h.config, h.kernel⟩) hvisit hstart

/-- The scans for storage and for multimedia print the lines of the functions of the machine, each of them once and in the
    order of the bus, and change no register. -/
theorem scans_report_functions (st : Host CStr) :
    (pci_scan_storage st).bridge.config = st.bridge.config ∧ (pci_scan_multimedia st).bridge.config = st.bridge.config ∧
    (pci_scan_storage st).kernel = st.kernel ++ ascii "PCI: Scanning for Storage Controllers...\n" ++
      ((functions st.bridge.config).flatMap fun l => storage_line l (st.bridge.config l 0) (st.bridge.config l 2)) ∧
    (pci_scan_multimedia st).kernel = st.kernel ++ ascii "PCI: Scanning for Multimedia Audio Controllers...\n" ++
      ((functions st.bridge.config).flatMap fun l => multimedia_line l (st.bridge.config l 0) (st.bridge.config l 2)) ++
      ascii "PCI: Scan complete.\n" ∧
    (functions st.bridge.config).Nodup ∧ ∀ l, l ∈ functions st.bridge.config ↔
      l.device < 32 ∧ l.function.toNat < max_func (st.bridge.config { l with function := 0 } 3) ∧
        ¬ Absent (st.bridge.config { l with function := 0 } 0) ∧ ¬ Absent (st.bridge.config l 0) := by
  have hreport : ∀ line text, (report line (st.print text)).bridge.config = st.bridge.config ∧
      (report line (st.print text)).kernel = st.kernel ++ text ++
        (functions st.bridge.config).flatMap fun l => line l (st.bridge.config l 0) (st.bridge.config l 2) :=
    fun line text => ⟨(report_printed line (st.print text)).config, (report_printed line (st.print text)).kernel⟩
  obtain ⟨hstorage, hstorage_text⟩ := hreport storage_line (ascii "PCI: Scanning for Storage Controllers...\n")
  obtain ⟨hmultimedia, hmultimedia_text⟩ :=
    hreport multimedia_line (ascii "PCI: Scanning for Multimedia Audio Controllers...\n")
  rw [pci_scan_storage, pci_scan_multimedia, print_config, print_kernel, hstorage, hstorage_text, hmultimedia, hmultimedia_text]
  exact ⟨rfl, rfl, rfl, rfl, functions_nodup _, fun _ => mem_functions_iff⟩

end os_dev.pci
