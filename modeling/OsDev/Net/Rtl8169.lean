import Mathlib.Data.Nat.Bitwise
import Mathlib.Data.Fin.Basic
import Mathlib.Logic.Function.Basic
import Mathlib.Data.List.Basic

namespace os_dev.rtl8169

def NUM_DESCS : ℕ := 64

instance : NeZero NUM_DESCS := ⟨by decide⟩

/-- Bytes of a buffer of either ring. -/
def BUFFER_SIZE : ℕ := 1536

abbrev Index := Fin NUM_DESCS

structure rtl_desc_t where
  command : ℕ
  vlan : ℕ
  buf_low : ℕ
  buf_high : ℕ
  deriving DecidableEq

/-- `RTL_DESC_OWN`: the descriptor belongs to the device. -/
def rtl_desc_t.own (d : rtl_desc_t) : Bool := d.command.testBit 31

/-- The marker of the last descriptor. -/
def rtl_desc_t.end_of_ring (d : rtl_desc_t) : Bool := d.command.testBit 30

/-- Where a descriptor points to. -/
def rtl_desc_t.buffer (d : rtl_desc_t) : ℕ := d.buf_low + 2 ^ 32 * d.buf_high

/-- A descriptor with the address of a buffer. -/
def rtl_desc_t.set_buffer (d : rtl_desc_t) (addr : ℕ) : rtl_desc_t :=
  { d with buf_low := addr % 2 ^ 32, buf_high := addr / 2 ^ 32 % 2 ^ 32 }

/-- Where the linker puts an array of `NUM_DESCS` buffers; the memory is mapped to
    itself, so that the device can use the address. -/
structure Buffers where
  base : ℕ
  bound : base + NUM_DESCS * BUFFER_SIZE ≤ 2 ^ 64

def Buffers.at (bufs : Buffers) (i : Index) : ℕ := bufs.base + BUFFER_SIZE * i.val

abbrev Memory := ℕ → UInt8

/-- Copy bytes to an address. -/
def write (mem : Memory) (addr : ℕ) (bytes : List UInt8) : Memory :=
  fun a => if addr ≤ a then (bytes[a - addr]?).getD (mem a) else mem a

/-- The `len` bytes from an address on. -/
def read (mem : Memory) (addr len : ℕ) : List UInt8 := (List.range len).map fun k => mem (addr + k)

inductive err_t where
  | ERR_OK
  | ERR_BUF
  deriving DecidableEq

/-- Where a call of `rtl8169_linkoutput` is: not running, behind the copy to the
    buffer, or behind the test of the descriptor. -/
inductive TxPhase where
  | idle
  | copied (frame : List UInt8) (tx_len : ℕ)
  | checked (frame : List UInt8) (tx_len : ℕ)
  deriving DecidableEq

/-- The transmit ring, as the driver and the device share it: `next` is the descriptor
    that the device takes next. What has been accepted and transmitted is recorded. -/
structure Tx where
  mem : Memory
  tx_ring : Index → rtl_desc_t
  tx_idx : Index
  phase : TxPhase
  next : Index
  result : Option err_t
  accepted : List (List UInt8)
  transmitted : List (List UInt8)

/-- The ring set up by `rtl8169_init`, in memory that may hold anything. -/
def tx_init (mem : Memory) : Tx where
  mem := mem
  tx_ring := fun _ => ⟨0, 0, 0, 0⟩
  tx_idx := 0
  phase := .idle
  next := 0
  result := none
  accepted := []
  transmitted := []

/-- Copy a frame to the buffer of the current descriptor and pad it to 60 bytes. -/
def Tx.copy (bufs : Buffers) (st : Tx) (frame : List UInt8) : Tx :=
  let flat_buf := bufs.at st.tx_idx
  let mem := write st.mem flat_buf frame
  let tx_len := frame.length
  if tx_len < 60 then
    { st with mem := write mem (flat_buf + tx_len) (List.replicate (60 - tx_len) 0), phase := .copied frame 60 }
  else { st with mem := mem, phase := .copied frame tx_len }

/-- The test of the descriptor, which may end the call. -/
def Tx.check (st : Tx) (frame : List UInt8) (tx_len : ℕ) : Tx :=
  if (st.tx_ring st.tx_idx).own then { st with phase := .idle, result := some .ERR_BUF }
  else { st with phase := .checked frame tx_len }

/-- The command that hands a frame over to the device. -/
def tx_command (i : Index) (tx_len : ℕ) : ℕ :=
  let cmd := 0x80000000 ||| 0x20000000 ||| 0x10000000 ||| (tx_len % 2 ^ 16)
  if i.val = NUM_DESCS - 1 then cmd ||| 0x40000000 else cmd

/-- The rest of the call. The index is the driver's own, so it moves on in the same step. -/
def Tx.hand_over (bufs : Buffers) (st : Tx) (frame : List UInt8) (tx_len : ℕ) : Tx :=
  let desc := { (st.tx_ring st.tx_idx).set_buffer (bufs.at st.tx_idx) with command := tx_command st.tx_idx tx_len }
  { st with
    tx_ring := Function.update st.tx_ring st.tx_idx desc
    tx_idx := st.tx_idx + 1
    phase := .idle
    result := some .ERR_OK
    accepted := st.accepted ++ [frame] }

/-- A whole call without interruption. -/
def rtl8169_linkoutput (bufs : Buffers) (st : Tx) (frame : List UInt8) : Tx :=
  let st := st.copy bufs frame
  match st.phase with
  | .copied frame tx_len =>
    let st := st.check frame tx_len
    match st.phase with
    | .checked frame tx_len => st.hand_over bufs frame tx_len
    | _ => st
  | _ => st

/-- The device transmits the frame of its next descriptor and gives it back. -/
def Tx.transmit (st : Tx) : Tx :=
  let desc := st.tx_ring st.next
  if desc.own then
    { st with
      transmitted := st.transmitted ++ [read st.mem desc.buffer (desc.command % 2 ^ 16)]
      tx_ring := Function.update st.tx_ring st.next { desc with command := desc.command % 2 ^ 31 }
      next := st.next + 1 }
  else st

/-- A step of the driver or the device. -/
inductive TxStep where
  | call (frame : List UInt8)
  | advance
  | device

def Tx.step (bufs : Buffers) (st : Tx) : TxStep → Tx
  | .call frame =>
    match st.phase with
    | .idle => st.copy bufs frame
    | _ => st
  | .advance =>
    match st.phase with
    | .idle => st
    | .copied frame tx_len => st.check frame tx_len
    | .checked frame tx_len => st.hand_over bufs frame tx_len
  | .device => st.transmit

def Tx.run (bufs : Buffers) (st : Tx) (steps : List TxStep) : Tx := steps.foldl (Tx.step bufs) st

/-- A whole call is a run of the driver's steps. -/
theorem linkoutput_eq_run (bufs : Buffers) {st : Tx} (h : st.phase = .idle) (frame : List UInt8) :
    rtl8169_linkoutput bufs st frame = st.run bufs [.call frame, .advance, .advance] := by
  have hcopy : ∃ tx_len, (st.copy bufs frame).phase = .copied frame tx_len := by
    simp only [Tx.copy]
    split
    · exact ⟨60, rfl⟩
    · exact ⟨_, rfl⟩
  obtain ⟨tx_len, hphase⟩ := hcopy
  simp only [rtl8169_linkoutput, Tx.run, List.foldl_cons, List.foldl_nil, Tx.step, h, hphase]
  cases hown : ((st.copy bufs frame).tx_ring (st.copy bufs frame).tx_idx).own with
  | true => simp only [Tx.check, hown, if_true]
  | false => simp only [Tx.check, hown, Bool.false_eq_true, if_false]

/-- What the device writes for a received frame: the bytes, their number as it reports
    it in 14 bits, and flags of its own above. It never writes beyond the buffer. -/
structure RxFrame where
  data : List UInt8
  len : ℕ
  flags : ℕ
  len_lt : len < 2 ^ 14
  flags_lt : flags < 2 ^ 17
  data_length : data.length = min len BUFFER_SIZE

/-- The receive ring. `processed` says that `rtl8169_poll` has handled the current
    descriptor and not yet given it back. Arrivals, the results of `pbuf_alloc` and the
    frames passed to the stack are recorded. -/
structure Rx where
  mem : Memory
  rx_ring : Index → rtl_desc_t
  rx_idx : Index
  processed : Bool
  next : Index
  arrived : List RxFrame
  allocs : List Bool
  input : List (List UInt8)

/-- The command that gives a receive descriptor to the device. -/
def rx_command (i : Index) : ℕ :=
  let cmd := 0x80000000 ||| 1536
  if i.val = NUM_DESCS - 1 then cmd ||| 0x40000000 else cmd

/-- The ring set up by `rtl8169_init`. -/
def rx_init (bufs : Buffers) (mem : Memory) : Rx where
  mem := mem
  rx_ring := fun i => { (rtl_desc_t.mk 0 0 0 0).set_buffer (bufs.at i) with command := rx_command i }
  rx_idx := 0
  processed := false
  next := 0
  arrived := []
  allocs := []
  input := []

/-- The first half of a round of `rtl8169_poll`: leave the loop, or handle the frame,
    with `alloc` telling whether `pbuf_alloc` gives a buffer if it is asked for one. -/
def Rx.handle (bufs : Buffers) (st : Rx) (alloc : Bool) : Rx :=
  let cmd := (st.rx_ring st.rx_idx).command
  if (st.rx_ring st.rx_idx).own then st
  else
    let len := cmd % 2 ^ 14
    if 0 < len ∧ len ≤ BUFFER_SIZE ∧ alloc then
      { st with
        processed := true
        allocs := st.allocs ++ [alloc]
        input := st.input ++ [read st.mem (bufs.at st.rx_idx) len] }
    else { st with processed := true, allocs := st.allocs ++ [alloc] }

/-- The second half: reset the descriptor, give it back and move on. -/
def Rx.give_back (st : Rx) : Rx :=
  { st with
    rx_ring := Function.update st.rx_ring st.rx_idx { st.rx_ring st.rx_idx with command := rx_command st.rx_idx }
    rx_idx := st.rx_idx + 1
    processed := false }

/-- The device fills its next descriptor. -/
def Rx.fill (st : Rx) (frame : RxFrame) : Rx :=
  let desc := st.rx_ring st.next
  if desc.own then
    { st with
      mem := write st.mem desc.buffer frame.data
      rx_ring := Function.update st.rx_ring st.next { desc with command := frame.flags * 2 ^ 14 + frame.len }
      next := st.next + 1
      arrived := st.arrived ++ [frame] }
  else st

inductive RxStep where
  | poll (alloc : Bool)
  | device (frame : RxFrame)

/-- A step of `rtl8169_poll`, which does not return while a frame is being handled, or
    of the device. -/
def Rx.step (bufs : Buffers) (st : Rx) : RxStep → Rx
  | .poll alloc => if st.processed then st.give_back else st.handle bufs alloc
  | .device frame => st.fill frame

def Rx.run (bufs : Buffers) (st : Rx) (steps : List RxStep) : Rx := steps.foldl (Rx.step bufs) st

theorem Buffers.at_lt (bufs : Buffers) (i : Index) : bufs.at i + BUFFER_SIZE ≤ 2 ^ 64 := by
  have hi : i.val < 64 := i.isLt
  have hbound := bufs.bound
  simp only [NUM_DESCS, BUFFER_SIZE] at hbound
  simp only [Buffers.at, BUFFER_SIZE]
  omega

theorem buffer_set_buffer (d : rtl_desc_t) {addr : ℕ} (h : addr < 2 ^ 64) : (d.set_buffer addr).buffer = addr := by
  simp only [rtl_desc_t.set_buffer, rtl_desc_t.buffer]
  omega

/-- Two buffers have no byte in common. -/
theorem Buffers.disjoint (bufs : Buffers) {i j : Index} (h : i ≠ j) {k m : ℕ} (hk : k < BUFFER_SIZE) (hm : m < BUFFER_SIZE) :
    bufs.at i + k ≠ bufs.at j + m := by
  have hne : i.val ≠ j.val := fun heq => h (Fin.ext heq)
  simp only [BUFFER_SIZE] at hk hm
  simp only [Buffers.at, BUFFER_SIZE]
  omega

theorem read_length (mem : Memory) (addr len : ℕ) : (read mem addr len).length = len := by
  rw [read, List.length_map, List.length_range]

/-- Bytes that were copied can be read back. -/
theorem read_write (mem : Memory) (addr : ℕ) (bytes : List UInt8) : read (write mem addr bytes) addr bytes.length = bytes := by
  refine List.ext_getElem (read_length _ _ _) fun k hk hk' => ?_
  simp [read, write, hk']

theorem read_congr {mem mem' : Memory} {addr len : ℕ} (h : ∀ k < len, mem' (addr + k) = mem (addr + k)) :
    read mem' addr len = read mem addr len :=
  List.map_congr_left fun k hk => h k (List.mem_range.mp hk)

theorem write_of_outside {mem : Memory} {addr a : ℕ} {bytes : List UInt8} (h : a < addr ∨ addr + bytes.length ≤ a) :
    write mem addr bytes a = mem a := by
  unfold write
  split
  · rw [List.getElem?_eq_none (by omega), Option.getD_none]
  · rfl

/-- A copy into a descriptor's own buffer leaves the others alone. -/
theorem write_other {bufs : Buffers} {mem : Memory} {bytes : List UInt8} {i j : Index} (hlen : bytes.length ≤ BUFFER_SIZE) (hij : i ≠ j) {k : ℕ}
    (hk : k < BUFFER_SIZE) : write mem (bufs.at j) bytes (bufs.at i + k) = mem (bufs.at i + k) := by
  refine write_of_outside ?_
  by_contra hin
  refine bufs.disjoint hij hk (show bufs.at i + k - bufs.at j < BUFFER_SIZE by omega) ?_
  omega

/-- Copying two pieces one behind the other. -/
theorem write_append (mem : Memory) (addr : ℕ) (front back : List UInt8) :
    write (write mem addr front) (addr + front.length) back = write mem addr (front ++ back) := by
  funext a
  simp only [write]
  by_cases hback : addr + front.length ≤ a
  · have hle : addr ≤ a := by omega
    rw [if_pos hback, if_pos hle, if_pos hle, List.getElem?_append_right (by omega),
      List.getElem?_eq_none (show front.length ≤ a - addr by omega), Option.getD_none, Nat.sub_sub]
  · rw [if_neg hback]
    by_cases hle : addr ≤ a
    · rw [if_pos hle, if_pos hle, List.getElem?_append_left (by omega)]
    · rw [if_neg hle, if_neg hle]

end os_dev.rtl8169
