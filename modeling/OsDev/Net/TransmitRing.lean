import OsDev.Net.Rtl8169
import OsDev.Lib.RingQueue

open ring_queue

namespace os_dev.rtl8169

variable {bufs : Buffers} {st : Tx} {i : Index} {frame : List UInt8} {tx_len : ℕ} {q : List (List UInt8)}

/-- A frame as it goes over the wire. -/
def padded (frame : List UInt8) : List UInt8 := frame ++ List.replicate (60 - frame.length) 0

theorem padded_length (frame : List UInt8) : (padded frame).length = max frame.length 60 := by
  rw [padded, List.length_append, List.length_replicate]
  omega

/-- The frames behind the descriptors that the device still has to take. -/
def Tx.queued (st : Tx) : List (List UInt8) :=
  (((List.range NUM_DESCS).map (place st.next)).takeWhile fun i => decide ((st.tx_ring i).own = true)).map fun i =>
    read st.mem (st.tx_ring i).buffer ((st.tx_ring i).command % 2 ^ 16)

/-- What a step leaves to the device: the descriptors that it owns and their buffers, and
    the whole ring unless the step accepts a frame. -/
structure Untouched (bufs : Buffers) (st st' : Tx) : Prop where
  descriptors : ∀ i, (st.tx_ring i).own = true → st'.tx_ring i = st.tx_ring i
  buffers : ∀ i, (st.tx_ring i).own = true → ∀ k < BUFFER_SIZE, st'.mem (bufs.at i + k) = st.mem (bufs.at i + k)
  ring : st'.accepted = st.accepted → st'.tx_ring = st.tx_ring

/-- No step of the driver in a run touches what the device owns. -/
def DriverRespects (bufs : Buffers) : Tx → List TxStep → Prop
  | _, [] => True
  | st, .device :: steps => DriverRespects bufs (st.step bufs .device) steps
  | st, s :: steps => Untouched bufs st (st.step bufs s) ∧ DriverRespects bufs (st.step bufs s) steps

/-- Every call finds its descriptor free: the device is less than a whole lap behind. -/
def RoomAtCalls (bufs : Buffers) : Tx → List TxStep → Prop
  | _, [] => True
  | st, .call frame :: steps =>
    (st.phase = .idle → (st.tx_ring st.tx_idx).own = false) ∧ RoomAtCalls bufs (st.step bufs (.call frame)) steps
  | st, s :: steps => RoomAtCalls bufs (st.step bufs s) steps

/-- A descriptor that carries a frame. -/
structure Carries (bufs : Buffers) (st : Tx) (i : Index) (frame : List UInt8) : Prop where
  buffer : (st.tx_ring i).buffer = bufs.at i
  len : (st.tx_ring i).command % 2 ^ 16 = frame.length
  fits : frame.length ≤ BUFFER_SIZE
  data : read st.mem (bufs.at i) frame.length = frame

/-- The buffer of the current descriptor holds the frame of the call that runs. -/
def InHand (bufs : Buffers) (st : Tx) (frame : List UInt8) (tx_len : ℕ) : Prop :=
  frame.length ≤ 1514 ∧ tx_len = (padded frame).length ∧ read st.mem (bufs.at st.tx_idx) tx_len = padded frame ∧
    (st.tx_ring st.tx_idx).own = false

/-- The ring is a queue of the frames that are accepted and not yet transmitted. -/
structure TxInv (bufs : Buffers) (st : Tx) (q : List (List UInt8)) : Prop where
  window : Window (fun i => (st.tx_ring i).own = true) (Carries bufs st) st.next q
  idx : st.tx_idx = place st.next q.length
  record : st.accepted.map padded = st.transmitted ++ q
  copied : ∀ frame tx_len, st.phase = .copied frame tx_len → InHand bufs st frame tx_len
  checked : ∀ frame tx_len, st.phase = .checked frame tx_len → InHand bufs st frame tx_len

theorem TxInv.queued (h : TxInv bufs st q) : st.queued = q := by
  refine h.window.read_off fun i frame hi => ?_
  rw [hi.buffer, hi.len, hi.data]

theorem init_own (mem : Memory) (i : Index) : ((tx_init mem).tx_ring i).own = false := by
  simp only [tx_init, rtl_desc_t.own]
  rfl

theorem tx_init_inv (bufs : Buffers) (mem : Memory) : TxInv bufs (tx_init mem) [] := by
  refine ⟨.empty (fun i => ?_) 0, (place_zero 0).symm, rfl, fun _ _ h => ?_, fun _ _ h => ?_⟩
  · rw [init_own]
    exact Bool.false_ne_true
  · cases h
  · cases h

/-- The copy as one write. -/
theorem copy_eq (bufs : Buffers) (st : Tx) (frame : List UInt8) :
    st.copy bufs frame =
      { st with mem := write st.mem (bufs.at st.tx_idx) (padded frame), phase := .copied frame (padded frame).length } := by
  have hlen := padded_length frame
  simp only [Tx.copy]
  split
  · rw [write_append, hlen, Nat.max_eq_right (by omega)]
    rfl
  · rw [padded, Nat.sub_eq_zero_of_le (by omega), List.replicate_zero, List.append_nil]

theorem Carries.congr {st' : Tx} (h : Carries bufs st i frame) (hring : st'.tx_ring i = st.tx_ring i)
    (hmem : ∀ k < BUFFER_SIZE, st'.mem (bufs.at i + k) = st.mem (bufs.at i + k)) : Carries bufs st' i frame := by
  have hfits := h.fits
  refine ⟨hring ▸ h.buffer, hring ▸ h.len, hfits, ?_⟩
  rw [read_congr fun k hk => hmem k (by omega), h.data]

theorem TxInv.call (h : TxInv bufs st q) (hlen : frame.length ≤ 1514) (hown : (st.tx_ring st.tx_idx).own = false) :
    TxInv bufs (st.copy bufs frame) q ∧ Untouched bufs st (st.copy bufs frame) := by
  have hpadded : (padded frame).length ≤ BUFFER_SIZE := by
    rw [padded_length, BUFFER_SIZE]
    omega
  have hother : ∀ i, (st.tx_ring i).own = true → ∀ k < BUFFER_SIZE,
      write st.mem (bufs.at st.tx_idx) (padded frame) (bufs.at i + k) = st.mem (bufs.at i + k) := by
    intro i hi k hk
    refine write_other hpadded (fun heq => ?_) hk
    rw [heq, hown] at hi
    cases hi
  rw [copy_eq]
  refine ⟨⟨h.window.congr (fun _ => Iff.rfl) fun i y hi hy => hy.congr rfl (hother i hi), h.idx, h.record,
    fun f n hphase => ?_, fun f n hphase => ?_⟩, fun _ _ => rfl, hother, fun _ => rfl⟩
  · obtain ⟨rfl, rfl⟩ := TxPhase.copied.inj hphase
    exact ⟨hlen, rfl, read_write _ _ _, hown⟩
  · cases hphase

theorem TxInv.check (h : TxInv bufs st q) (hphase : st.phase = .copied frame tx_len) :
    TxInv bufs (st.check frame tx_len) q ∧ Untouched bufs st (st.check frame tx_len) := by
  have hand := h.copied frame tx_len hphase
  have hown : ¬ (st.tx_ring st.tx_idx).own = true := by
    rw [hand.2.2.2]
    exact Bool.false_ne_true
  rw [Tx.check, if_neg hown]
  have hwindow : Window (fun i => (st.tx_ring i).own = true) (Carries bufs { st with phase := .checked frame tx_len }) st.next q :=
    h.window.congr (fun _ => Iff.rfl) fun _ _ _ hy => hy.congr rfl fun _ _ => rfl
  refine ⟨⟨hwindow, h.idx, h.record, fun f n heq => ?_, fun f n heq => ?_⟩, fun _ _ => rfl, fun _ _ _ _ => rfl, fun _ => rfl⟩
  · cases heq
  · obtain ⟨rfl, rfl⟩ := TxPhase.checked.inj heq
    exact hand

theorem tx_command_own (i : Index) (tx_len : ℕ) : (tx_command i tx_len).testBit 31 = true := by
  have hbit : (0x80000000 ||| 0x20000000 ||| 0x10000000 : ℕ).testBit 31 = true := by decide
  simp only [tx_command]
  split
  · rw [Nat.testBit_or, Nat.testBit_or, hbit, Bool.true_or, Bool.true_or]
  · rw [Nat.testBit_or, hbit, Bool.true_or]

theorem tx_command_len (i : Index) {tx_len : ℕ} (h : tx_len < 2 ^ 16) : tx_command i tx_len % 2 ^ 16 = tx_len := by
  have hlen : (0x80000000 ||| 0x20000000 ||| 0x10000000 ||| (tx_len % 2 ^ 16)) % 2 ^ 16 = tx_len := by
    rw [Nat.or_mod_two_pow, Nat.mod_mod, Nat.mod_eq_of_lt h]
    exact Nat.zero_or tx_len
  simp only [tx_command]
  split
  · rw [Nat.or_mod_two_pow, hlen]
    exact Nat.or_zero tx_len
  · exact hlen

theorem TxInv.hand_over (h : TxInv bufs st q) (hphase : st.phase = .checked frame tx_len) :
    TxInv bufs (st.hand_over bufs frame tx_len) (q ++ [padded frame]) ∧ Untouched bufs st (st.hand_over bufs frame tx_len) := by
  obtain ⟨hlen, rfl, hread, hown⟩ := h.checked frame tx_len hphase
  have hpadded : (padded frame).length ≤ BUFFER_SIZE := by
    rw [padded_length, BUFFER_SIZE]
    omega
  have hsmall : (padded frame).length < 2 ^ 16 := by
    rw [BUFFER_SIZE] at hpadded
    omega
  have hroom : q.length < NUM_DESCS := by
    rw [← h.window.not_full_iff, ← h.idx, hown]
    exact Bool.false_ne_true
  have hring : ∀ i, i ≠ st.tx_idx → (st.hand_over bufs frame (padded frame).length).tx_ring i = st.tx_ring i := by
    intro i hi
    simp only [Tx.hand_over, Function.update_of_ne hi]
  refine ⟨⟨?_, ?_, ?_, fun f n heq => ?_, fun f n heq => ?_⟩, fun i hi => ?_, fun _ _ _ _ => rfl, fun heq => ?_⟩
  · refine h.window.push hroom h.idx (fun i => ?_) (fun i y hi hy => hy.congr (hring i hi) fun _ _ => rfl) ?_
    · by_cases hi : i = st.tx_idx
      · subst hi
        refine iff_of_true ?_ (.inr rfl)
        simp only [Tx.hand_over, Function.update_self, rtl_desc_t.own]
        exact tx_command_own _ _
      · rw [hring i hi]
        exact (or_iff_left hi).symm
    · have haddr := bufs.at_lt st.tx_idx
      rw [BUFFER_SIZE] at haddr
      refine ⟨?_, ?_, hpadded, hread⟩
      · simp only [Tx.hand_over, Function.update_self]
        exact buffer_set_buffer (st.tx_ring st.tx_idx) (by omega)
      · simp only [Tx.hand_over, Function.update_self]
        exact tx_command_len _ hsmall
  · rw [List.length_append, List.length_singleton, ← place_add_one]
    exact congrArg (· + 1) h.idx
  · simp only [Tx.hand_over, List.map_append, List.map_cons, List.map_nil, h.record, List.append_assoc]
  · cases heq
  · cases heq
  · refine hring i fun heq => ?_
    rw [heq, hown] at hi
    cases hi
  · simp [Tx.hand_over] at heq

theorem own_mod (d : rtl_desc_t) : ({ d with command := d.command % 2 ^ 31 } : rtl_desc_t).own = false := by
  simp only [rtl_desc_t.own]
  exact Nat.testBit_lt_two_pow (Nat.mod_lt _ (by decide))

theorem TxInv.transmit (h : TxInv bufs st q) : ∃ q', TxInv bufs st.transmit q' := by
  by_cases hown : (st.tx_ring st.next).own = true
  · have hne := h.window.marked_start_iff.mp hown
    obtain ⟨frame, rest, rfl⟩ := List.exists_cons_of_ne_nil hne
    have hhead := h.window.head
    have hring : ∀ i, i ≠ st.next → st.transmit.tx_ring i = st.tx_ring i := by
      intro i hi
      simp only [Tx.transmit, if_pos hown, Function.update_of_ne hi]
    have hcleared : (st.transmit.tx_ring st.next).own = false := by
      simp only [Tx.transmit, if_pos hown, Function.update_self]
      exact own_mod _
    have hmem : st.transmit.mem = st.mem := by
      simp only [Tx.transmit]
      split <;> rfl
    have hidx : st.transmit.tx_idx = st.tx_idx := by
      simp only [Tx.transmit]
      split <;> rfl
    have hphase : st.transmit.phase = st.phase := by
      simp only [Tx.transmit]
      split <;> rfl
    have hnext : st.transmit.next = st.next + 1 := by simp only [Tx.transmit, if_pos hown]
    have hand : ∀ f n, InHand bufs st f n → InHand bufs st.transmit f n := by
      rintro f n ⟨hlen, hn, hread, hfree⟩
      refine ⟨hlen, hn, by rwa [hmem, hidx], ?_⟩
      rw [hidx, hring _ fun heq => ?_]
      · exact hfree
      · rw [heq, hown] at hfree
        cases hfree
    refine ⟨rest, ?_, ?_, ?_, fun f n hp => hand f n (h.copied f n (hphase ▸ hp)), fun f n hp => hand f n (h.checked f n (hphase ▸ hp))⟩
    · rw [hnext]
      refine h.window.pop (fun i => ?_) fun i y hi hy => hy.congr (hring i hi) fun _ _ => by rw [hmem]
      by_cases hi : i = st.next
      · subst hi
        rw [hcleared]
        exact iff_of_false Bool.false_ne_true fun hand => hand.2 rfl
      · rw [hring i hi]
        exact (and_iff_left hi).symm
    · rw [hidx, hnext, h.idx, List.length_cons, place_succ]
    · have hread : read st.mem (st.tx_ring st.next).buffer ((st.tx_ring st.next).command % 2 ^ 16) = frame := by
        rw [hhead.buffer, hhead.len, hhead.data]
      simp only [Tx.transmit, if_pos hown, hread, h.record, List.append_assoc, List.singleton_append]
  · refine ⟨q, ?_⟩
    rw [Tx.transmit, if_neg hown]
    exact h

theorem Untouched.refl (bufs : Buffers) (st : Tx) : Untouched bufs st st :=
  ⟨fun _ _ => rfl, fun _ _ _ _ => rfl, fun _ => rfl⟩

theorem TxInv.run (h : TxInv bufs st q) {steps : List TxStep}
    (hframes : ∀ frame, TxStep.call frame ∈ steps → frame.length ≤ 1514) (hroom : RoomAtCalls bufs st steps) :
    DriverRespects bufs st steps ∧ ∃ q', TxInv bufs (st.run bufs steps) q' := by
  induction steps generalizing st q with
  | nil => exact ⟨trivial, q, h⟩
  | cons s steps ih =>
    have hrest := fun frame hmem => hframes frame (List.mem_cons_of_mem s hmem)
    cases s with
    | call frame =>
      have hstep : TxInv bufs (st.step bufs (.call frame)) q ∧ Untouched bufs st (st.step bufs (.call frame)) := by
        simp only [Tx.step]
        split
        · exact h.call (hframes frame List.mem_cons_self) (hroom.1 ‹_›)
        · exact ⟨h, .refl bufs st⟩
      obtain ⟨hrespects, hinv⟩ := ih hstep.1 hrest hroom.2
      exact ⟨⟨hstep.2, hrespects⟩, hinv⟩
    | advance =>
      have hstep : ∃ q', TxInv bufs (st.step bufs .advance) q' ∧ Untouched bufs st (st.step bufs .advance) := by
        simp only [Tx.step]
        split
        · exact ⟨q, h, .refl bufs st⟩
        · exact ⟨q, h.check ‹_›⟩
        · exact ⟨_, h.hand_over ‹_›⟩
      obtain ⟨q', hinv', huntouched⟩ := hstep
      obtain ⟨hrespects, hinv⟩ := ih hinv' hrest hroom
      exact ⟨⟨huntouched, hrespects⟩, hinv⟩
    | device =>
      obtain ⟨q', hinv'⟩ := h.transmit
      exact ih hinv' hrest hroom

/-- In every interleaving of calls with device steps in which each call finds its
    descriptor free: the driver touches nothing that the device owns, and the frames
    accepted are those transmitted and, behind them, those still queued. -/
theorem transmit_ring_protocol (bufs : Buffers) (mem : Memory) (steps : List TxStep)
    (hframes : ∀ frame, TxStep.call frame ∈ steps → frame.length ≤ 1514)
    (hroom : RoomAtCalls bufs (tx_init mem) steps) :
    DriverRespects bufs (tx_init mem) steps ∧
      (((tx_init mem).run bufs steps).accepted.map padded =
        ((tx_init mem).run bufs steps).transmitted ++ ((tx_init mem).run bufs steps).queued) := by
  obtain ⟨hrespects, q, hinv⟩ := (tx_init_inv bufs mem).run hframes hroom
  refine ⟨hrespects, ?_⟩
  rw [hinv.queued]
  exact hinv.record

/-- A call in one go. -/
def whole_call (frame : List UInt8) : List TxStep := [.call frame, .advance, .advance]

def small_bufs : Buffers := ⟨0x200000, by decide⟩

/-- Two frames, the first of which is transmitted while the second is being copied. -/
theorem transmit_ring_protocol_two :
    let steps := whole_call [1, 2] ++ [.call [3], .device, .advance, .advance]
    DriverRespects small_bufs (tx_init fun _ => 7) steps ∧
      (((tx_init fun _ => 7).run small_bufs steps).accepted.map padded =
        ((tx_init fun _ => 7).run small_bufs steps).transmitted ++ ((tx_init fun _ => 7).run small_bufs steps).queued) := by
  refine transmit_ring_protocol small_bufs (fun _ => 7) _ (fun frame hmem => ?_) ?_
  · simp only [whole_call, List.cons_append, List.nil_append, List.mem_cons, TxStep.call.injEq, reduceCtorEq, false_or,
      List.not_mem_nil, or_false] at hmem
    obtain rfl | rfl := hmem <;> decide
  · exact ⟨fun _ => by decide, fun _ => by decide, trivial⟩

/-- With a full ring a refused call overwrites the oldest frame, which the device then
    transmits. -/
theorem full_ring_overwritten :
    let full := (tx_init fun _ => 0).run small_bufs ((List.replicate 64 (whole_call [1])).flatten)
    let refused := full.run small_bufs (whole_call [2])
    refused.result = some .ERR_BUF ∧ refused.accepted = List.replicate 64 [1] ∧
      ¬ Untouched small_bufs full (full.step small_bufs (.call [2])) ∧
      (refused.run small_bufs [.device]).transmitted = [padded [2]] := by
  refine ⟨by decide +kernel, by decide +kernel, fun huntouched => ?_, by decide +kernel⟩
  have hbyte := huntouched.buffers 0 (by decide +kernel) 0 (by decide)
  revert hbyte
  decide +kernel

end os_dev.rtl8169
