import OsDev.Net.Rtl8169
import OsDev.Lib.RingQueue

open ring_queue

namespace os_dev.rtl8169

variable {bufs : Buffers} {st : Rx} {i : Index} {frame : RxFrame} {q : List RxFrame}

/-- What the stack gets of a frame, by the answer of `pbuf_alloc`. -/
def delivered (arrival : RxFrame × Bool) : Option (List UInt8) :=
  if 0 < arrival.1.len ∧ arrival.1.len ≤ BUFFER_SIZE ∧ arrival.2 = true then some arrival.1.data else none

/-- A descriptor that the device has filled with a frame. -/
structure Filled (bufs : Buffers) (st : Rx) (i : Index) (frame : RxFrame) : Prop where
  len : (st.rx_ring i).command % 2 ^ 14 = frame.len
  data : read st.mem (bufs.at i) frame.data.length = frame.data

/-- The ring is a queue of the frames that have arrived and are not yet released. -/
structure RxInv (bufs : Buffers) (st : Rx) (q : List RxFrame) : Prop where
  window : Window (fun i => (st.rx_ring i).own = false) (Filled bufs st) st.rx_idx q
  next : st.next = place st.rx_idx q.length
  buffer : ∀ i, (st.rx_ring i).buffer = bufs.at i
  wrap : ∀ i, (st.rx_ring i).own = true → ((st.rx_ring i).end_of_ring = true ↔ i.val = NUM_DESCS - 1)
  record : ∃ released, st.arrived = released ++ q ∧ st.allocs.length = released.length + st.processed.toNat
  busy : st.processed = true → q ≠ []
  input : st.input = (st.arrived.zip st.allocs).filterMap delivered

theorem rx_command_own (i : Index) : (rx_command i).testBit 31 = true := by
  have hbit : (0x80000000 ||| 1536 : ℕ).testBit 31 = true := by decide
  simp only [rx_command]
  split
  · rw [Nat.testBit_or, hbit, Bool.true_or]
  · exact hbit

theorem rx_command_wrap (i : Index) : (rx_command i).testBit 30 = true ↔ i.val = NUM_DESCS - 1 := by
  simp only [rx_command]
  split
  · rename_i hlast
    exact iff_of_true (by decide) hlast
  · rename_i hlast
    exact iff_of_false (by decide) hlast

theorem rx_init_inv (bufs : Buffers) (mem : Memory) : RxInv bufs (rx_init bufs mem) [] where
  window := .empty (fun i => by
    simp only [rx_init, rtl_desc_t.own, rx_command_own]
    exact Bool.true_eq_false_eq_False) 0
  next := (place_zero 0).symm
  buffer := fun i => by
    have haddr := bufs.at_lt i
    rw [BUFFER_SIZE] at haddr
    exact buffer_set_buffer ⟨0, 0, 0, 0⟩ (by omega)
  wrap := fun i _ => rx_command_wrap i
  record := ⟨[], rfl, rfl⟩
  busy := fun h => by cases h
  input := rfl

theorem RxFrame.data_of_le (hlen : frame.len ≤ BUFFER_SIZE) : frame.data.length = frame.len := by
  rw [frame.data_length, Nat.min_eq_left hlen]

theorem Filled.congr {st' : Rx} (h : Filled bufs st i frame) (hring : st'.rx_ring i = st.rx_ring i)
    (hmem : ∀ k < BUFFER_SIZE, st'.mem (bufs.at i + k) = st.mem (bufs.at i + k)) : Filled bufs st' i frame := by
  have hlen := frame.data_length
  refine ⟨hring ▸ h.len, ?_⟩
  rw [read_congr fun k hk => hmem k (by omega), h.data]

theorem zip_front {α β : Type} {front back : List α} {l : List β} (h : front.length = l.length) :
    (front ++ back).zip l = front.zip l := by
  have hzip : (front ++ back).zip (l ++ []) = front.zip l ++ back.zip [] := List.zip_append h
  rwa [List.append_nil, List.zip_nil_right, List.append_nil] at hzip

/-- A new arrival does not change what has been handled. -/
theorem zip_arrival {arrived : List RxFrame} {allocs : List Bool} (hle : allocs.length ≤ arrived.length) (frame : RxFrame) :
    (arrived ++ [frame]).zip allocs = arrived.zip allocs := by
  have hfront : (arrived.take allocs.length).length = allocs.length := by
    rw [List.length_take, Nat.min_eq_left hle]
  rw [← List.take_append_drop allocs.length arrived, List.append_assoc, zip_front hfront, zip_front hfront]

theorem RxInv.allocs_le (h : RxInv bufs st q) : st.allocs.length ≤ st.arrived.length := by
  obtain ⟨released, harrived, hallocs⟩ := h.record
  rw [harrived, List.length_append, hallocs]
  cases hprocessed : st.processed with
  | false => exact Nat.add_le_add_left (Nat.zero_le _) _
  | true => exact Nat.add_le_add_left (List.length_pos_iff.mpr (h.busy hprocessed)) _

/-- With an empty queue the loop is left. -/
theorem RxInv.handle_nil (h : RxInv bufs st []) (alloc : Bool) : st.handle bufs alloc = st := by
  have hown : (st.rx_ring st.rx_idx).own = true := by
    by_contra hfree
    exact h.window.marked_start_iff.mp (Bool.eq_false_iff.mpr hfree) rfl
  simp only [Rx.handle, if_pos hown]

/-- Handling the first frame of the queue. -/
theorem RxInv.handle_cons (h : RxInv bufs st (frame :: q)) (alloc : Bool) :
    st.handle bufs alloc = { st with
      processed := true
      allocs := st.allocs ++ [alloc]
      input := st.input ++ (delivered (frame, alloc)).toList } := by
  have hown : ¬ (st.rx_ring st.rx_idx).own = true := by
    rw [h.window.marked_start_iff.mpr (List.cons_ne_nil _ _)]
    exact Bool.false_ne_true
  have hhead := h.window.head
  simp only [Rx.handle, if_neg hown, hhead.len, delivered]
  split
  · rename_i hcond
    rw [← RxFrame.data_of_le hcond.2.1, hhead.data]
    rfl
  · rw [Option.toList_none, List.append_nil]

theorem RxInv.handle (h : RxInv bufs st q) (hidle : st.processed = false) (alloc : Bool) :
    RxInv bufs (st.handle bufs alloc) q := by
  cases q with
  | nil =>
    rw [h.handle_nil]
    exact h
  | cons frame rest =>
    obtain ⟨released, harrived, hallocs⟩ := h.record
    rw [hidle, Bool.toNat_false, Nat.add_zero] at hallocs
    rw [h.handle_cons]
    refine ⟨h.window.congr (fun _ => Iff.rfl) fun _ _ _ hy => hy.congr rfl fun _ _ => rfl, h.next, h.buffer, h.wrap,
      ⟨released, harrived, ?_⟩, fun _ => List.cons_ne_nil _ _, ?_⟩
    · rw [List.length_append, hallocs]
      rfl
    · have hsplit : st.arrived = (released ++ [frame]) ++ rest := by
        rw [harrived, List.append_assoc, List.singleton_append]
      have hafter : st.arrived.zip (st.allocs ++ [alloc]) = released.zip st.allocs ++ [(frame, alloc)] := by
        rw [hsplit, zip_front (by rw [List.length_append, List.length_append, hallocs]; rfl), List.zip_append hallocs.symm]
        rfl
      have hbefore : st.arrived.zip st.allocs = released.zip st.allocs := by
        rw [harrived, zip_front hallocs.symm]
      change st.input ++ _ = (st.arrived.zip (st.allocs ++ [alloc])).filterMap delivered
      rw [hafter, List.filterMap_append, h.input, hbefore]
      congr 1

theorem RxInv.give_back (h : RxInv bufs st (frame :: q)) (hbusy : st.processed = true) : RxInv bufs st.give_back q := by
  have hself : st.give_back.rx_ring st.rx_idx = { st.rx_ring st.rx_idx with command := rx_command st.rx_idx } := by
    simp only [Rx.give_back, Function.update_self]
  have hring : ∀ i, i ≠ st.rx_idx → st.give_back.rx_ring i = st.rx_ring i := by
    intro i hi
    simp only [Rx.give_back, Function.update_of_ne hi]
  obtain ⟨released, harrived, hallocs⟩ := h.record
  refine ⟨?_, ?_, fun i => ?_, fun i hi => ?_, ⟨released ++ [frame], ?_, ?_⟩, nofun, h.input⟩
  · refine h.window.pop (fun i => ?_) fun i y hi hy => hy.congr (hring i hi) fun _ _ => rfl
    by_cases hi : i = st.rx_idx
    · subst hi
      refine iff_of_false ?_ fun hand => hand.2 rfl
      rw [hself, rtl_desc_t.own, rx_command_own]
      exact Bool.true_eq_false_eq_False
    · rw [hring i hi]
      exact (and_iff_left hi).symm
  · exact h.next.trans (place_succ st.rx_idx q.length)
  · by_cases hi : i = st.rx_idx
    · subst hi
      rw [hself]
      exact h.buffer st.rx_idx
    · rw [hring i hi]
      exact h.buffer i
  · by_cases heq : i = st.rx_idx
    · subst heq
      rw [hself]
      exact rx_command_wrap st.rx_idx
    · rw [hring i heq] at hi ⊢
      exact h.wrap i hi
  · rw [List.append_assoc, List.singleton_append]
    exact harrived
  · rw [hbusy] at hallocs
    rw [List.length_append]
    exact hallocs

theorem RxInv.fill (h : RxInv bufs st q) (frame : RxFrame) : ∃ q', RxInv bufs (st.fill frame) q' := by
  by_cases hown : (st.rx_ring st.next).own = true
  · refine ⟨q ++ [frame], ?_⟩
    have hfill : st.fill frame = { st with
        mem := write st.mem (bufs.at st.next) frame.data
        rx_ring := Function.update st.rx_ring st.next { st.rx_ring st.next with command := frame.flags * 2 ^ 14 + frame.len }
        next := st.next + 1
        arrived := st.arrived ++ [frame] } := by
      simp only [Rx.fill, if_pos hown, h.buffer]
    have hroom : q.length < NUM_DESCS := by
      rw [← h.window.not_full_iff, ← h.next, hown]
      exact Bool.true_eq_false_eq_False
    have hlen := frame.data_length
    have hself : (st.fill frame).rx_ring st.next =
        { st.rx_ring st.next with command := frame.flags * 2 ^ 14 + frame.len } := by
      rw [hfill]
      exact Function.update_self ..
    have hring : ∀ i, i ≠ st.next → (st.fill frame).rx_ring i = st.rx_ring i := by
      intro i hi
      rw [hfill]
      exact Function.update_of_ne hi ..
    have hfree : ((st.fill frame).rx_ring st.next).own = false := by
      rw [hself, rtl_desc_t.own]
      have hflags := frame.flags_lt
      have hsmall := frame.len_lt
      refine Nat.testBit_lt_two_pow ?_
      change frame.flags * 2 ^ 14 + frame.len < 2 ^ 31
      omega
    have hmem : ∀ i, i ≠ st.next → ∀ k < BUFFER_SIZE, (st.fill frame).mem (bufs.at i + k) = st.mem (bufs.at i + k) := by
      intro i hi k hk
      rw [hfill]
      exact write_other (by omega) hi hk
    refine ⟨?_, ?_, fun i => ?_, fun i hi => ?_, ?_, ?_, ?_⟩
    · have hidx : (st.fill frame).rx_idx = st.rx_idx := by rw [hfill]
      rw [hidx]
      refine h.window.push hroom h.next (fun i => ?_) (fun i y hi hy => hy.congr (hring i hi) (hmem i hi)) ⟨?_, ?_⟩
      · by_cases hi : i = st.next
        · subst hi
          exact iff_of_true hfree (.inr rfl)
        · rw [hring i hi]
          exact (or_iff_left hi).symm
      · have hsmall := frame.len_lt
        rw [hself]
        change (frame.flags * 2 ^ 14 + frame.len) % 2 ^ 14 = frame.len
        omega
      · rw [hfill]
        exact read_write _ _ _
    · rw [hfill, List.length_append, List.length_singleton, ← place_add_one]
      exact congrArg (· + 1) h.next
    · by_cases hi : i = st.next
      · subst hi
        rw [hself]
        exact h.buffer st.next
      · rw [hring i hi]
        exact h.buffer i
    · have hne : i ≠ st.next := by
        intro heq
        rw [heq, hfree] at hi
        cases hi
      rw [hring i hne] at hi ⊢
      exact h.wrap i hi
    · obtain ⟨released, harrived, hallocs⟩ := h.record
      refine ⟨released, ?_, by rw [hfill]; exact hallocs⟩
      rw [hfill, ← List.append_assoc, ← harrived]
    · intro _
      exact List.append_ne_nil_of_right_ne_nil q (List.cons_ne_nil frame [])
    · rw [hfill]
      change st.input = ((st.arrived ++ [frame]).zip st.allocs).filterMap delivered
      rw [zip_arrival h.allocs_le]
      exact h.input
  · refine ⟨q, ?_⟩
    simp only [Rx.fill, if_neg hown]
    exact h

theorem RxInv.step (h : RxInv bufs st q) (s : RxStep) : ∃ q', RxInv bufs (st.step bufs s) q' := by
  cases s with
  | poll alloc =>
    simp only [Rx.step]
    split
    · rename_i hbusy
      obtain ⟨frame, rest, rfl⟩ := List.exists_cons_of_ne_nil (h.busy hbusy)
      exact ⟨rest, h.give_back hbusy⟩
    · rename_i hidle
      exact ⟨q, h.handle (Bool.eq_false_iff.mpr hidle) alloc⟩
  | device frame => exact h.fill frame

theorem RxInv.run (h : RxInv bufs st q) (steps : List RxStep) : ∃ q', RxInv bufs (st.run bufs steps) q' := by
  induction steps generalizing st q with
  | nil => exact ⟨q, h⟩
  | cons s steps ih =>
    obtain ⟨q', h'⟩ := h.step s
    exact ih h'

/-- Polling without new arrivals works off the whole queue. -/
theorem RxInv.poll_all (h : RxInv bufs st q) (allocs : List Bool) (hlong : 2 * q.length ≤ allocs.length + st.processed.toNat) :
    RxInv bufs (st.run bufs (allocs.map .poll)) [] ∧ (st.run bufs (allocs.map .poll)).processed = false ∧
      (st.run bufs (allocs.map .poll)).arrived = st.arrived := by
  induction allocs generalizing st q with
  | nil =>
    have hbool := Bool.toNat_le st.processed
    have hnil : q = [] := List.length_eq_zero_iff.mp (by rw [List.length_nil] at hlong; omega)
    subst hnil
    have hidle : st.processed = false := by
      by_contra hbusy
      exact h.busy (Bool.eq_true_of_not_eq_false hbusy) rfl
    exact ⟨h, hidle, rfl⟩
  | cons alloc allocs ih =>
    rw [List.length_cons] at hlong
    rw [List.map_cons]
    change RxInv bufs ((st.step bufs (.poll alloc)).run bufs _) [] ∧ ((st.step bufs (.poll alloc)).run bufs _).processed = false ∧
      ((st.step bufs (.poll alloc)).run bufs _).arrived = st.arrived
    cases hprocessed : st.processed with
    | true =>
      obtain ⟨frame, rest, rfl⟩ := List.exists_cons_of_ne_nil (h.busy hprocessed)
      simp only [Rx.step, hprocessed, if_true]
      rw [hprocessed, List.length_cons, Bool.toNat_true] at hlong
      exact ih (h.give_back hprocessed) (by omega)
    | false =>
      simp only [Rx.step, hprocessed, Bool.false_eq_true, if_false]
      have hstep := h.handle hprocessed alloc
      rw [hprocessed, Bool.toNat_false] at hlong
      cases q with
      | nil =>
        rw [h.handle_nil]
        exact ih h (by rw [List.length_nil]; omega)
      | cons frame rest =>
        obtain ⟨hinv, hidle, harrived⟩ := ih hstep (by rw [h.handle_cons, Bool.toNat_true]; omega)
        refine ⟨hinv, hidle, harrived.trans ?_⟩
        rw [h.handle_cons]

/-- In every interleaving of polls with arrivals: the descriptors that the driver has are
    a run from `rx_idx` on, as long as the frames that are not yet released; an owned
    descriptor has the end-of-ring bit exactly at the end of the ring; and the stack has
    got the frames handled so far, in order of arrival. Polling on handles all of them. -/
theorem receive_ring_protocol (bufs : Buffers) (mem : Memory) (steps : List RxStep) :
    let st := (rx_init bufs mem).run bufs steps
    (∃ m, (∀ i, (st.rx_ring i).own = false ↔ dist st.rx_idx i < m) ∧
      st.arrived.length + st.processed.toNat = st.allocs.length + m) ∧
    (∀ i, (st.rx_ring i).own = true → ((st.rx_ring i).end_of_ring = true ↔ i.val = NUM_DESCS - 1)) ∧
    st.allocs.length ≤ st.arrived.length ∧
    st.input = (st.arrived.zip st.allocs).filterMap delivered ∧
    ∀ allocs : List Bool, 2 * NUM_DESCS ≤ allocs.length →
      let polled := st.run bufs (allocs.map .poll)
      polled.arrived = st.arrived ∧ polled.allocs.length = st.arrived.length ∧
        polled.input = (st.arrived.zip polled.allocs).filterMap delivered := by
  intro st
  obtain ⟨q, h⟩ := (rx_init_inv bufs mem).run steps
  refine ⟨⟨q.length, h.window.marked_iff, ?_⟩, h.wrap, h.allocs_le, h.input, fun allocs hlong => ?_⟩
  · obtain ⟨released, harrived, hallocs⟩ := h.record
    rw [harrived, List.length_append, hallocs]
    exact Nat.add_right_comm _ _ _
  · have hfits := h.window.fits
    obtain ⟨hinv, hidle, harrived⟩ := h.poll_all allocs (by omega)
    obtain ⟨released, hsplit, hallocs⟩ := hinv.record
    refine ⟨harrived, ?_, ?_⟩
    · rw [hallocs, hidle, Bool.toNat_false, Nat.add_zero, ← harrived, hsplit, List.append_nil]
    · rw [hinv.input, harrived]

end os_dev.rtl8169
