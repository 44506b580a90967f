import OsDev.Lib.RingQueue
import Mathlib.Algebra.Group.Fin.Basic

open ring_queue

namespace os_dev.keyboard

/-- Where a call of `kbd_get` stands: between any two of its statements the keyboard interrupt may come. -/
inductive Consumer
  | idle
  | entered
  | tested
  | fetched (c : UInt8)
  | returning (c : UInt8)
deriving DecidableEq

/-- The ring between the interrupt and the shell, with a record of what went in and what came out. -/
structure Keyboard where
  kbd_buffer : Fin 256 → UInt8
  kbd_head : Fin 256
  kbd_tail : Fin 256
  consumer : Consumer
  accepted : List UInt8
  returned : List UInt8

def boot : Keyboard where
  kbd_buffer := fun _ => 0
  kbd_head := 0
  kbd_tail := 0
  consumer := .idle
  accepted := []
  returned := []

def Keyboard.kbd_put (st : Keyboard) (c : UInt8) : Keyboard :=
  let next := st.kbd_head + 1
  if next ≠ st.kbd_tail then
    { st with
      kbd_buffer := Function.update st.kbd_buffer st.kbd_head c
      kbd_head := next
      accepted := st.accepted ++ [c] }
  else st

/-- The next statement of `kbd_get`, or the next call of it. -/
def Keyboard.kbd_get (st : Keyboard) : Keyboard :=
  match st.consumer with
  | .idle => { st with consumer := .entered }
  | .entered => { st with consumer := if st.kbd_head = st.kbd_tail then .returning 0 else .tested }
  | .tested => { st with consumer := .fetched (st.kbd_buffer st.kbd_tail) }
  | .fetched c => { st with kbd_tail := st.kbd_tail + 1, consumer := .returning c }
  | .returning c => { st with consumer := .idle, returned := st.returned ++ [c] }

inductive Event
  | irq (c : UInt8)
  | shell

def Keyboard.step (st : Keyboard) : Event → Keyboard
  | .irq c => st.kbd_put c
  | .shell => st.kbd_get

/-- The keyboard after a run from boot. -/
def run (evs : List Event) : Keyboard := evs.foldl Keyboard.step boot

/-- The characters in the ring. -/
def Keyboard.pending (st : Keyboard) : List UInt8 := (span st.kbd_tail st.kbd_head).map st.kbd_buffer

/-- The character that a call of `kbd_get` has taken out and not yet returned. -/
def Keyboard.in_hand (st : Keyboard) : List UInt8 :=
  match st.consumer with
  | .returning c => [c]
  | _ => []

/-- A queue that holds up to 255 characters. -/
def enqueue (q : List UInt8) (c : UInt8) : List UInt8 := if q.length < 255 then q ++ [c] else q

variable {st : Keyboard} {c : UInt8} {evs : List Event}

theorem Keyboard.length_pending (st : Keyboard) : st.pending.length = dist st.kbd_tail st.kbd_head := by
  rw [pending, List.length_map, length_span]

theorem Keyboard.pending_le (st : Keyboard) : st.pending.length ≤ 255 := by
  rw [length_pending]
  exact Nat.le_of_lt_succ (dist_lt st.kbd_tail st.kbd_head)

/-- One slot stays free: the ring is full when the head has come around to the slot before the tail. -/
theorem Keyboard.full_iff (st : Keyboard) : st.kbd_head + 1 = st.kbd_tail ↔ st.pending.length = 255 := by
  rw [length_pending]
  constructor
  · exact dist_before
  · intro hfull
    by_contra hne
    have hnext := dist_add_one hne
    have hlt := dist_lt st.kbd_tail (st.kbd_head + 1)
    omega

theorem Keyboard.pending_eq_nil_iff (st : Keyboard) : st.pending = [] ↔ st.kbd_head = st.kbd_tail := by
  rw [pending, List.map_eq_nil_iff, span_eq_nil_iff, eq_comm]

theorem Keyboard.pending_of_ne (h : st.kbd_head ≠ st.kbd_tail) :
    st.pending = st.kbd_buffer st.kbd_tail :: (span (st.kbd_tail + 1) st.kbd_head).map st.kbd_buffer := by
  rw [pending, span_of_ne h, List.map_cons]

theorem Keyboard.put_dropped (h : st.pending.length = 255) : st.kbd_put c = st := by
  rw [kbd_put, if_neg (not_not_intro (st.full_iff.mpr h))]

/-- A put into a ring with room writes the free slot, which no pending character stands in. -/
theorem Keyboard.put_accepted (h : st.pending.length ≠ 255) :
    (st.kbd_put c).pending = st.pending ++ [c] ∧ (st.kbd_put c).accepted = st.accepted ++ [c] ∧
      (st.kbd_put c).returned = st.returned ∧ (st.kbd_put c).consumer = st.consumer := by
  have hroom : st.kbd_head + 1 ≠ st.kbd_tail := fun hfull => h (st.full_iff.mp hfull)
  rw [kbd_put, if_pos hroom]
  refine ⟨?_, rfl, rfl, rfl⟩
  simp only [pending, span_add_one hroom, List.map_append, List.map_singleton, Function.update_self]
  congr 1
  refine List.map_congr_left fun i hi => Function.update_of_ne (fun heq => ?_) _ _
  rw [heq] at hi
  exact not_mem_span _ _ hi

theorem Keyboard.put_consumer (st : Keyboard) (c : UInt8) : (st.kbd_put c).consumer = st.consumer := by
  by_cases hfull : st.pending.length = 255
  · rw [put_dropped hfull]
  · exact (put_accepted hfull).2.2.2

theorem Keyboard.put_enqueues (st : Keyboard) (c : UInt8) : (st.kbd_put c).pending = enqueue st.pending c := by
  have hle := st.pending_le
  rw [enqueue]
  split
  · exact (put_accepted (by omega)).1
  · rw [put_dropped (by omega)]

/-- What a call of `kbd_get` in progress relies on, whatever the interrupt has put in since. -/
structure Keyboard.Inv (st : Keyboard) : Prop where
  tested : st.consumer = .tested → st.pending ≠ []
  fetched : ∀ c, st.consumer = .fetched c → ∃ q, st.pending = c :: q
  order : (st.returned ++ st.in_hand).filter (· ≠ 0) ++ st.pending = st.accepted
  nonzero : ∀ c ∈ st.accepted, c ≠ 0

theorem boot_inv : boot.Inv := by
  refine ⟨fun h => ?_, fun c h => ?_, ?_, fun c h => ?_⟩
  · cases h
  · cases h
  · rfl
  · cases h

theorem Keyboard.Inv.put (h : st.Inv) (hc : c ≠ 0) : (st.kbd_put c).Inv := by
  by_cases hfull : st.pending.length = 255
  · rwa [put_dropped hfull]
  · obtain ⟨hpending, haccepted, hreturned, hconsumer⟩ := put_accepted (c := c) hfull
    refine ⟨fun htested => ?_, fun x hx => ?_, ?_, fun x hx => ?_⟩
    · rw [hpending]
      exact List.append_ne_nil_of_right_ne_nil _ (List.cons_ne_nil c [])
    · rw [hconsumer] at hx
      obtain ⟨q, hq⟩ := h.fetched x hx
      exact ⟨q ++ [c], by rw [hpending, hq, List.cons_append]⟩
    · rw [hpending, haccepted, hreturned, in_hand, hconsumer, ← List.append_assoc]
      exact congrArg (· ++ [c]) h.order
    · rw [haccepted, List.mem_append, List.mem_singleton] at hx
      obtain hx | rfl := hx
      · exact h.nonzero x hx
      · exact hc

/-- The update of the tail takes the first character out, and it is the one that was read. -/
theorem Keyboard.Inv.takes (h : st.Inv) (hc : st.consumer = .fetched c) :
    st.pending = c :: st.kbd_get.pending := by
  obtain ⟨q, hq⟩ := h.fetched c hc
  have hne : st.kbd_head ≠ st.kbd_tail := by
    rw [ne_eq, ← st.pending_eq_nil_iff, hq]
    exact List.cons_ne_nil c q
  have hpending := pending_of_ne hne
  have hnext : st.kbd_get.pending = (span (st.kbd_tail + 1) st.kbd_head).map st.kbd_buffer := by
    simp only [kbd_get, hc, pending]
  rw [hnext, hpending, List.cons.injEq]
  refine ⟨?_, rfl⟩
  rw [hq, List.cons.injEq] at hpending
  exact hpending.1.symm

/-- No other statement of `kbd_get` changes what is pending. -/
theorem Keyboard.get_pending (hc : ∀ c, st.consumer ≠ .fetched c) : st.kbd_get.pending = st.pending := by
  cases hconsumer : st.consumer with
  | fetched c => exact absurd hconsumer (hc c)
  | _ => simp only [kbd_get, hconsumer, pending]

theorem Keyboard.get_accepted (st : Keyboard) : st.kbd_get.accepted = st.accepted := by
  cases hconsumer : st.consumer <;> simp only [kbd_get, hconsumer]

theorem Keyboard.Inv.get (h : st.Inv) : st.kbd_get.Inv := by
  have hnonzero : ∀ c ∈ st.kbd_get.accepted, c ≠ 0 := by
    rw [get_accepted]
    exact h.nonzero
  have horder := h.order
  cases hconsumer : st.consumer with
  | idle =>
    refine ⟨?_, ?_, ?_, hnonzero⟩ <;> simp_all [kbd_get, pending, in_hand]
  | entered =>
    have hpending := st.pending_eq_nil_iff
    refine ⟨?_, ?_, ?_, hnonzero⟩ <;> by_cases hempty : st.kbd_head = st.kbd_tail <;>
      simp_all [kbd_get, pending, in_hand]
  | tested =>
    have hne : st.kbd_head ≠ st.kbd_tail := fun hempty => h.tested hconsumer (st.pending_eq_nil_iff.mpr hempty)
    have hpending := pending_of_ne hne
    refine ⟨?_, ?_, ?_, hnonzero⟩ <;> simp_all [kbd_get, pending, in_hand]
  | fetched c =>
    have htakes := h.takes hconsumer
    have hc : c ≠ 0 := h.nonzero c (by rw [← h.order, htakes]; simp)
    refine ⟨?_, ?_, ?_, hnonzero⟩
    · simp [kbd_get, hconsumer]
    · simp [kbd_get, hconsumer]
    · rw [get_accepted, ← h.order, htakes]
      simp [kbd_get, hconsumer, in_hand, hc]
  | returning c =>
    refine ⟨?_, ?_, ?_, hnonzero⟩ <;> simp_all [kbd_get, pending, in_hand]

/-- Only characters come from the interrupt. -/
def Characters (evs : List Event) : Prop := ∀ c, .irq c ∈ evs → c ≠ 0

theorem run_concat (evs : List Event) (e : Event) : run (evs ++ [e]) = (run evs).step e := by
  rw [run, List.foldl_concat]
  rfl

theorem Characters.left {evs' : List Event} (h : Characters (evs ++ evs')) : Characters evs :=
  fun c hc => h c (List.mem_append_left evs' hc)

theorem run_inv (h : Characters evs) : (run evs).Inv := by
  induction evs using List.reverseRecOn with
  | nil => exact boot_inv
  | append_singleton evs e ih =>
    rw [run_concat]
    cases e with
    | irq c => exact (ih h.left).put (h c (List.mem_append_right evs List.mem_cons_self))
    | shell => exact (ih h.left).get

/-- At some point of the call of `kbd_get` that runs, the ring was empty. -/
def EmptyInCall (evs : List Event) : Prop :=
  ∃ pre post, evs = pre ++ post ∧ (run pre).pending = [] ∧ ∀ mid, mid <+: post → (run (pre ++ mid)).consumer ≠ .idle

theorem EmptyInCall.concat {e : Event} (h : EmptyInCall evs) (hcall : (run (evs ++ [e])).consumer ≠ .idle) :
    EmptyInCall (evs ++ [e]) := by
  obtain ⟨pre, post, rfl, hempty, hbusy⟩ := h
  refine ⟨pre, post ++ [e], List.append_assoc _ _ _, hempty, fun mid hmid => ?_⟩
  obtain rfl | hmid := List.prefix_concat_iff.mp hmid
  · rwa [← List.append_assoc]
  · exact hbusy mid hmid

theorem EmptyInCall.now (hempty : (run evs).pending = []) (hcall : (run evs).consumer ≠ .idle) : EmptyInCall evs := by
  refine ⟨evs, [], (List.append_nil evs).symm, hempty, fun mid hmid => ?_⟩
  rwa [List.prefix_nil.mp hmid, List.append_nil]

/-- A call that is about to return 0 has found the ring empty. -/
theorem empty_of_returning (h : Characters evs) (hzero : (run evs).consumer = .returning 0) : EmptyInCall evs := by
  induction evs using List.reverseRecOn with
  | nil => cases hzero
  | append_singleton evs e ih =>
    have hcall : (run (evs ++ [e])).consumer ≠ .idle := by
      rw [hzero]
      exact Consumer.noConfusion
    have hinv := run_inv h.left
    rw [run_concat] at hzero
    cases e with
    | irq c =>
      rw [Keyboard.step, Keyboard.put_consumer] at hzero
      exact (ih h.left hzero).concat hcall
    | shell =>
      rw [Keyboard.step] at hzero
      cases hconsumer : (run evs).consumer with
      | entered =>
        by_cases hempty : (run evs).kbd_head = (run evs).kbd_tail
        · refine EmptyInCall.concat (.now ((run evs).pending_eq_nil_iff.mpr hempty) ?_) hcall
          rw [hconsumer]
          exact Consumer.noConfusion
        · simp [Keyboard.kbd_get, hconsumer, hempty] at hzero
      | fetched c =>
        -- a pending character is never 0
        obtain ⟨q, hq⟩ := hinv.fetched c hconsumer
        obtain rfl : c = 0 := by simpa [Keyboard.kbd_get, hconsumer] using hzero
        have hmem : (0 : UInt8) ∈ (run evs).accepted := by
          rw [← hinv.order, hq]
          exact List.mem_append_right _ List.mem_cons_self
        exact absurd rfl (hinv.nonzero 0 hmem)
      | idle => simp [Keyboard.kbd_get, hconsumer] at hzero
      | tested => simp [Keyboard.kbd_get, hconsumer] at hzero
      | returning c => simp [Keyboard.kbd_get, hconsumer] at hzero

/-- The ring behaves as a queue of 255 characters: a put enqueues, the update of the tail in
    `kbd_get` dequeues and every other statement leaves the queue alone. -/
structure Keyboard.Queue (st : Keyboard) : Prop where
  bound : st.pending.length ≤ 255
  put : ∀ c, (st.kbd_put c).pending = enqueue st.pending c
  drops : ∀ c, (st.kbd_put c).accepted = st.accepted → st.pending.length = 255
  take : ∀ c, st.consumer = .fetched c → st.pending = c :: st.kbd_get.pending
  keep : (∀ c, st.consumer ≠ .fetched c) → st.kbd_get.pending = st.pending

theorem Keyboard.Inv.queue (h : st.Inv) : st.Queue := by
  refine ⟨st.pending_le, st.put_enqueues, fun c hsame => ?_, fun c => h.takes, get_pending⟩
  by_contra hroom
  have haccepted := (put_accepted (c := c) hroom).2.1
  rw [hsame] at haccepted
  exact List.cons_ne_nil c [] (List.append_right_eq_self.mp haccepted.symm)

/-- Over every interleaving of the interrupt with the statements of `kbd_get`, the ring is a
    bounded queue, what comes out is what was accepted, in order, and a call returns 0 only if
    the ring was empty during the call. -/
theorem kbd_bounded_fifo (evs : List Event) (hchars : Characters evs) :
    (run evs).Queue ∧
      ((run evs).returned ++ (run evs).in_hand).filter (· ≠ 0) ++ (run evs).pending = (run evs).accepted ∧
      ((run evs).consumer = .returning 0 → EmptyInCall evs) := by
  have hinv := run_inv hchars
  exact ⟨hinv.queue, hinv.order, empty_of_returning hchars⟩

/-- Two characters come in around the test of a first call. -/
theorem kbd_bounded_fifo_two_keys :
    (run [.irq 104, .shell, .shell, .irq 105, .shell, .shell, .shell]).returned = [104] ∧
      (run [.irq 104, .shell, .shell, .irq 105, .shell, .shell, .shell]).pending = [105] ∧
      (run [.irq 104, .shell, .shell, .irq 105, .shell, .shell, .shell]).Queue :=
  ⟨by decide +kernel, by decide +kernel, (kbd_bounded_fifo _ (by simp [Characters])).1⟩

end os_dev.keyboard
