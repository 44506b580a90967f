import Mathlib.Data.Fin.Basic
import Mathlib.Logic.Function.Basic
import Mathlib.Data.List.FinRange
import Mathlib.Tactic.Ring

namespace os_dev.task

/-- The states of a slot of the task table. -/
inductive task_state where
  | TASK_READY
  | TASK_RUNNING
  | TASK_WAITING
  | TASK_DEAD
  deriving DecidableEq

open task_state

def MAX_TASKS : ℕ := 32

instance : NeZero MAX_TASKS := ⟨by decide⟩

/-- A slot of the task table. The saved registers, which no function reads, are
    left out; a function is its address, and zero is the null pointer. -/
structure task_t where
  id : ℕ
  name : List UInt8
  state : task_state
  priority : ℕ
  function : ℕ
  ticks_used : ℕ
  wake_time : ℕ
  deriving DecidableEq

abbrev Slot := Fin MAX_TASKS

/-- The static variables of the scheduler and the clock. `now` counts the timer
    interrupts without the wrap of the 32-bit counter. -/
structure Sched where
  tasks : Slot → task_t
  next_task_id : ℕ
  current_task_id : Slot
  now : ℕ

/-- The counter that `timer_handler` increments. -/
def timer_get_ticks (st : Sched) : ℕ := st.now % 2 ^ 32

def timer_handler (st : Sched) : Sched := { st with now := st.now + 1 }

def Sched.current (st : Sched) : task_t := st.tasks st.current_task_id

/-- Rewrite one slot of the table. -/
def Sched.set (st : Sched) (i : Slot) (f : task_t → task_t) : Sched :=
  { st with tasks := Function.update st.tasks i (f (st.tasks i)) }

/-- The zeroed variables of the kernel image, after `now` interrupts. -/
def static_state (now : ℕ) : Sched where
  tasks := fun _ =>
    { id := 0, name := List.replicate 32 0, state := TASK_READY, priority := 0, function := 0,
      ticks_used := 0, wake_time := 0 }
  next_task_id := 0
  current_task_id := 0
  now := now

def idle_name : List UInt8 := [0x69, 0x64, 0x6C, 0x65] ++ List.replicate 28 0

def task_init (st : Sched) : Sched :=
  let st := { st with tasks := fun i => { st.tasks i with state := TASK_DEAD, id := 0 } }
  let st := st.set 0 fun t =>
    { t with id := st.next_task_id, state := TASK_READY, priority := 0, ticks_used := 0, name := idle_name }
  { st with next_task_id := (st.next_task_id + 1) % 2 ^ 32 }

/-- `int` seen through the bits of a `uint32_t`. -/
def as_int (n : ℕ) : ℤ := if n < 2 ^ 31 then n else (n : ℤ) - 2 ^ 32

/-- Copy at most 31 characters of a string and end them by a zero; the bytes behind stay. -/
def copy_name (name old : List UInt8) : List UInt8 :=
  let chars := (name.takeWhile (· ≠ 0)).take 31
  chars ++ 0 :: old.drop (chars.length + 1)

/-- The first dead slot from slot 1 on. -/
def free_slot (st : Sched) : Option Slot :=
  (List.finRange MAX_TASKS).tail.find? fun i => (st.tasks i).state = TASK_DEAD

/-- What `task_create` writes into the slot that held `old`. -/
def new_task (old : task_t) (id : ℕ) (name : List UInt8) (function priority : ℕ) : task_t :=
  { old with id, state := TASK_READY, priority, function, ticks_used := 0, wake_time := 0,
             name := copy_name name old.name }

def task_create (st : Sched) (name : List UInt8) (function priority : ℕ) : ℤ × Sched :=
  match free_slot st with
  | none => (-1, st)
  | some i =>
    let st' := st.set i fun t => new_task t st.next_task_id name function priority
    (as_int st.next_task_id, { st' with next_task_id := (st.next_task_id + 1) % 2 ^ 32 })

/-- The first slot that carries `id`, dead or alive. -/
def find_id (st : Sched) (id : ℕ) : Option Slot :=
  (List.finRange MAX_TASKS).find? fun i => (st.tasks i).id = id

def task_kill (st : Sched) (id : ℕ) : Sched :=
  match find_id st id with
  | none => st
  | some i => st.set i fun t => { t with state := TASK_DEAD }

/-- The slot that `task_get` returns a pointer to. -/
def task_get (st : Sched) (id : ℕ) : Option Slot :=
  (List.finRange MAX_TASKS).find? fun i => (st.tasks i).id = id ∧ (st.tasks i).state ≠ TASK_DEAD

/-- The test of the selection loop. -/
def Eligible (st : Sched) (i : Slot) : Prop :=
  (st.tasks i).state = TASK_READY ∧
    (0 < (st.tasks i).wake_time → (st.tasks i).wake_time ≤ timer_get_ticks st)

instance (st : Sched) (i : Slot) : Decidable (Eligible st i) :=
  inferInstanceAs (Decidable (_ ∧ _))

/-- The selection loop of `task_yield`, cut off after `rounds` rounds. A break clears
    the wake time, which is zero already for a task that was not sleeping. -/
def select_loop (start : Slot) : ℕ → Sched → Sched
  | 0, st => st
  | rounds + 1, st =>
    let st := { st with current_task_id := st.current_task_id + 1 }
    if Eligible st st.current_task_id then st.set st.current_task_id fun t => { t with wake_time := 0 }
    else if st.current_task_id ≠ start then select_loop start rounds st
    else st

/-- The loop is back at its start after `MAX_TASKS` rounds. -/
def select_task (st : Sched) : Sched := select_loop st.current_task_id MAX_TASKS st

def Sched.set_state (st : Sched) (s : task_state) : Sched :=
  st.set st.current_task_id fun t => { t with state := s }

/-- `call` is the effect of the function that gets invoked. -/
def task_yield (st : Sched) (call : Sched → Sched) : Sched :=
  let st := select_task st
  if st.current.function ≠ 0 then (call (st.set_state TASK_RUNNING)).set_state TASK_READY
  else st

def task_sleep (st : Sched) (ticks : ℕ) : Sched :=
  st.set st.current_task_id fun t =>
    { t with wake_time := (timer_get_ticks st + ticks) % 2 ^ 32, state := TASK_WAITING }

/-- The `set` of a slot seen from any slot. -/
theorem Sched.set_tasks (st : Sched) (i j : Slot) (f : task_t → task_t) :
    (st.set i f).tasks j = if j = i then f (st.tasks i) else st.tasks j := by
  simp only [Sched.set, Function.update_apply]

@[simp] theorem Sched.set_current (st : Sched) (i : Slot) (f : task_t → task_t) :
    (st.set i f).current_task_id = st.current_task_id := rfl

@[simp] theorem Sched.set_now (st : Sched) (i : Slot) (f : task_t → task_t) : (st.set i f).now = st.now := rfl

@[simp] theorem Sched.set_next (st : Sched) (i : Slot) (f : task_t → task_t) :
    (st.set i f).next_task_id = st.next_task_id := rfl

@[simp] theorem Sched.set_ticks (st : Sched) (i : Slot) (f : task_t → task_t) :
    timer_get_ticks (st.set i f) = timer_get_ticks st := rfl

/-- How a selection ends: at an eligible slot, which is then awake, or back at the
    slot it started from when no slot is eligible. -/
inductive Selected (st : Sched) : Sched → Prop
  | woken (i : Slot) (h : Eligible st i) :
      Selected st ({ st with current_task_id := i }.set i fun t => { t with wake_time := 0 })
  | fallback (h : ∀ i, ¬ Eligible st i) : Selected st st

/-- The slot `n` places after slot 0, around the table. -/
def slot_at (n : ℕ) : Slot := ⟨n % MAX_TASKS, Nat.mod_lt _ (by decide)⟩

theorem slot_at_val (n : ℕ) : (slot_at n).val = n % 32 := rfl

theorem slot_at_succ (n : ℕ) : slot_at n + 1 = slot_at (n + 1) := by
  apply Fin.ext
  rw [Fin.val_add, slot_at_val, slot_at_val]
  exact Nat.mod_add_mod n 32 1

theorem slot_at_of_val (i : Slot) : slot_at i.val = i :=
  Fin.ext (Nat.mod_eq_of_lt i.isLt)

/-- One run of the loop from place `n`, with `rounds + 1` places left to the start: it
    ends at the first eligible slot. -/
theorem select_loop_cases (st : Sched) {start : Slot} (rounds n : ℕ) (hend : slot_at (n + rounds + 1) = start)
    (hrounds : rounds < MAX_TASKS) :
    (∃ k ≤ rounds, Eligible st (slot_at (n + 1 + k)) ∧ (∀ j < k, ¬ Eligible st (slot_at (n + 1 + j))) ∧
        select_loop start (rounds + 1) { st with current_task_id := slot_at n } =
          { st with current_task_id := slot_at (n + 1 + k) }.set (slot_at (n + 1 + k)) fun t => { t with wake_time := 0 }) ∨
      (∀ j < rounds + 1, ¬ Eligible st (slot_at (n + 1 + j))) ∧
        select_loop start (rounds + 1) { st with current_task_id := slot_at n } =
          { st with current_task_id := start } := by
  induction rounds generalizing n with
  | zero =>
    simp only [select_loop, slot_at_succ n]
    by_cases helig : Eligible st (slot_at (n + 1))
    · left
      refine ⟨0, le_rfl, helig, fun j hj => absurd hj (Nat.not_lt_zero j), ?_⟩
      rw [if_pos (show Eligible { st with current_task_id := slot_at (n + 1) } _ from helig)]
    · right
      refine ⟨fun j hj => ?_, ?_⟩
      · rwa [show j = 0 by omega]
      · rw [if_neg (show ¬ Eligible { st with current_task_id := slot_at (n + 1) } _ from helig)]
        simp [← hend]
  | succ rounds ih =>
    rw [select_loop]
    simp only [slot_at_succ n]
    by_cases helig : Eligible st (slot_at (n + 1))
    · left
      refine ⟨0, Nat.zero_le _, helig, fun j hj => absurd hj (Nat.not_lt_zero j), ?_⟩
      rw [if_pos (show Eligible { st with current_task_id := slot_at (n + 1) } _ from helig)]
    · rw [if_neg (show ¬ Eligible { st with current_task_id := slot_at (n + 1) } _ from helig), if_pos]
      · have hshift : ∀ j, n + 1 + 1 + j = n + 1 + (j + 1) := by omega
        have hbefore : ∀ k, (∀ j < k, ¬ Eligible st (slot_at (n + 1 + 1 + j))) →
            ∀ j < k + 1, ¬ Eligible st (slot_at (n + 1 + j)) := by
          intro k hnone j hj
          cases j with
          | zero => exact helig
          | succ j =>
            rw [← hshift]
            exact hnone j (by omega)
        obtain ⟨k, hk, hi, hnone, heq⟩ | ⟨hnone, heq⟩ := ih (n + 1) (by rw [← hend]; congr 1; omega) (by omega)
        · rw [hshift] at hi heq
          exact .inl ⟨k + 1, by omega, hi, hbefore k hnone, heq⟩
        · exact .inr ⟨hbefore (rounds + 1) hnone, heq⟩
      · -- fewer rounds than slots are left, so the start lies ahead
        intro hsame
        have hval := congrArg Fin.val (hsame.trans hend.symm)
        simp only [slot_at_val] at hval
        have hbound : rounds + 1 < 32 := hrounds
        omega

/-- How many slots lie between two slots, going up around the table. -/
def slots_between (i j : Slot) : ℕ := (j.val + 31 - i.val) % 32

theorem slot_at_between (i j : Slot) : slot_at (i.val + 1 + slots_between i j) = j := by
  have hi : i.val < 32 := i.isLt
  have hj : j.val < 32 := j.isLt
  apply Fin.ext
  rw [slot_at_val, slots_between]
  omega

/-- The selection ends at the first eligible slot after the current one. -/
theorem select_task_first (st : Sched) :
    (∃ i, Eligible st i ∧ (∀ j, slots_between st.current_task_id j < slots_between st.current_task_id i → ¬ Eligible st j) ∧
        select_task st = { st with current_task_id := i }.set i fun t => { t with wake_time := 0 }) ∨
      (∀ i, ¬ Eligible st i) ∧ select_task st = st := by
  have hcur : st.current_task_id.val < 32 := st.current_task_id.isLt
  have hend : slot_at (st.current_task_id.val + 31 + 1) = st.current_task_id := by
    apply Fin.ext
    rw [slot_at_val]
    omega
  have hloop := select_loop_cases st 31 st.current_task_id.val hend (by decide)
  rw [slot_at_of_val] at hloop
  obtain ⟨k, hk, hi, hnone, heq⟩ | ⟨hnone, heq⟩ := hloop
  · refine .inl ⟨slot_at (st.current_task_id.val + 1 + k), hi, fun j hj => ?_, heq⟩
    have hbetween : slots_between st.current_task_id (slot_at (st.current_task_id.val + 1 + k)) = k := by
      rw [slots_between, slot_at_val]
      omega
    rw [hbetween] at hj
    rw [← slot_at_between st.current_task_id j]
    exact hnone _ hj
  · refine .inr ⟨fun i => ?_, heq⟩
    rw [← slot_at_between st.current_task_id i]
    exact hnone _ (Nat.mod_lt _ (by decide))

theorem select_task_cases (st : Sched) : Selected st (select_task st) := by
  obtain ⟨i, hi, -, heq⟩ | ⟨hnone, heq⟩ := select_task_first st
  · rw [heq]
    exact .woken i hi
  · rw [heq]
    exact .fallback hnone

/-- What a call of `task_create` can do. -/
theorem task_create_cases (st : Sched) (name : List UInt8) (function priority : ℕ) :
    (∃ i, (st.tasks i).state = TASK_DEAD ∧ free_slot st = some i ∧
        (task_create st name function priority).2 =
          { st with
            tasks := Function.update st.tasks i (new_task (st.tasks i) st.next_task_id name function priority)
            next_task_id := (st.next_task_id + 1) % 2 ^ 32 }) ∨
      free_slot st = none ∧ (task_create st name function priority).2 = st := by
  cases hslot : free_slot st with
  | none => exact .inr ⟨rfl, by simp [task_create, hslot]⟩
  | some i =>
    have hdead : (st.tasks i).state = TASK_DEAD := by simpa using List.find?_some hslot
    exact .inl ⟨i, hdead, rfl, by simp [task_create, hslot, Sched.set]⟩

end os_dev.task
