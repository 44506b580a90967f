import OsDev.Core.Task

namespace os_dev.task

open task_state

/-- What a task function may do while it runs; the timer interrupt may come in between. -/
inductive Call where
  | create (name : List UInt8) (function priority : ℕ)
  | kill (id : ℕ)
  | sleep (ticks : ℕ)
  | tick

/-- What the kernel does at the top level. `yield` carries the calls that the
    function makes if this `task_yield` invokes one. -/
inductive Op where
  | create (name : List UInt8) (function priority : ℕ)
  | tick
  | yield (calls : List Call)

def Call.effect (st : Sched) : Call → Sched
  | .create name function priority => (task_create st name function priority).2
  | .kill id => task_kill st id
  | .sleep ticks => task_sleep st ticks
  | .tick => timer_handler st

def Op.effect (st : Sched) : Op → Sched
  | .create name function priority => (task_create st name function priority).2
  | .tick => timer_handler st
  | .yield calls => task_yield st fun st => calls.foldl Call.effect st

/-- The events of a run. Tasks are told apart by serial numbers, which unlike their
    32-bit ids are never used again; times are in ticks since the start. -/
inductive Event where
  | killed (serial : ℕ)
  | slept (serial ticks time : ℕ)
  | invoked (serial time : ℕ)
  deriving DecidableEq

/-- The scheduler together with a record of what has happened: the serial number of
    the task last put in each slot, the next serial number, and the events, newest first. -/
structure Run where
  sched : Sched
  serial : Slot → ℕ
  issued : ℕ
  trace : List Event

def Run.note (r : Run) (e : Event) : Run := { r with trace := e :: r.trace }

/-- Apply a scheduler function that leaves the record alone. -/
def Run.map (r : Run) (f : Sched → Sched) : Run := { r with sched := f r.sched }

/-- A new task gets the next serial number. -/
def Run.create (r : Run) (name : List UInt8) (function priority : ℕ) : Run :=
  match free_slot r.sched with
  | none => r.map fun st => (task_create st name function priority).2
  | some i =>
    { r.map (fun st => (task_create st name function priority).2) with
      serial := Function.update r.serial i r.issued, issued := r.issued + 1 }

/-- Only a call on a live task counts as a kill. -/
def Run.kill (r : Run) (id : ℕ) : Run :=
  match task_get r.sched id with
  | none => r.map fun st => task_kill st id
  | some i => (r.note (.killed (r.serial i))).map fun st => task_kill st id

def Run.sleep (r : Run) (ticks : ℕ) : Run :=
  (r.note (.slept (r.serial r.sched.current_task_id) ticks r.sched.now)).map fun st => task_sleep st ticks

def Run.call (r : Run) : Call → Run
  | .create name function priority => r.create name function priority
  | .kill id => r.kill id
  | .sleep ticks => r.sleep ticks
  | .tick => r.map timer_handler

def Run.calls (r : Run) (calls : List Call) : Run := calls.foldl Run.call r

/-- The invocation of the selected task, up to the call of its function. -/
def Run.enter (r : Run) : Run :=
  (r.note (.invoked (r.serial r.sched.current_task_id) r.sched.now)).map fun st => st.set_state TASK_RUNNING

def Run.leave (r : Run) : Run := r.map fun st => st.set_state TASK_READY

def Run.step (r : Run) : Op → Run
  | .create name function priority => r.create name function priority
  | .tick => r.map timer_handler
  | .yield calls =>
    let r := r.map select_task
    if r.sched.current.function ≠ 0 then (r.enter.calls calls).leave else r

def Run.run (r : Run) (ops : List Op) : Run := ops.foldl Run.step r

/-- The run that starts at `task_init`, after `now` ticks. -/
def init_run (now : ℕ) : Run where
  sched := task_init (static_state now)
  serial := fun i => i.val
  issued := MAX_TASKS
  trace := []

theorem Run.call_sched (r : Run) (c : Call) : (r.call c).sched = c.effect r.sched := by
  cases c with
  | create name function priority =>
    simp only [Run.call, Run.create, Call.effect]
    split <;> rfl
  | kill id =>
    simp only [Run.call, Run.kill, Call.effect]
    split <;> rfl
  | sleep ticks => rfl
  | tick => rfl

theorem Run.calls_sched (calls : List Call) (r : Run) : (r.calls calls).sched = calls.foldl Call.effect r.sched := by
  induction calls generalizing r with
  | nil => rfl
  | cons c calls ih =>
    have h := ih (r.call c)
    rw [Run.call_sched] at h
    exact h

/-- The record only watches: the scheduler runs as the source's functions say. -/
theorem Run.step_sched (r : Run) (op : Op) : (r.step op).sched = op.effect r.sched := by
  cases op with
  | create name function priority => exact Run.call_sched r (.create name function priority)
  | tick => rfl
  | yield calls =>
    simp only [Run.step, Op.effect, task_yield]
    by_cases hfun : (select_task r.sched).current.function ≠ 0
    · rw [if_pos hfun, if_pos (show (r.map select_task).sched.current.function ≠ 0 from hfun)]
      exact congrArg (fun st : Sched => st.set_state TASK_READY) (Run.calls_sched calls _)
    · rw [if_neg hfun, if_neg (show ¬ (r.map select_task).sched.current.function ≠ 0 from hfun)]
      rfl

/-- A condition on the steps of a run: on each call of a task function in the state
    it is made in, on the return of the function, and on each `task_yield`. -/
structure Guard where
  call : Sched → Call → Prop
  ret : Sched → Prop
  yield : Sched → Prop

def Guard.Calls (G : Guard) : Sched → List Call → Prop
  | st, [] => G.ret st
  | st, c :: calls => G.call st c ∧ G.Calls (c.effect st) calls

def Guard.Step (G : Guard) (st : Sched) : Op → Prop
  | .yield calls => G.yield st ∧
    ((select_task st).current.function ≠ 0 → G.Calls ((select_task st).set_state TASK_RUNNING) calls)
  | _ => True

def Guard.Ops (G : Guard) : Sched → List Op → Prop
  | _, [] => True
  | st, op :: ops => G.Step st op ∧ G.Ops (op.effect st) ops

/-- What every guarded call preserves holds at the return of a guarded function. -/
theorem Guard.Calls.preserved {G : Guard} {I : Run → Prop}
    (hcall : ∀ r c, I r → G.call r.sched c → I (r.call c)) (calls : List Call) (r : Run) (hr : I r)
    (h : G.Calls r.sched calls) : I (r.calls calls) ∧ G.ret (r.calls calls).sched := by
  induction calls generalizing r with
  | nil => exact ⟨hr, h⟩
  | cons c calls ih =>
    refine ih (r.call c) (hcall r c hr h.1) ?_
    rw [Run.call_sched]
    exact h.2

/-- What every guarded step preserves holds along a guarded run. -/
theorem Guard.Ops.preserved {G : Guard} {I : Run → Prop}
    (hstep : ∀ r op, I r → G.Step r.sched op → I (r.step op)) (ops : List Op) (r : Run) (hr : I r)
    (h : G.Ops r.sched ops) : I (r.run ops) := by
  induction ops generalizing r with
  | nil => exact hr
  | cons op ops ih =>
    refine ih (r.step op) (hstep r op hr h.1) ?_
    rw [Run.step_sched]
    exact h.2

/-- The serial numbers in the table are distinct and have been issued. -/
structure Run.Numbered (r : Run) : Prop where
  inj : Function.Injective r.serial
  lt : ∀ i, r.serial i < r.issued

theorem init_numbered (now : ℕ) : (init_run now).Numbered :=
  ⟨fun _ _ hij => Fin.ext hij, fun i => i.isLt⟩

theorem Run.Numbered.update {r : Run} (h : r.Numbered) (i : Slot) {st : Sched} :
    Run.Numbered { r with sched := st, serial := Function.update r.serial i r.issued, issued := r.issued + 1 } := by
  constructor
  · intro j k hjk
    simp only [Function.update_apply] at hjk
    have hj := h.lt j
    have hk := h.lt k
    split_ifs at hjk with h₁ h₂ h₂
    · rw [h₁, h₂]
    · omega
    · omega
    · exact h.inj hjk
  · intro j
    have hj := h.lt j
    simp only [Function.update_apply]
    split <;> omega

/-- How `create` changes a run: a task in a slot that was dead, or nothing. -/
theorem Run.create_cases (r : Run) (name : List UInt8) (function priority : ℕ) :
    (∃ i, (r.sched.tasks i).state = TASK_DEAD ∧ r.create name function priority =
        { r with
          sched := { r.sched with
            tasks := Function.update r.sched.tasks i
              (new_task (r.sched.tasks i) r.sched.next_task_id name function priority)
            next_task_id := (r.sched.next_task_id + 1) % 2 ^ 32 }
          serial := Function.update r.serial i r.issued
          issued := r.issued + 1 }) ∨
      r.create name function priority = r := by
  obtain ⟨i, hdead, hslot, heq⟩ | ⟨hslot, heq⟩ := task_create_cases r.sched name function priority
  · exact .inl ⟨i, hdead, by simp only [Run.create, hslot, Run.map, heq]⟩
  · exact .inr (by simp only [Run.create, hslot, Run.map, heq])

end os_dev.task
