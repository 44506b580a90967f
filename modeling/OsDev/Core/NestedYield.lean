import OsDev.Core.TaskRuns

namespace os_dev.task

open task_state

/-- What a task function may do when it may also call `task_yield`. The calls that the
    function invoked by that `task_yield` makes are inside. -/
inductive Act where
  | create (name : List UInt8) (function priority : ℕ)
  | kill (id : ℕ)
  | sleep (ticks : ℕ)
  | tick
  | yield (acts : List Act)

/-- What `kmain` does, and the timer interrupt. -/
inductive TopAct where
  | create (name : List UInt8) (function priority : ℕ)
  | tick
  | yield (acts : List Act)

mutual

def Act.effect : Act → Sched → Sched
  | .create name function priority, st => (task_create st name function priority).2
  | .kill id, st => task_kill st id
  | .sleep ticks, st => task_sleep st ticks
  | .tick, st => timer_handler st
  | .yield acts, st => task_yield st (acts_effect acts)

def acts_effect : List Act → Sched → Sched
  | [], st => st
  | a :: acts, st => acts_effect acts (a.effect st)

end

def TopAct.effect (st : Sched) : TopAct → Sched
  | .create name function priority => (task_create st name function priority).2
  | .tick => timer_handler st
  | .yield acts => task_yield st (acts_effect acts)

/-- What `task_yield` does to a run: `call` is what the invoked function makes of it, given the
    serial number of its task. -/
def Run.invoke (r : Run) (call : ℕ → Run → Run) : Run :=
  let r := r.map select_task
  if r.sched.current.function ≠ 0 then (call (r.serial r.sched.current_task_id) r.enter).leave else r

mutual

/-- A call of the function of task `me`. -/
def Run.act (me : ℕ) : Act → Run → Run
  | .create name function priority, r => r.create name function priority
  | .kill id, r => r.kill id
  | .sleep ticks, r => (r.note (.slept me ticks r.sched.now)).map fun st => task_sleep st ticks
  | .tick, r => r.map timer_handler
  | .yield acts, r => r.invoke fun me => Run.acts me acts

def Run.acts (me : ℕ) : List Act → Run → Run
  | [], r => r
  | a :: acts, r => Run.acts me acts (Run.act me a r)

end

def Run.top (r : Run) : TopAct → Run
  | .create name function priority => r.create name function priority
  | .tick => r.map timer_handler
  | .yield acts => r.invoke fun me => Run.acts me acts

def Run.tops (r : Run) (acts : List TopAct) : Run := acts.foldl Run.top r

theorem Run.invoke_sched {r : Run} {call : ℕ → Run → Run} {effect : Sched → Sched}
    (hcall : ∀ me r', (call me r').sched = effect r'.sched) : (r.invoke call).sched = task_yield r.sched effect := by
  unfold Run.invoke task_yield
  by_cases hfun : (select_task r.sched).current.function ≠ 0
  · rw [if_pos hfun, if_pos (show (r.map select_task).sched.current.function ≠ 0 from hfun)]
    exact congrArg (fun st : Sched => st.set_state TASK_READY) (hcall _ _)
  · rw [if_neg hfun, if_neg (show ¬ (r.map select_task).sched.current.function ≠ 0 from hfun)]
    rfl

mutual

/-- The record of a nested call only watches, too. -/
theorem Run.act_sched (me : ℕ) (a : Act) (r : Run) : (Run.act me a r).sched = a.effect r.sched := by
  cases a with
  | create name function priority => exact Run.call_sched r (.create name function priority)
  | kill id => exact Run.call_sched r (.kill id)
  | sleep ticks => rfl
  | tick => rfl
  | yield acts => exact Run.invoke_sched fun me r' => Run.acts_sched me acts r'

theorem Run.acts_sched (me : ℕ) (acts : List Act) (r : Run) : (Run.acts me acts r).sched = acts_effect acts r.sched := by
  cases acts with
  | nil => rfl
  | cons a acts =>
    have hrest := Run.acts_sched me acts (Run.act me a r)
    rwa [Run.act_sched me a r] at hrest

end

theorem Run.top_sched (r : Run) (a : TopAct) : (r.top a).sched = a.effect r.sched := by
  cases a with
  | create name function priority => exact Run.call_sched r (.create name function priority)
  | tick => rfl
  | yield acts => exact Run.invoke_sched fun me r' => Run.acts_sched me acts r'

/-- A slot that is in the middle of something: its task runs or waits. -/
def Busy (st : Sched) (i : Slot) : Prop := (st.tasks i).state = TASK_RUNNING ∨ (st.tasks i).state = TASK_WAITING

mutual

/-- The calls of the function that runs in slot `own`: whenever it sleeps or returns,
    and whenever a function below it does, the current slot is its own. -/
def Act.InOwnSlot (own : Slot) : Act → Sched → Prop
  | .sleep _, st => st.current_task_id = own
  | .yield acts, st => (select_task st).current.function ≠ 0 →
      ActsInOwnSlot (select_task st).current_task_id acts ((select_task st).set_state TASK_RUNNING)
  | _, _ => True

def ActsInOwnSlot (own : Slot) : List Act → Sched → Prop
  | [], st => st.current_task_id = own
  | a :: acts, st => a.InOwnSlot own st ∧ ActsInOwnSlot own acts (a.effect st)

end

/-- The same for a step of `kmain`. -/
def TopAct.InOwnSlot (st : Sched) : TopAct → Prop
  | .yield acts => (select_task st).current.function ≠ 0 →
      ActsInOwnSlot (select_task st).current_task_id acts ((select_task st).set_state TASK_RUNNING)
  | _ => True

def TopActsInOwnSlot : Sched → List TopAct → Prop
  | _, [] => True
  | st, a :: acts => a.InOwnSlot st ∧ TopActsInOwnSlot (a.effect st) acts

theorem not_busy_of_ready {st : Sched} {i : Slot} (h : (st.tasks i).state = TASK_READY) : ¬ Busy st i := by
  simp [Busy, h]

theorem busy_set {st : Sched} {i j : Slot} {f : task_t → task_t} (h : Busy (st.set i f) j) : j = i ∨ Busy st j := by
  by_cases hji : j = i
  · exact .inl hji
  · rw [Busy, Sched.set_tasks, if_neg hji] at h
    exact .inr h

theorem busy_set_state {st : Sched} {j : Slot} {s : task_state} (h : Busy (st.set_state s) j) :
    j = st.current_task_id ∨ Busy st j := busy_set h

theorem not_busy_set_ready (st : Sched) : ¬ Busy (st.set_state TASK_READY) st.current_task_id :=
  not_busy_of_ready (by simp [Sched.set_state, Sched.set_tasks])

theorem busy_create {st : Sched} {name : List UInt8} {function priority : ℕ} {j : Slot}
    (h : Busy (task_create st name function priority).2 j) : Busy st j := by
  obtain ⟨i, -, -, heq⟩ | ⟨-, heq⟩ := task_create_cases st name function priority
  · rw [heq, Busy] at h
    simp only [Function.update_apply] at h
    split at h
    · simp [new_task] at h
    · exact h
  · rwa [heq] at h

theorem busy_kill {st : Sched} {id : ℕ} {j : Slot} (h : Busy (task_kill st id) j) : Busy st j := by
  unfold task_kill at h
  split at h
  · exact h
  · rename_i i _
    by_cases hji : j = i
    · subst hji
      simp [Busy, Sched.set_tasks] at h
    · exact (busy_set h).resolve_left hji

theorem busy_select {st : Sched} {j : Slot} (h : Busy (select_task st) j) : Busy st j := by
  have hcases := select_task_cases st
  generalize select_task st = st' at hcases h
  cases hcases with
  | woken i helig =>
    by_cases hji : j = i
    · subst hji
      rw [Busy, Sched.set_tasks, if_pos rfl] at h
      exact h
    · exact (busy_set h).resolve_left hji
  | fallback _ => exact h

/-- A `task_yield` whose function returns in its own slot leaves nobody busy that was not. -/
theorem busy_yield {st : Sched} {call : Sched → Sched} {j : Slot}
    (hcall : (select_task st).current.function ≠ 0 →
      (call ((select_task st).set_state TASK_RUNNING)).current_task_id = (select_task st).current_task_id ∧
        (Busy (call ((select_task st).set_state TASK_RUNNING)) j →
          j = (select_task st).current_task_id ∨ Busy ((select_task st).set_state TASK_RUNNING) j))
    (h : Busy (task_yield st call) j) : Busy st j := by
  simp only [task_yield] at h
  split at h
  · rename_i hfun
    obtain ⟨hcur, hbusy⟩ := hcall hfun
    by_cases hown : j = (select_task st).current_task_id
    · -- the slot of the function is ready again
      rw [hown, ← hcur] at h
      exact absurd h (not_busy_set_ready _)
    · obtain heq | h := busy_set_state h
      · exact absurd (heq.trans hcur) hown
      · exact busy_select ((busy_set_state ((hbusy h).resolve_left hown)).resolve_left hown)
  · exact busy_select h

mutual

/-- What a call in its own slot leaves busy: at most the slot itself. -/
theorem Act.busy_effect {own : Slot} {j : Slot} (a : Act) (st : Sched) (hown : a.InOwnSlot own st)
    (h : Busy (a.effect st) j) : j = own ∨ Busy st j := by
  cases a with
  | create name function priority => exact .inr (busy_create h)
  | kill id => exact .inr (busy_kill h)
  | sleep ticks =>
    rw [Act.effect, task_sleep] at h
    obtain heq | h := busy_set h
    · exact .inl (heq.trans hown)
    · exact .inr h
  | tick => exact .inr h
  | yield acts => exact .inr (busy_yield (fun hfun => acts_busy_effect acts _ (hown hfun)) h)

theorem acts_busy_effect {own : Slot} {j : Slot} (acts : List Act) (st : Sched) (hown : ActsInOwnSlot own acts st) :
    (acts_effect acts st).current_task_id = own ∧ (Busy (acts_effect acts st) j → j = own ∨ Busy st j) := by
  cases acts with
  | nil => exact ⟨hown, .inr⟩
  | cons a acts =>
    obtain ⟨hcur, hbusy⟩ := acts_busy_effect acts (a.effect st) hown.2
    refine ⟨hcur, fun h => ?_⟩
    obtain heq | h := hbusy h
    · exact .inl heq
    · exact a.busy_effect st hown.1 h

end

theorem TopAct.busy_effect {st : Sched} {j : Slot} (a : TopAct) (hown : a.InOwnSlot st) (h : Busy (a.effect st) j) :
    Busy st j := by
  cases a with
  | create name function priority => exact busy_create h
  | tick => exact h
  | yield acts => exact busy_yield (fun hfun => acts_busy_effect acts _ (hown hfun)) h

theorem top_acts_not_busy {st : Sched} (h : ∀ i, ¬ Busy st i) (acts : List TopAct) (hown : TopActsInOwnSlot st acts) :
    ∀ i, ¬ Busy (acts.foldl TopAct.effect st) i := by
  induction acts generalizing st with
  | nil => exact h
  | cons a acts ih => exact ih (fun i hbusy => h i (a.busy_effect hown.1 hbusy)) hown.2

/-- Whenever `kmain` is back in its loop no slot is running (nor waiting), in any run
    whose functions all sleep and return in their own slots. -/
theorem no_task_left_running (now : ℕ) (acts : List TopAct)
    (hown : TopActsInOwnSlot (task_init (static_state now)) acts) (i : Slot) :
    ((acts.foldl TopAct.effect (task_init (static_state now))).tasks i).state = TASK_READY ∨
      ((acts.foldl TopAct.effect (task_init (static_state now))).tasks i).state = TASK_DEAD := by
  have hinit : ∀ i, ¬ Busy (task_init (static_state now)) i := by
    intro i
    simp only [task_init, Busy, Sched.set_tasks]
    split <;> simp
  have hfree := top_acts_not_busy hinit acts hown i
  unfold Busy at hfree
  cases hstate : ((acts.foldl TopAct.effect (task_init (static_state now))).tasks i).state with
  | TASK_READY => exact .inl rfl
  | TASK_RUNNING => exact absurd (.inl hstate) hfree
  | TASK_WAITING => exact absurd (.inr hstate) hfree
  | TASK_DEAD => exact .inr rfl

/-- Create a task whose function kills the idle task, calls `task_yield` and, when that
    invokes it again, sleeps. -/
def lone_acts : List TopAct := [.create [] 1 1, .yield [.kill 0, .yield [.sleep 3]]]

theorem no_task_left_running_lone :
    TopActsInOwnSlot (task_init (static_state 0)) lone_acts ∧
      ∀ i, ((lone_acts.foldl TopAct.effect (task_init (static_state 0))).tasks i).state = TASK_READY ∨
        ((lone_acts.foldl TopAct.effect (task_init (static_state 0))).tasks i).state = TASK_DEAD := by
  have hown : TopActsInOwnSlot (task_init (static_state 0)) lone_acts := by
    refine ⟨trivial, fun _ => ⟨trivial, fun _ => ⟨?_, ?_⟩, ?_⟩, trivial⟩
    · change _ = _
      decide +kernel
    · change _ = _
      decide +kernel
    · change _ = _
      decide +kernel
  exact ⟨hown, no_task_left_running 0 lone_acts hown⟩

/-- A nested `task_yield` that moves on to the idle task leaves its caller running. -/
theorem nested_yield_leaves_running :
    ∃ i, ((([.create [] 1 1, .yield [.yield []]] : List TopAct).foldl TopAct.effect
      (task_init (static_state 0))).tasks i).state = TASK_RUNNING := ⟨1, by decide +kernel⟩

end os_dev.task
