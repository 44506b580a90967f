import OsDev.Core.TaskRuns

namespace os_dev.task

open task_state

variable {r r' r'' : Run} {i j a b : Slot} {s t : ℕ}

/-- The task whose function a step invokes. -/
def Run.invokes (r : Run) : Op → Option ℕ
  | .yield _ =>
    if (select_task r.sched).current.function ≠ 0 then some (r.serial (select_task r.sched).current_task_id) else none
  | _ => none

/-- The tasks that a run invokes, in order. -/
def invocations : Run → List Op → List ℕ
  | _, [] => []
  | r, op :: ops => (r.invokes op).toList ++ invocations (r.step op) ops

/-- The task has a function and is eligible. -/
def Standing (t : ℕ) (r : Run) : Prop :=
  ∃ i, r.serial i = t ∧ Eligible r.sched i ∧ (r.sched.tasks i).function ≠ 0

/-- A condition on the states in which a run calls `task_yield`. -/
def AtYields (P : Run → Prop) : Run → List Op → Prop
  | _, [] => True
  | r, .yield calls :: ops => P r ∧ AtYields P (r.step (.yield calls)) ops
  | r, op :: ops => AtYields P (r.step op) ops

/-- The task that an event says is invoked. -/
def Event.invoked_serial : Event → Option ℕ
  | .invoked serial _ => some serial
  | _ => none

theorem Run.call_invoked (r : Run) (c : Call) :
    (r.call c).trace.filterMap Event.invoked_serial = r.trace.filterMap Event.invoked_serial := by
  cases c with
  | create name function priority =>
    simp only [Run.call, Run.create]
    split <;> rfl
  | kill id =>
    simp only [Run.call, Run.kill]
    split <;> rfl
  | sleep ticks => rfl
  | tick => rfl

theorem Run.calls_invoked (calls : List Call) (r : Run) :
    (r.calls calls).trace.filterMap Event.invoked_serial = r.trace.filterMap Event.invoked_serial := by
  induction calls generalizing r with
  | nil => rfl
  | cons c calls ih => exact (ih (r.call c)).trans (r.call_invoked c)

/-- The invocations are those that the run records. -/
theorem invocations_recorded (ops : List Op) (r : Run) :
    (r.run ops).trace.filterMap Event.invoked_serial =
      (invocations r ops).reverse ++ r.trace.filterMap Event.invoked_serial := by
  induction ops generalizing r with
  | nil => rfl
  | cons op ops ih =>
    have hstep : (r.step op).trace.filterMap Event.invoked_serial =
        (r.invokes op).toList ++ r.trace.filterMap Event.invoked_serial := by
      cases op with
      | create name function priority => exact r.call_invoked (.create name function priority)
      | tick => rfl
      | yield calls =>
        simp only [Run.step, Run.invokes]
        by_cases hfun : (select_task r.sched).current.function ≠ 0
        · rw [if_pos hfun, if_pos (show (r.map select_task).sched.current.function ≠ 0 from hfun)]
          exact Run.calls_invoked calls (r.map select_task).enter
        · rw [if_neg hfun, if_neg (show ¬ (r.map select_task).sched.current.function ≠ 0 from hfun)]
          rfl
    have hsingle : (r.invokes op).toList.reverse = (r.invokes op).toList := by cases r.invokes op <;> rfl
    have hrest := ih (r.step op)
    rw [hstep] at hrest
    rw [invocations, List.reverse_append, hsingle, List.append_assoc]
    exact hrest

/-- What a later state of a run keeps of the serial numbers: a slot keeps its number or
    gets a new one. -/
structure Run.Follows (r r' : Run) : Prop where
  issued : r.issued ≤ r'.issued
  serial : ∀ i, r'.serial i = r.serial i ∨ r.issued ≤ r'.serial i
  numbered : r.Numbered → r'.Numbered

theorem Run.Follows.of_same (hserial : r'.serial = r.serial) (hissued : r'.issued = r.issued) : r.Follows r' :=
  ⟨hissued.ge, fun i => .inl (congrFun hserial i), fun h => ⟨hserial ▸ h.inj, hserial ▸ hissued ▸ h.lt⟩⟩

theorem Run.Follows.trans (h : r.Follows r') (h' : r'.Follows r'') : r.Follows r'' := by
  refine ⟨h.issued.trans h'.issued, fun i => ?_, fun hr => h'.numbered (h.numbered hr)⟩
  obtain heq | hle := h'.serial i
  · rw [heq]
    exact h.serial i
  · exact .inr (h.issued.trans hle)

theorem Run.create_follows (r : Run) (name : List UInt8) (function priority : ℕ) :
    r.Follows (r.create name function priority) := by
  obtain ⟨i, -, heq⟩ | heq := r.create_cases name function priority
  · rw [heq]
    refine ⟨Nat.le_succ _, fun j => ?_, fun h => h.update i⟩
    simp only [Function.update_apply]
    split
    · exact .inr le_rfl
    · exact .inl rfl
  · rw [heq]
    exact .of_same rfl rfl

theorem Run.call_follows (r : Run) (c : Call) : r.Follows (r.call c) := by
  cases c with
  | create name function priority => exact r.create_follows name function priority
  | kill id =>
    simp only [Run.call, Run.kill]
    split <;> exact .of_same rfl rfl
  | sleep ticks => exact .of_same rfl rfl
  | tick => exact .of_same rfl rfl

theorem Run.calls_follows (calls : List Call) (r : Run) : r.Follows (r.calls calls) := by
  induction calls generalizing r with
  | nil => exact .of_same rfl rfl
  | cons c calls ih => exact (r.call_follows c).trans (ih (r.call c))

theorem Run.step_follows (r : Run) (op : Op) : r.Follows (r.step op) := by
  cases op with
  | create name function priority => exact r.create_follows name function priority
  | tick => exact .of_same rfl rfl
  | yield calls =>
    simp only [Run.step]
    split
    · have henter : r.Follows (r.map select_task).enter := .of_same rfl rfl
      exact (henter.trans (Run.calls_follows calls _)).trans (.of_same rfl rfl)
    · exact .of_same rfl rfl

theorem Run.run_follows (ops : List Op) (r : Run) : r.Follows (r.run ops) := by
  induction ops generalizing r with
  | nil => exact .of_same rfl rfl
  | cons op ops ih => exact (r.step_follows op).trans (ih (r.step op))

/-- A task that is still in the table has been in the same slot all along. -/
theorem Run.Follows.slot (h : r.Follows r') (hr : r.Numbered) (hi : r.serial i = t) (hj : r'.serial j = t) : j = i := by
  obtain heq | hle := h.serial j
  · exact hr.inj ((heq.symm.trans hj).trans hi.symm)
  · have hlt := hr.lt i
    omega

/-- Calls of a task function do not move the scheduler. -/
theorem Call.effect_current (c : Call) (st : Sched) : (c.effect st).current_task_id = st.current_task_id := by
  cases c with
  | create name function priority =>
    obtain ⟨i, -, -, heq⟩ | ⟨-, heq⟩ := task_create_cases st name function priority
    · simp only [Call.effect, heq]
    · simp only [Call.effect, heq]
  | kill id =>
    simp only [Call.effect, task_kill]
    split <;> rfl
  | sleep ticks => rfl
  | tick => rfl

theorem calls_effect_current (calls : List Call) (st : Sched) :
    (calls.foldl Call.effect st).current_task_id = st.current_task_id := by
  induction calls generalizing st with
  | nil => rfl
  | cons c calls ih => exact (ih (c.effect st)).trans (c.effect_current st)

/-- Where the scheduler stands after a `task_yield`. -/
theorem Run.step_yield_current (r : Run) (calls : List Call) :
    (r.step (.yield calls)).sched.current_task_id = (select_task r.sched).current_task_id := by
  rw [Run.step_sched, Op.effect, task_yield]
  by_cases hfun : (select_task r.sched).current.function ≠ 0
  · rw [if_pos hfun]
    exact calls_effect_current calls _
  · rw [if_neg hfun]

theorem Run.step_create_current (r : Run) (name : List UInt8) (function priority : ℕ) :
    (r.step (.create name function priority)).sched.current_task_id = r.sched.current_task_id := by
  rw [Run.step_sched]
  exact (Call.create name function priority).effect_current r.sched

/-- The task has a function and is eligible, in slot `i`. -/
def StandingAt (t : ℕ) (i : Slot) (r : Run) : Prop :=
  r.serial i = t ∧ Eligible r.sched i ∧ (r.sched.tasks i).function ≠ 0

theorem slots_between_lt {c : Slot} (h : slots_between c i < slots_between c j) :
    slots_between i j < slots_between c j := by
  have hc : c.val < 32 := c.isLt
  have hi : i.val < 32 := i.isLt
  have hj : j.val < 32 := j.isLt
  unfold slots_between at *
  omega

theorem slots_between_inj {c : Slot} (h : slots_between c i = slots_between c j) : i = j := by
  rw [← slot_at_between c i, h, slot_at_between]

theorem select_task_function (st : Sched) (i : Slot) : ((select_task st).tasks i).function = (st.tasks i).function := by
  have hcases := select_task_cases st
  generalize select_task st = st' at hcases
  cases hcases with
  | woken k _ =>
    rw [Sched.set_tasks]
    split_ifs with hik
    · rw [hik]
    · rfl
  | fallback _ => rfl

/-- A `task_yield` that does not invoke a standing task comes nearer to it. -/
theorem StandingAt.nearer (h : StandingAt t b r) (calls : List Call) (hnot : r.invokes (.yield calls) ≠ some t) :
    slots_between (r.step (.yield calls)).sched.current_task_id b < slots_between r.sched.current_task_id b := by
  obtain ⟨hserial, helig, hfun⟩ := h
  rw [Run.step_yield_current]
  have hinvokes : (select_task r.sched).current_task_id ≠ b := by
    intro hcur
    refine hnot ?_
    have hfun' : (select_task r.sched).current.function ≠ 0 := by
      rw [Sched.current, hcur, select_task_function]
      exact hfun
    rw [Run.invokes, if_pos hfun', hcur, hserial]
  obtain ⟨i, hi, hfirst, heq⟩ | ⟨hnone, -⟩ := select_task_first r.sched
  · rw [heq, Sched.set_current] at hinvokes ⊢
    refine slots_between_lt (lt_of_le_of_ne ?_ fun hsame => hinvokes (slots_between_inj hsame))
    exact not_lt.mp fun hlt => hfirst b hlt helig
  · exact absurd helig (hnone b)

theorem AtYields.append {P : Run → Prop} {ops ops' : List Op} (h : AtYields P r (ops ++ ops')) :
    AtYields P r ops ∧ AtYields P (r.run ops) ops' := by
  induction ops generalizing r with
  | nil => exact ⟨trivial, h⟩
  | cons op ops ih =>
    cases op with
    | yield calls =>
      obtain ⟨hops, hrest⟩ := ih h.2
      exact ⟨⟨h.1, hops⟩, hrest⟩
    | create name function priority => exact ih h
    | tick => exact ih h

/-- A task that stands at every `task_yield` stands in one slot. -/
theorem AtYields.in_slot {ops : List Op} (h : AtYields (Standing t) r ops) (hr : r.Numbered)
    (hb : (r.run ops).serial b = t) : AtYields (StandingAt t b) r ops := by
  induction ops generalizing r with
  | nil => trivial
  | cons op ops ih =>
    have hnext := (r.step_follows op).numbered hr
    cases op with
    | yield calls =>
      obtain ⟨⟨i, hserial, helig, hfun⟩, hrest⟩ := h
      obtain rfl := (Run.run_follows (.yield calls :: ops) r).slot hr hserial hb
      exact ⟨⟨hserial, helig, hfun⟩, ih hrest hnext hb⟩
    | create name function priority => exact ih h hnext hb
    | tick => exact ih h hnext hb

/-- As long as a standing task is not invoked, the scheduler does not move away from it. -/
theorem AtYields.approaches {ops : List Op} (h : AtYields (StandingAt t b) r ops) (hnot : t ∉ invocations r ops) :
    slots_between (r.run ops).sched.current_task_id b ≤ slots_between r.sched.current_task_id b := by
  induction ops generalizing r with
  | nil => exact le_rfl
  | cons op ops ih =>
    rw [invocations, List.mem_append, not_or, Option.mem_toList] at hnot
    cases op with
    | yield calls => exact (ih h.2 hnot.2).trans (h.1.nearer calls hnot.1).le
    | create name function priority =>
      have hnext := ih h hnot.2
      rwa [r.step_create_current] at hnext
    | tick => exact ih h hnot.2

/-- While a standing task is not invoked, no other one is invoked twice, and none that
    the scheduler has passed. -/
theorem AtYields.count_le {ops : List Op} (h : AtYields (StandingAt s a) r ops) (hother : AtYields (StandingAt t b) r ops)
    (hr : r.Numbered) (hnot : s ∉ invocations r ops) :
    (invocations r ops).count t ≤ 1 ∧
      (slots_between r.sched.current_task_id a ≤ slots_between b a → (invocations r ops).count t = 0) := by
  induction ops generalizing r with
  | nil => exact ⟨Nat.zero_le _, fun _ => rfl⟩
  | cons op ops ih =>
    rw [invocations, List.mem_append, not_or, Option.mem_toList] at hnot
    have hnext := (r.step_follows op).numbered hr
    cases op with
    | yield calls =>
      obtain ⟨hle, hpassed⟩ := ih h.2 hother.2 hnext hnot.2
      have hnearer := h.1.nearer calls hnot.1
      rw [invocations, List.count_append]
      by_cases hinvoked : r.invokes (.yield calls) = some t
      · -- the scheduler stands at the slot of the task, and does not come back
        have hcur : (r.step (.yield calls)).sched.current_task_id = b := by
          rw [Run.step_yield_current]
          simp only [Run.invokes] at hinvoked
          split at hinvoked
          · exact hr.inj ((Option.some.inj hinvoked).trans hother.1.1.symm)
          · cases hinvoked
        rw [hcur] at hnearer hpassed
        have hzero := hpassed le_rfl
        rw [hinvoked, hzero]
        refine ⟨?_, fun hle' => by omega⟩
        simp
      · have hnone : (r.invokes (.yield calls)).toList.count t = 0 := by
          rw [List.count_eq_zero, Option.mem_toList]
          exact hinvoked
        rw [hnone, Nat.zero_add]
        exact ⟨hle, fun hle' => hpassed (by omega)⟩
    | create name function priority =>
      have hnext := ih h hother hnext hnot.2
      rwa [r.step_create_current] at hnext
    | tick => exact ih h hother hnext hnot.2

theorem Run.serial_of_invokes {op : Op} (h : r.invokes op = some t) :
    ∃ calls, op = .yield calls ∧ r.serial (r.step op).sched.current_task_id = t := by
  cases op with
  | yield calls =>
    simp only [Run.invokes] at h
    split at h
    · refine ⟨calls, rfl, ?_⟩
      rw [Run.step_yield_current]
      exact Option.some.inj h
    · cases h
  | create name function priority => cases h
  | tick => cases h

/-- Between two consecutive invocations of a task, in any run without nested calls of
    `task_yield`, every other task with a function that was eligible at every
    `task_yield` was invoked, and exactly once if the first task was eligible all along
    as well. -/
theorem round_robin_order (now : ℕ) (before between : List Op) (calls calls' : List Call)
    (hfirst : ((init_run now).run before).invokes (.yield calls) = some s)
    (hbetween : s ∉ invocations (((init_run now).run before).step (.yield calls)) between)
    (hlast : ((((init_run now).run before).step (.yield calls)).run between).invokes (.yield calls') = some s)
    (hne : t ≠ s)
    (hstanding : AtYields (Standing t) (((init_run now).run before).step (.yield calls)) (between ++ [.yield calls'])) :
    t ∈ invocations (((init_run now).run before).step (.yield calls)) between ∧
      (AtYields (Standing s) (((init_run now).run before).step (.yield calls)) (between ++ [.yield calls']) →
        (invocations (((init_run now).run before).step (.yield calls)) between).count t = 1) := by
  have hnumbered := (Run.run_follows before (init_run now)).numbered (init_numbered now)
  generalize (init_run now).run before = r₀ at *
  have hnumbered₁ := (r₀.step_follows (.yield calls)).numbered hnumbered
  -- both times the scheduler stops at the slot of the task
  obtain ⟨-, -, hserial₀⟩ := Run.serial_of_invokes hfirst
  obtain ⟨-, -, hserial₂⟩ := Run.serial_of_invokes hlast
  have hslot := ((r₀.step_follows (.yield calls)).trans (Run.run_follows between _)).slot hnumbered hserial₀ hserial₂
  obtain ⟨hmid, ⟨b, hb, helig, hfun⟩, -⟩ := hstanding.append
  have hmid := hmid.in_slot hnumbered₁ hb
  have hat : StandingAt t b ((r₀.step (.yield calls)).run between) := ⟨hb, helig, hfun⟩
  have hlt := hat.nearer calls' (by rw [hlast]; exact fun heq => hne (Option.some.inj heq).symm)
  have hmem : t ∈ invocations (r₀.step (.yield calls)) between := by
    by_contra hnot
    have hle := hmid.approaches hnot
    rw [hslot] at hlt
    omega
  refine ⟨hmem, fun hself => ?_⟩
  obtain ⟨hself, ⟨a, ha, -⟩, -⟩ := hself.append
  have hcount := ((hself.in_slot hnumbered₁ ha).count_le hmid hnumbered₁ hbetween).1
  have hpos := List.count_pos_iff.mpr hmem
  omega

/-- Two tasks that do nothing, and the idle task. -/
def two_tasks : List Op := [.create [] 1 1, .create [] 2 1]

theorem round_robin_order_two :
    ((init_run 0).run two_tasks).invokes (.yield []) = some 32 ∧
      33 ∈ invocations (((init_run 0).run two_tasks).step (.yield [])) [.yield [], .yield []] ∧
      (invocations (((init_run 0).run two_tasks).step (.yield [])) [.yield [], .yield []]).count 33 = 1 := by
  have hfirst : ((init_run 0).run two_tasks).invokes (.yield []) = some 32 := by decide +kernel
  have hstanding : ∀ t i, (∀ k < 3, StandingAt t i ((((init_run 0).run two_tasks).step (.yield [])).run
        (List.replicate k (.yield [])))) →
      AtYields (Standing t) (((init_run 0).run two_tasks).step (.yield [])) ([.yield [], .yield []] ++ [.yield []]) :=
    fun t i h => ⟨⟨i, h 0 (by decide)⟩, ⟨i, h 1 (by decide)⟩, ⟨i, h 2 (by decide)⟩, trivial⟩
  have hone : ∀ k < 3, StandingAt 32 1 ((((init_run 0).run two_tasks).step (.yield [])).run
      (List.replicate k (.yield []))) := by
    unfold StandingAt
    decide +kernel
  have htwo : ∀ k < 3, StandingAt 33 2 ((((init_run 0).run two_tasks).step (.yield [])).run
      (List.replicate k (.yield []))) := by
    unfold StandingAt
    decide +kernel
  obtain ⟨hmem, hcount⟩ := round_robin_order 0 two_tasks [.yield [], .yield []] [] [] hfirst (by decide +kernel)
    (by decide +kernel) (by decide) (hstanding 33 2 htwo)
  exact ⟨hfirst, hmem, hcount (hstanding 32 1 hone)⟩

/-- While a task sleeps, another one is invoked twice. -/
theorem sleeping_task_overtaken_twice :
    ∃ between : List Op,
      ((init_run 0).run two_tasks).invokes (.yield [.sleep 1]) = some 32 ∧
      32 ∉ invocations (((init_run 0).run two_tasks).step (.yield [.sleep 1])) between ∧
      ((((init_run 0).run two_tasks).step (.yield [.sleep 1])).run between).invokes (.yield []) = some 32 ∧
      AtYields (Standing 33) (((init_run 0).run two_tasks).step (.yield [.sleep 1])) (between ++ [.yield []]) ∧
      (invocations (((init_run 0).run two_tasks).step (.yield [.sleep 1])) between).count 33 = 2 := by
  refine ⟨[.yield [], .yield [], .yield [], .tick, .yield []], by decide +kernel, by decide +kernel, by decide +kernel,
    ⟨⟨2, ?_⟩, ⟨2, ?_⟩, ⟨2, ?_⟩, ⟨2, ?_⟩, ⟨2, ?_⟩, trivial⟩, by decide +kernel⟩ <;> decide +kernel

end os_dev.task
