import OsDev.Core.NestedYield

namespace os_dev.task

open task_state

/-- A task that slept for some ticks is invoked again only when they have elapsed. -/
def NeverEarly (trace : List Event) : Prop :=
  ∀ after before serial ticks slept_at, trace = after ++ .slept serial ticks slept_at :: before →
    ∀ time, .invoked serial time ∈ after → slept_at + ticks ≤ time

/-- A `task_yield` finds an eligible slot, or falls back on a task that does not sleep. -/
def FindsAwake (st : Sched) : Prop :=
  (∃ i, Eligible st i) ∨ st.current.wake_time ≤ timer_get_ticks st ∨ st.current.function = 0

mutual

/-- A call of the function in slot `own` that cuts no sleep short: the wake time does not wrap
    nor come before the one that it replaces, and the caller is the current task or not ready,
    so that a nested `task_yield` which has moved on leaves nobody to be selected. -/
def Act.KeepsSleep (own : Slot) : Act → Sched → Prop
  | .sleep ticks, st => timer_get_ticks st + ticks < 2 ^ 32 ∧ st.current.wake_time ≤ timer_get_ticks st + ticks ∧
      (own = st.current_task_id ∨ (st.tasks own).state ≠ TASK_READY)
  | .yield acts, st => FindsAwake st ∧ ((select_task st).current.function ≠ 0 →
      ActsKeepSleep (select_task st).current_task_id acts ((select_task st).set_state TASK_RUNNING))
  | _, _ => True

def ActsKeepSleep (own : Slot) : List Act → Sched → Prop
  | [], _ => True
  | a :: acts, st => a.KeepsSleep own st ∧ ActsKeepSleep own acts (a.effect st)

end

/-- The same for a step of `kmain`. -/
def TopAct.KeepsSleep (st : Sched) : TopAct → Prop
  | .yield acts => FindsAwake st ∧ ((select_task st).current.function ≠ 0 →
      ActsKeepSleep (select_task st).current_task_id acts ((select_task st).set_state TASK_RUNNING))
  | _ => True

def TopActsKeepSleep : Sched → List TopAct → Prop
  | _, [] => True
  | st, a :: acts => a.KeepsSleep st ∧ TopActsKeepSleep (a.effect st) acts

theorem NeverEarly.cons {trace : List Event} (h : NeverEarly trace) {e : Event}
    (he : ∀ serial time, e = .invoked serial time →
      ∀ ticks slept_at, .slept serial ticks slept_at ∈ trace → slept_at + ticks ≤ time) : NeverEarly (e :: trace) := by
  intro after before serial ticks slept_at heq time hmem
  cases after with
  | nil => cases hmem
  | cons e' after =>
    obtain ⟨rfl, rfl⟩ := List.cons.inj heq
    obtain rfl | hmem := List.mem_cons.mp hmem
    · exact he serial time rfl ticks slept_at (by simp)
    · exact h after before serial ticks slept_at rfl time hmem

/-- A sleep is over, or the wake time of its slot is still ahead of the counter's
    value at the sleep. -/
def Pending (st : Sched) (i : Slot) (ticks slept_at : ℕ) : Prop :=
  slept_at + ticks ≤ st.now ∨ slept_at % 2 ^ 32 + ticks ≤ (st.tasks i).wake_time

/-- A slot that is neither current nor ready: no `task_yield` selects it. -/
def Stuck (st : Sched) (i : Slot) : Prop := i ≠ st.current_task_id ∧ (st.tasks i).state ≠ TASK_READY

/-- Every sleep so far is pending in the slot of its task, unless that is never selected. -/
structure SleepInv (r : Run) : Prop where
  numbered : r.Numbered
  old : ∀ serial ticks slept_at, .slept serial ticks slept_at ∈ r.trace →
    serial < r.issued ∧ slept_at ≤ r.sched.now
  pending : ∀ serial ticks slept_at, .slept serial ticks slept_at ∈ r.trace →
    ∀ i, r.serial i = serial → Pending r.sched i ticks slept_at ∨ Stuck r.sched i
  kept : NeverEarly r.trace

/-- A step that issues no number, adds no sleep, shortens no wake time and releases no stuck slot. -/
theorem SleepInv.frame {r r' : Run} (h : SleepInv r) (hserial : r'.serial = r.serial) (hissued : r'.issued = r.issued)
    (hnow : r.sched.now ≤ r'.sched.now)
    (hwake : ∀ i, (r'.sched.tasks i).wake_time = (r.sched.tasks i).wake_time)
    (hstuck : ∀ i, Stuck r.sched i → Stuck r'.sched i)
    (hold : ∀ serial ticks slept_at, .slept serial ticks slept_at ∈ r'.trace → .slept serial ticks slept_at ∈ r.trace)
    (hkept : NeverEarly r'.trace) : SleepInv r' where
  numbered := ⟨hserial ▸ h.numbered.inj, hserial ▸ hissued ▸ h.numbered.lt⟩
  old := fun serial ticks slept_at hmem => by
    obtain ⟨hlt, hle⟩ := h.old serial ticks slept_at (hold _ _ _ hmem)
    exact ⟨hissued ▸ hlt, hle.trans hnow⟩
  pending := fun serial ticks slept_at hmem i hi => by
    rw [Pending, hwake]
    obtain hp | hs := h.pending serial ticks slept_at (hold _ _ _ hmem) i (by rw [← hi, hserial])
    · exact .inl (hp.imp_left fun hle => hle.trans hnow)
    · exact .inr (hstuck i hs)
  kept := hkept

/-- A counter that has reached the wake time has counted the ticks of the sleep: if
    it has wrapped since, more than a full sleep has passed. -/
theorem Pending.elapsed {st : Sched} {i : Slot} {ticks slept_at : ℕ} (h : Pending st i ticks slept_at)
    (hle : slept_at ≤ st.now) (hwake : 0 < (st.tasks i).wake_time → (st.tasks i).wake_time ≤ timer_get_ticks st) :
    slept_at + ticks ≤ st.now := by
  obtain hover | hahead := h
  · exact hover
  · unfold timer_get_ticks at hwake
    have hlt := Nat.mod_lt st.now (show 0 < 2 ^ 32 by decide)
    omega

theorem SleepInv.create {r : Run} (h : SleepInv r) (name : List UInt8) (function priority : ℕ) :
    SleepInv (r.create name function priority) := by
  obtain ⟨i, -, heq⟩ | heq := r.create_cases name function priority
  · rw [heq]
    refine ⟨h.numbered.update i, fun serial ticks slept_at hmem => ?_, fun serial ticks slept_at hmem j hj => ?_, h.kept⟩
    · obtain ⟨hlt, hle⟩ := h.old serial ticks slept_at hmem
      exact ⟨Nat.lt_succ_of_lt hlt, hle⟩
    · obtain ⟨hlt, -⟩ := h.old serial ticks slept_at hmem
      simp only [Function.update_apply] at hj
      split_ifs at hj with hij
      · omega
      · have hp := h.pending serial ticks slept_at hmem j hj
        simpa only [Pending, Stuck, Function.update_of_ne hij] using hp
  · rwa [heq]

theorem SleepInv.tick {r : Run} (h : SleepInv r) : SleepInv (r.map timer_handler) :=
  h.frame rfl rfl (Nat.le_succ _) (fun _ => rfl) (fun _ hs => hs) (fun _ _ _ hmem => hmem) h.kept

/-- A new state of the current slot. -/
theorem SleepInv.set_state {r : Run} (h : SleepInv r) (s : task_state) : SleepInv (r.map fun st => st.set_state s) := by
  refine h.frame rfl rfl le_rfl (fun j => ?_) (fun j hs => ⟨hs.1, ?_⟩) (fun _ _ _ hmem => hmem) h.kept
  · simp only [Run.map, Sched.set_state, Sched.set_tasks]
    split_ifs with hji
    · rw [hji]
    · rfl
  · simp only [Run.map, Sched.set_state, Sched.set_tasks, if_neg hs.1]
    exact hs.2

theorem SleepInv.kill {r : Run} (h : SleepInv r) (id : ℕ) : SleepInv (r.kill id) := by
  have hwake : ∀ j, ((task_kill r.sched id).tasks j).wake_time = (r.sched.tasks j).wake_time := by
    intro j
    unfold task_kill
    split
    · rfl
    · rw [Sched.set_tasks]
      split_ifs with hji
      · rw [hji]
      · rfl
  have hstuck : ∀ j, Stuck r.sched j → Stuck (task_kill r.sched id) j := by
    intro j hs
    unfold task_kill
    split
    · exact hs
    · refine ⟨hs.1, ?_⟩
      rw [Sched.set_tasks]
      split_ifs with hji
      · simp
      · exact hs.2
  have hnow : (task_kill r.sched id).now = r.sched.now := by
    unfold task_kill
    split <;> rfl
  unfold Run.kill
  split
  · exact h.frame rfl rfl hnow.ge hwake hstuck (fun _ _ _ hmem => hmem) h.kept
  · exact h.frame rfl rfl hnow.ge hwake hstuck (by simp [Run.map, Run.note]) (h.kept.cons (by simp))

/-- Slot `own` is the only one that can hold task `me`. -/
structure Run.Owner (r : Run) (own : Slot) (me : ℕ) : Prop where
  issued : me < r.issued
  slot : ∀ i, r.serial i = me → i = own

theorem SleepInv.sleep {r : Run} (h : SleepInv r) {own : Slot} {me ticks : ℕ} (hown : r.Owner own me)
    (hsafe : (Act.sleep ticks).KeepsSleep own r.sched) : SleepInv (Run.act me (.sleep ticks) r) := by
  obtain ⟨hwrap, hlater, hplace⟩ := hsafe
  have hwake : ∀ j, (((Run.act me (.sleep ticks) r).sched.tasks j).wake_time =
      if j = r.sched.current_task_id then timer_get_ticks r.sched + ticks else (r.sched.tasks j).wake_time) := by
    intro j
    simp only [Run.act, Run.map, Run.note, task_sleep, Sched.set_tasks, Nat.mod_eq_of_lt hwrap]
    split <;> rfl
  have hstuck : ∀ j, Stuck r.sched j → Stuck (Run.act me (.sleep ticks) r).sched j := by
    intro j hs
    refine ⟨hs.1, ?_⟩
    simp only [Run.act, Run.map, Run.note, task_sleep, Sched.set_tasks, if_neg hs.1]
    exact hs.2
  refine ⟨⟨h.numbered.inj, h.numbered.lt⟩, fun serial n slept_at hmem => ?_, fun serial n slept_at hmem j hj => ?_,
    h.kept.cons (by simp)⟩
  · obtain heq | hmem := List.mem_cons.mp hmem
    · obtain ⟨rfl, -, rfl⟩ := Event.slept.inj heq
      exact ⟨hown.issued, le_rfl⟩
    · exact h.old serial n slept_at hmem
  · rw [Pending, hwake]
    obtain heq | hmem := List.mem_cons.mp hmem
    · obtain ⟨rfl, rfl, rfl⟩ := Event.slept.inj heq
      obtain rfl := hown.slot j hj
      by_cases hcur : j = r.sched.current_task_id
      · rw [if_pos hcur]
        exact .inl (.inr le_rfl)
      · -- the wake time goes to another slot, but the caller's is out of the game
        exact .inr (hstuck j ⟨hcur, hplace.resolve_left hcur⟩)
    · obtain hp | hs := h.pending serial n slept_at hmem j hj
      · refine .inl (hp.imp_right fun hle => ?_)
        split_ifs with hcur
        · subst hcur
          exact hle.trans hlater
        · exact hle
      · exact .inr (hstuck j hs)

/-- After a selection the sleeps of a task about to be invoked are over. -/
theorem SleepInv.select {r : Run} (h : SleepInv r) (hsafe : FindsAwake r.sched) :
    SleepInv (r.map select_task) ∧ ((select_task r.sched).current.function ≠ 0 →
      ∀ ticks slept_at, .slept (r.serial (select_task r.sched).current_task_id) ticks slept_at ∈ r.trace →
        slept_at + ticks ≤ (select_task r.sched).now) := by
  have hcases := select_task_cases r.sched
  simp only [Run.map]
  generalize select_task r.sched = st' at hcases
  cases hcases with
  | woken i helig =>
    have hfree : ¬ Stuck r.sched i := fun hs => hs.2 helig.1
    refine ⟨⟨⟨h.numbered.inj, h.numbered.lt⟩, h.old, fun serial ticks slept_at hmem j hj => ?_, h.kept⟩,
      fun _ ticks slept_at hmem => ?_⟩
    · have hp := h.pending serial ticks slept_at hmem j hj
      by_cases hji : j = i
      · subst hji
        exact .inl (.inl ((hp.resolve_right hfree).elapsed (h.old serial ticks slept_at hmem).2 helig.2))
      · refine hp.imp (fun hp => ?_) fun hs => ⟨hji, ?_⟩
        · simpa only [Pending, Sched.set_tasks, Sched.set_now, if_neg hji] using hp
        · rw [Sched.set_tasks, if_neg hji]
          exact hs.2
    · exact ((h.pending _ ticks slept_at hmem i rfl).resolve_right hfree).elapsed (h.old _ ticks slept_at hmem).2 helig.2
  | fallback hnone =>
    have hcur : ¬ Stuck r.sched r.sched.current_task_id := fun hs => hs.1 rfl
    refine ⟨h, fun hfun ticks slept_at hmem => ?_⟩
    obtain ⟨i, hi⟩ | hawake | hnull := hsafe
    · exact absurd hi (hnone i)
    · exact ((h.pending _ ticks slept_at hmem _ rfl).resolve_right hcur).elapsed (h.old _ ticks slept_at hmem).2
        fun _ => hawake
    · exact absurd hnull hfun

theorem SleepInv.enter {r : Run} (h : SleepInv r) (hsafe : FindsAwake r.sched)
    (hfun : (select_task r.sched).current.function ≠ 0) : SleepInv (r.map select_task).enter := by
  obtain ⟨hsel, hover⟩ := h.select hsafe
  have hnote : SleepInv ((r.map select_task).note
      (.invoked ((r.map select_task).serial (r.map select_task).sched.current_task_id) (r.map select_task).sched.now)) := by
    refine hsel.frame rfl rfl le_rfl (fun _ => rfl) (fun _ hs => hs) (by simp [Run.note]) (hsel.kept.cons ?_)
    rintro serial time heq ticks slept_at hmem
    obtain ⟨rfl, rfl⟩ := Event.invoked.inj heq
    exact hover hfun ticks slept_at hmem
  exact hnote.set_state TASK_RUNNING

/-- The tasks of a run move on: slots keep their numbers or get new ones. -/
structure Run.Grows (r r' : Run) : Prop where
  issued : r.issued ≤ r'.issued
  serial : ∀ i, r'.serial i = r.serial i ∨ r.issued ≤ r'.serial i

theorem Run.Grows.refl (r : Run) : r.Grows r := ⟨le_rfl, fun _ => .inl rfl⟩

theorem Run.Grows.trans {r r' r'' : Run} (h : r.Grows r') (h' : r'.Grows r'') : r.Grows r'' := by
  refine ⟨h.issued.trans h'.issued, fun i => ?_⟩
  obtain heq | hle := h'.serial i
  · rw [heq]
    exact h.serial i
  · exact .inr (h.issued.trans hle)

theorem Run.Owner.grows {r r' : Run} {own : Slot} {me : ℕ} (h : r.Owner own me) (hgrows : r.Grows r') : r'.Owner own me := by
  refine ⟨h.issued.trans_le hgrows.issued, fun i hi => ?_⟩
  have hlt := h.issued
  obtain heq | hle := hgrows.serial i
  · exact h.slot i (heq.symm.trans hi)
  · omega

theorem Run.create_grows (r : Run) (name : List UInt8) (function priority : ℕ) : r.Grows (r.create name function priority) := by
  obtain ⟨i, -, heq⟩ | heq := r.create_cases name function priority
  · rw [heq]
    refine ⟨Nat.le_succ _, fun j => ?_⟩
    simp only [Function.update_apply]
    split
    · exact .inr le_rfl
    · exact .inl rfl
  · rw [heq]
    exact .refl r

theorem Run.kill_grows (r : Run) (id : ℕ) : r.Grows (r.kill id) := by
  unfold Run.kill
  split <;> exact ⟨le_rfl, fun _ => .inl rfl⟩

theorem Run.invoke_grows {r : Run} {call : ℕ → Run → Run} (hcall : ∀ me (r' : Run), r'.Grows (call me r')) : r.Grows (r.invoke call) := by
  have henter : r.Grows (r.map select_task).enter := ⟨le_rfl, fun _ => .inl rfl⟩
  simp only [Run.invoke]
  split
  · have hgrows := henter.trans (hcall ((r.map select_task).serial (r.map select_task).sched.current_task_id) _)
    exact ⟨hgrows.issued, hgrows.serial⟩
  · exact ⟨le_rfl, fun _ => .inl rfl⟩

mutual

theorem Run.act_grows (me : ℕ) (a : Act) (r : Run) : r.Grows (Run.act me a r) := by
  cases a with
  | create name function priority => exact r.create_grows name function priority
  | kill id => exact r.kill_grows id
  | sleep ticks => exact ⟨le_rfl, fun _ => .inl rfl⟩
  | tick => exact ⟨le_rfl, fun _ => .inl rfl⟩
  | yield acts => exact Run.invoke_grows fun me r' => Run.acts_grows me acts r'

theorem Run.acts_grows (me : ℕ) (acts : List Act) (r : Run) : r.Grows (Run.acts me acts r) := by
  cases acts with
  | nil => exact .refl r
  | cons a acts => exact (Run.act_grows me a r).trans (Run.acts_grows me acts _)

end

/-- The task that is about to be invoked. -/
theorem Run.Numbered.owner {r : Run} (h : r.Numbered) (i : Slot) : r.Owner i (r.serial i) := ⟨h.lt i, fun _ hj => h.inj hj⟩

theorem SleepInv.invoke {r : Run} (h : SleepInv r) (hsafe : FindsAwake r.sched) (call : ℕ → Run → Run)
    (hcall : (select_task r.sched).current.function ≠ 0 → SleepInv (r.map select_task).enter →
      (r.map select_task).enter.Owner (select_task r.sched).current_task_id
        (r.serial (select_task r.sched).current_task_id) →
      SleepInv (call (r.serial (select_task r.sched).current_task_id) (r.map select_task).enter)) :
    SleepInv (r.invoke call) := by
  simp only [Run.invoke]
  split
  case isTrue hfun =>
    have henter := h.enter hsafe hfun
    exact (hcall hfun henter (henter.numbered.owner _)).set_state TASK_READY
  case isFalse => exact (h.select hsafe).1

mutual

theorem SleepInv.act {r : Run} (h : SleepInv r) {own : Slot} {me : ℕ} (hown : r.Owner own me) (a : Act)
    (hsafe : a.KeepsSleep own r.sched) : SleepInv (Run.act me a r) := by
  cases a with
  | create name function priority => exact h.create name function priority
  | kill id => exact h.kill id
  | sleep ticks => exact h.sleep hown hsafe
  | tick => exact h.tick
  | yield acts => exact h.invoke hsafe.1 (fun me => Run.acts me acts) fun hfun henter hentered => henter.acts hentered acts (hsafe.2 hfun)

theorem SleepInv.acts {r : Run} (h : SleepInv r) {own : Slot} {me : ℕ} (hown : r.Owner own me) (acts : List Act)
    (hsafe : ActsKeepSleep own acts r.sched) : SleepInv (Run.acts me acts r) := by
  cases acts with
  | nil => exact h
  | cons a acts =>
    refine (h.act hown a hsafe.1).acts (hown.grows (Run.act_grows me a r)) acts ?_
    rw [Run.act_sched]
    exact hsafe.2

end

theorem SleepInv.top {r : Run} (h : SleepInv r) (a : TopAct) (hsafe : a.KeepsSleep r.sched) : SleepInv (r.top a) := by
  cases a with
  | create name function priority => exact h.create name function priority
  | tick => exact h.tick
  | yield acts => exact h.invoke hsafe.1 (fun me => Run.acts me acts) fun hfun henter hentered => henter.acts hentered acts (hsafe.2 hfun)

theorem SleepInv.tops {r : Run} (h : SleepInv r) (acts : List TopAct) (hsafe : TopActsKeepSleep r.sched acts) :
    SleepInv (r.tops acts) := by
  induction acts generalizing r with
  | nil => exact h
  | cons a acts ih =>
    refine ih (h.top a hsafe.1) ?_
    rw [Run.top_sched]
    exact hsafe.2

theorem init_sleepInv (now : ℕ) : SleepInv (init_run now) := by
  refine ⟨init_numbered now, by simp [init_run], by simp [init_run], ?_⟩
  intro after before serial ticks slept_at heq
  simp [init_run] at heq

/-- Sleeping tasks are not woken early, in any run whose steps all keep the sleeps, nested calls of
    `task_yield` included. -/
theorem sleeping_task_never_early (now : ℕ) (acts : List TopAct)
    (hsafe : TopActsKeepSleep (task_init (static_state now)) acts) : NeverEarly ((init_run now).tops acts).trace :=
  ((init_sleepInv now).tops acts hsafe).kept

/-- Task 32 calls `task_yield`, which invokes task 33; that sleeps and returns, and the sleep of task 32
    then goes to the slot of task 33. Three ticks later task 33 is invoked again. -/
def nested_sleep : List TopAct :=
  [.create [] 1 1, .create [] 2 1, .yield [.yield [.sleep 2], .sleep 3], .tick, .tick, .yield [], .tick, .yield []]

theorem sleeping_task_never_early_nested :
    TopActsKeepSleep (task_init (static_state 0)) nested_sleep ∧
      NeverEarly ((init_run 0).tops nested_sleep).trace ∧
      ((init_run 0).tops nested_sleep).trace =
        [.invoked 33 3, .slept 32 3 0, .slept 33 2 0, .invoked 33 0, .invoked 32 0] := by
  have hsafe : TopActsKeepSleep (task_init (static_state 0)) nested_sleep := by
    refine ⟨trivial, trivial, ⟨.inl ⟨0, by decide +kernel⟩, fun _ => ⟨⟨.inl ⟨0, by decide +kernel⟩, fun _ => ⟨?_, trivial⟩⟩,
      ?_, trivial⟩⟩, trivial, trivial, ⟨.inl ⟨0, by decide +kernel⟩, fun _ => trivial⟩, trivial,
      ⟨.inl ⟨0, by decide +kernel⟩, fun _ => trivial⟩, trivial⟩
    · change _ < _ ∧ _ ≤ _ ∧ (_ ∨ _)
      decide +kernel
    · change _ < _ ∧ _ ≤ _ ∧ (_ ∨ _)
      decide +kernel
  exact ⟨hsafe, sleeping_task_never_early 0 _ hsafe, by decide +kernel⟩

/-- At the last value of the counter a sleep of one tick asks for wake time zero,
    which means that the task is not sleeping. -/
theorem sleep_at_wrap_wakes_early :
    ¬ NeverEarly ((init_run (2 ^ 32 - 1)).tops [.create [] 1 1, .yield [.sleep 1], .yield [], .yield []]).trace := by
  have htrace : ((init_run (2 ^ 32 - 1)).tops [.create [] 1 1, .yield [.sleep 1], .yield [], .yield []]).trace =
      [.invoked 32 (2 ^ 32 - 1)] ++ .slept 32 1 (2 ^ 32 - 1) :: [.invoked 32 (2 ^ 32 - 1)] := by decide +kernel
  intro h
  have hle := h _ _ 32 1 _ htrace (2 ^ 32 - 1) (by simp)
  omega

end os_dev.task
