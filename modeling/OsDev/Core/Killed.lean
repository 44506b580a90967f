import OsDev.Core.TaskRuns

namespace os_dev.task

open task_state

/-- A task that `task_kill` was called on while it lived is not invoked afterwards. -/
def KilledStayDead (trace : List Event) : Prop :=
  ∀ after before serial, trace = after ++ .killed serial :: before → ∀ time, .invoked serial time ∉ after

/-- The steps that do not bring a dead task back: a function neither sleeps nor
    returns while its own slot is dead, and `task_kill` meets a live task before any
    dead slot that carries the same id. -/
def spares_dead : Guard where
  call := fun st c =>
    match c with
    | .kill id => ∀ i, task_get st id = some i → find_id st id = some i
    | .sleep _ => st.current.state ≠ TASK_DEAD
    | _ => True
  ret := fun st => st.current.state ≠ TASK_DEAD
  yield := fun _ => True

theorem KilledStayDead.cons {trace : List Event} (h : KilledStayDead trace) {e : Event}
    (he : ∀ serial time, e = .invoked serial time → .killed serial ∉ trace) : KilledStayDead (e :: trace) := by
  intro after before serial heq time hmem
  cases after with
  | nil => cases hmem
  | cons e' after =>
    obtain ⟨rfl, rfl⟩ := List.cons.inj heq
    obtain rfl | hmem := List.mem_cons.mp hmem
    · exact he serial time rfl (by simp)
    · exact h after before serial rfl time hmem

/-- The slots of the killed tasks stay dead. -/
structure KillInv (r : Run) : Prop where
  numbered : r.Numbered
  dead : ∀ serial, .killed serial ∈ r.trace → ∀ i, r.serial i = serial → (r.sched.tasks i).state = TASK_DEAD
  issued : ∀ serial, .killed serial ∈ r.trace → serial < r.issued
  kept : KilledStayDead r.trace

/-- A step that issues no number and kills nothing keeps the invariant if it keeps
    the state of every dead slot. -/
theorem KillInv.frame {r r' : Run} (h : KillInv r) (hserial : r'.serial = r.serial) (hissued : r'.issued = r.issued)
    (hdead : ∀ i, (r.sched.tasks i).state = TASK_DEAD → (r'.sched.tasks i).state = TASK_DEAD)
    (hold : ∀ serial, .killed serial ∈ r'.trace → .killed serial ∈ r.trace) (hkept : KilledStayDead r'.trace) :
    KillInv r' where
  numbered := ⟨hserial ▸ h.numbered.inj, hserial ▸ hissued ▸ h.numbered.lt⟩
  dead := fun serial hmem i hi => hdead i (h.dead serial (hold serial hmem) i (by rw [← hi, hserial]))
  issued := fun serial hmem => hissued ▸ h.issued serial (hold serial hmem)
  kept := hkept

theorem KillInv.create {r : Run} (h : KillInv r) (name : List UInt8) (function priority : ℕ) :
    KillInv (r.create name function priority) := by
  obtain ⟨i, -, heq⟩ | heq := r.create_cases name function priority
  · rw [heq]
    refine ⟨h.numbered.update i, ?_, fun serial hmem => Nat.lt_succ_of_lt (h.issued serial hmem), h.kept⟩
    intro serial hmem j hj
    have hlt := h.issued serial hmem
    simp only [Function.update_apply] at hj ⊢
    split_ifs at hj ⊢ with hij
    · omega
    · exact h.dead serial hmem j hj
  · rwa [heq]

/-- Rewriting the state of a slot that is not dead. -/
theorem KillInv.set_live {r : Run} (h : KillInv r) {i : Slot} (hlive : (r.sched.tasks i).state ≠ TASK_DEAD)
    (f : task_t → task_t) : KillInv (r.map fun st => st.set i f) := by
  refine h.frame rfl rfl (fun j hj => ?_) (fun _ => id) h.kept
  have hne : j ≠ i := by
    rintro rfl
    exact hlive hj
  simpa only [Run.map, Sched.set_tasks, if_neg hne] using hj

theorem task_kill_tasks (st : Sched) (id : ℕ) (j : Slot) :
    ((task_kill st id).tasks j).state = if find_id st id = some j then TASK_DEAD else (st.tasks j).state := by
  unfold task_kill
  cases hfind : find_id st id with
  | none => simp
  | some i =>
    simp only [Sched.set_tasks, Option.some.injEq, eq_comm (a := j)]
    split_ifs <;> rfl

theorem KillInv.kill {r : Run} (h : KillInv r) {id : ℕ}
    (hfirst : ∀ i, task_get r.sched id = some i → find_id r.sched id = some i) : KillInv (r.kill id) := by
  have hdead : ∀ j, (r.sched.tasks j).state = TASK_DEAD → ((task_kill r.sched id).tasks j).state = TASK_DEAD := by
    intro j hj
    rw [task_kill_tasks, hj, ite_self]
  unfold Run.kill
  cases hget : task_get r.sched id with
  | none => exact h.frame rfl rfl hdead (fun _ hmem => hmem) h.kept
  | some i =>
    have hfind := hfirst i hget
    refine ⟨⟨h.numbered.inj, h.numbered.lt⟩, fun serial hmem j hj => ?_, fun serial hmem => ?_,
      h.kept.cons (by simp)⟩
    · obtain heq | hmem := List.mem_cons.mp hmem
      · obtain rfl : j = i := h.numbered.inj (by simpa [Run.map, Run.note] using hj.trans (Event.killed.inj heq))
        exact (task_kill_tasks ..).trans (if_pos hfind)
      · exact hdead j (h.dead serial hmem j hj)
    · obtain heq | hmem := List.mem_cons.mp hmem
      · rw [Event.killed.inj heq]
        exact h.numbered.lt i
      · exact h.issued serial hmem

theorem KillInv.call {r : Run} (h : KillInv r) (c : Call) (hsafe : spares_dead.call r.sched c) :
    KillInv (r.call c) := by
  cases c with
  | create name function priority => exact h.create name function priority
  | kill id => exact h.kill hsafe
  | sleep ticks =>
    have hnote : KillInv (r.note (.slept (r.serial r.sched.current_task_id) ticks r.sched.now)) :=
      h.frame rfl rfl (fun _ => id) (by simp [Run.note]) (h.kept.cons (by simp))
    exact hnote.set_live hsafe _
  | tick => exact h.frame rfl rfl (fun _ => id) (fun _ => id) h.kept

/-- Between two steps of the top level the current slot is not dead. -/
def AtTop (r : Run) : Prop := KillInv r ∧ r.sched.current.state ≠ TASK_DEAD

theorem AtTop.select {r : Run} (h : AtTop r) : AtTop (r.map select_task) := by
  have hcases := select_task_cases r.sched
  simp only [Run.map, AtTop]
  generalize select_task r.sched = st' at hcases
  cases hcases with
  | woken i helig =>
    have hready : (r.sched.tasks i).state = TASK_READY := helig.1
    refine ⟨h.1.frame rfl rfl (fun j hj => ?_) (fun _ => id) h.1.kept, ?_⟩
    · rw [Sched.set_tasks]
      split_ifs with hji
      · exact hji ▸ hj
      · exact hj
    · simp [Sched.current, Sched.set_tasks, hready]
  | fallback _ => exact h

theorem AtTop.step {r : Run} (h : AtTop r) (op : Op) (hsafe : spares_dead.Step r.sched op) : AtTop (r.step op) := by
  cases op with
  | create name function priority =>
    refine ⟨h.1.create name function priority, ?_⟩
    obtain ⟨i, -, heq⟩ | heq := r.create_cases name function priority
    · simp only [Run.step, heq, Sched.current, Function.update_apply]
      split
      · simp [new_task]
      · exact h.2
    · simpa only [Run.step, heq] using h.2
  | tick => exact ⟨h.1.frame rfl rfl (fun _ => id) (fun _ => id) h.1.kept, h.2⟩
  | yield calls =>
    have hsel := h.select
    simp only [Run.step]
    split
    · rename_i hfun
      have henter : KillInv (r.map select_task).enter := by
        have hnote : KillInv ((r.map select_task).note
            (.invoked ((r.map select_task).serial (r.map select_task).sched.current_task_id)
              (r.map select_task).sched.now)) := by
          refine hsel.1.frame rfl rfl (fun _ => id) (by simp [Run.note]) (hsel.1.kept.cons ?_)
          -- the selected slot is not dead, so its task has not been killed
          rintro serial time heq hkilled
          obtain ⟨rfl, -⟩ := Event.invoked.inj heq
          exact hsel.2 (hsel.1.dead _ hkilled _ rfl)
        exact hnote.set_live hsel.2 _
      obtain ⟨hcalls, hret⟩ := Guard.Calls.preserved (fun r c hr hc => KillInv.call hr c hc) calls _ henter
        (hsafe.2 hfun)
      exact ⟨hcalls.set_live hret _, by simp [Run.leave, Run.map, Sched.set_state, Sched.current, Sched.set_tasks]⟩
    · exact hsel

theorem init_atTop (now : ℕ) : AtTop (init_run now) := by
  refine ⟨⟨init_numbered now, by simp [init_run], by simp [init_run], ?_⟩, ?_⟩
  · intro after before serial heq
    simp [init_run] at heq
  · simp [init_run, task_init, static_state, Sched.current, Sched.set_tasks]

/-- A killed task is not invoked again, in any run whose steps all spare the dead. -/
theorem killed_task_never_runs (now : ℕ) (ops : List Op)
    (hsafe : spares_dead.Ops (task_init (static_state now)) ops) :
    KilledStayDead ((init_run now).run ops).trace :=
  (Guard.Ops.preserved (fun _ op hr hop => AtTop.step hr op hop) ops (init_run now) (init_atTop now) hsafe).1.kept

theorem killed_task_never_runs_other :
    spares_dead.Ops (task_init (static_state 0))
        [.create [] 1 1, .create [] 2 1, .yield [.kill 2], .yield [], .yield []] ∧
      KilledStayDead ((init_run 0).run
        [.create [] 1 1, .create [] 2 1, .yield [.kill 2], .yield [], .yield []]).trace ∧
      .killed 33 ∈ ((init_run 0).run
        [.create [] 1 1, .create [] 2 1, .yield [.kill 2], .yield [], .yield []]).trace := by
  have hsafe : spares_dead.Ops (task_init (static_state 0))
      [.create [] 1 1, .create [] 2 1, .yield [.kill 2], .yield [], .yield []] := by
    refine ⟨trivial, trivial, ⟨trivial, fun _ => ⟨?_, ?_⟩⟩, ⟨trivial, fun hfun => ?_⟩, ⟨trivial, fun _ => ?_⟩, trivial⟩
    · change ∀ i, task_get _ 2 = some i → find_id _ 2 = some i
      decide +kernel
    · change _ ≠ TASK_DEAD
      decide +kernel
    · exact absurd hfun (by decide +kernel)
    · change _ ≠ TASK_DEAD
      decide +kernel
  exact ⟨hsafe, killed_task_never_runs 0 _ hsafe, by decide +kernel⟩

/-- A task that kills itself is ready again when its function returns. -/
theorem self_kill_runs_again :
    ¬ KilledStayDead ((init_run 0).run [.create [] 1 1, .yield [.kill 1], .yield [], .yield []]).trace := by
  have htrace : ((init_run 0).run [.create [] 1 1, .yield [.kill 1], .yield [], .yield []]).trace =
      [.invoked 32 0] ++ .killed 32 :: [.invoked 32 0] := by decide +kernel
  intro h
  exact h _ _ 32 htrace 0 (by simp)

end os_dev.task
