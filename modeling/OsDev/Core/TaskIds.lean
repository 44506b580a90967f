import OsDev.Core.Task

namespace os_dev.task

open task_state

/-- The calls on the task table. -/
inductive TableCall where
  | create (name : List UInt8) (function priority : ℕ)
  | kill (id : ℕ)
  | get (id : ℕ)

def TableCall.effect (st : Sched) : TableCall → Sched
  | .create name function priority => (task_create st name function priority).2
  | .kill id => task_kill st id
  | .get _ => st

/-- How many tasks a call may create. -/
def TableCall.creates : TableCall → ℕ
  | .create _ _ _ => 1
  | _ => 0

/-- What the table is for: the ids of the live tasks by their slots, and the id of the next task. -/
structure Registry where
  owner : Slot → Option ℕ
  next : ℕ

/-- The idle task alone. -/
def Registry.init : Registry where
  owner := fun i => if i = 0 then some 0 else none
  next := 1

def Registry.create (reg : Registry) : Registry :=
  match (List.finRange MAX_TASKS).tail.find? fun i => reg.owner i = none with
  | none => reg
  | some i => { owner := Function.update reg.owner i (some reg.next), next := reg.next + 1 }

def Registry.kill (reg : Registry) (id : ℕ) : Registry :=
  { reg with owner := fun i => if reg.owner i = some id then none else reg.owner i }

def Registry.call (reg : Registry) : TableCall → Registry
  | .create _ _ _ => reg.create
  | .kill id => reg.kill id
  | .get _ => reg

/-- The table answers by identity: as the live tasks of the registry. -/
structure Identifies (st : Sched) (reg : Registry) : Prop where
  live : ∀ i id, reg.owner i = some id ↔ (st.tasks i).state ≠ TASK_DEAD ∧ (st.tasks i).id = id
  distinct : ∀ i j id, reg.owner i = some id → reg.owner j = some id → i = j
  get : ∀ id i, task_get st id = some i ↔ reg.owner i = some id
  kill : ∀ id, task_kill st id = { st with
    tasks := fun i => if reg.owner i = some id then { st.tasks i with state := TASK_DEAD } else st.tasks i }
  full : ∀ name function priority, (task_create st name function priority).1 = -1 ↔ ∀ i, i ≠ 0 → reg.owner i ≠ none
  unchanged : ∀ name function priority, (task_create st name function priority).1 = -1 →
    (task_create st name function priority).2 = st
  created : ∀ name function priority i, i ≠ 0 → reg.owner i = none → reg.next < 2 ^ 31 →
    (task_create st name function priority).1 = reg.next

/-- The table against the registry. Dead slots keep the ids of their last tasks, which are never used again;
    a slot that was never used has the id 0 of the idle task, but it is dead and behind slot 0. -/
structure Tracks (st : Sched) (reg : Registry) : Prop where
  next : st.next_task_id = reg.next
  live : ∀ i id, reg.owner i = some id ↔ (st.tasks i).state ≠ TASK_DEAD ∧ (st.tasks i).id = id
  old : ∀ i, (st.tasks i).id < reg.next
  stale : ∀ i j, (st.tasks i).id = (st.tasks j).id → i = j ∨ (st.tasks i).id = 0
  idle : (st.tasks 0).id = 0
  unused : ∀ i, i ≠ 0 → (st.tasks i).id = 0 → (st.tasks i).state = TASK_DEAD

variable {st : Sched} {reg : Registry} {i j : Slot} {id : ℕ}

theorem finRange_eq : List.finRange MAX_TASKS = 0 :: (List.finRange MAX_TASKS).tail := rfl

theorem mem_finRange_tail (hi : i ≠ 0) : i ∈ (List.finRange MAX_TASKS).tail := by
  have hmem := List.mem_finRange i
  rw [finRange_eq] at hmem
  exact (List.mem_cons.mp hmem).resolve_left hi

theorem ne_zero_of_mem_tail (hi : i ∈ (List.finRange MAX_TASKS).tail) : i ≠ 0 := by
  rintro rfl
  have hnodup := List.nodup_finRange MAX_TASKS
  rw [finRange_eq] at hnodup
  exact (List.nodup_cons.mp hnodup).1 hi

namespace Tracks

variable (h : Tracks st reg)

include h

theorem vacant : reg.owner i = none ↔ (st.tasks i).state = TASK_DEAD := by
  rw [Option.eq_none_iff_forall_ne_some]
  constructor
  · intro hnone
    by_contra hlive
    exact hnone _ ((h.live i _).mpr ⟨hlive, rfl⟩)
  · exact fun hdead id hid => ((h.live i id).mp hid).1 hdead

/-- Two slots with one id, at most one of which is in front of slot 1, are one slot. -/
theorem same_slot (hi : (st.tasks i).id = id) (hj : (st.tasks j).id = id) (hzero : id = 0 → i = j) : i = j := by
  rcases h.stale i j (hi.trans hj.symm) with heq | hid
  · exact heq
  · exact hzero (hi.symm.trans hid)

/-- A live slot with the id of the idle task is the idle task. -/
theorem live_zero (hlive : (st.tasks i).state ≠ TASK_DEAD) (hid : (st.tasks i).id = 0) : i = 0 := by
  by_contra hne
  exact hlive (h.unused i hne hid)

theorem distinct (hi : reg.owner i = some id) (hj : reg.owner j = some id) : i = j := by
  obtain ⟨hlivei, hidi⟩ := (h.live i id).mp hi
  obtain ⟨hlivej, hidj⟩ := (h.live j id).mp hj
  refine h.same_slot hidi hidj fun hzero => ?_
  rw [h.live_zero hlivei (hidi.trans hzero), h.live_zero hlivej (hidj.trans hzero)]

/-- The first slot with an id is the one of the live task, if there is one. -/
theorem find_id_live (hfind : find_id st id = some i) (hj : reg.owner j = some id) : j = i := by
  obtain ⟨hlive, hid⟩ := (h.live j id).mp hj
  have hi : (st.tasks i).id = id := by simpa using List.find?_some hfind
  refine h.same_slot hid hi fun hzero => ?_
  rw [h.live_zero hlive (hid.trans hzero)]
  rw [find_id, finRange_eq, List.find?_cons_of_pos (by simp [h.idle, hzero])] at hfind
  exact Option.some.inj hfind

theorem get_iff : task_get st id = some i ↔ reg.owner i = some id := by
  constructor
  · intro hget
    have hfound : (st.tasks i).id = id ∧ (st.tasks i).state ≠ TASK_DEAD := by simpa using List.find?_some hget
    exact (h.live i id).mpr ⟨hfound.2, hfound.1⟩
  · intro hi
    obtain ⟨hlive, hid⟩ := (h.live i id).mp hi
    cases hget : task_get st id with
    | none =>
      have hnone := List.find?_eq_none.mp hget i (List.mem_finRange i)
      simp [hlive, hid] at hnone
    | some j =>
      have hfound : (st.tasks j).id = id ∧ (st.tasks j).state ≠ TASK_DEAD := by simpa using List.find?_some hget
      rw [h.distinct ((h.live j id).mpr ⟨hfound.2, hfound.1⟩) hi]

/-- `task_kill` changes the slot of the live task with the id, and none other. -/
theorem kill_eq : task_kill st id = { st with
    tasks := fun i => if reg.owner i = some id then { st.tasks i with state := TASK_DEAD } else st.tasks i } := by
  unfold task_kill
  cases hfind : find_id st id with
  | none =>
    have hnone : ∀ i, reg.owner i ≠ some id := by
      intro i hi
      have hout := List.find?_eq_none.mp hfind i (List.mem_finRange i)
      simp [((h.live i id).mp hi).2] at hout
    simp [hnone]
  | some i =>
    have hid : (st.tasks i).id = id := by simpa using List.find?_some hfind
    simp only [Sched.set]
    congr 1
    funext j
    rw [Function.update_apply]
    by_cases hji : j = i
    · subst hji
      rw [if_pos rfl]
      split
      · rfl
      · -- the first slot with the id is dead already
        rename_i hnot
        have hdead : (st.tasks j).state = TASK_DEAD := by
          by_contra hlive
          exact hnot ((h.live j id).mpr ⟨hlive, hid⟩)
        rw [← hdead]
    · rw [if_neg hji, if_neg fun hj => hji (h.find_id_live hfind hj)]

theorem free_slot_eq : free_slot st = (List.finRange MAX_TASKS).tail.find? fun i => reg.owner i = none := by
  unfold free_slot
  congr 1
  funext i
  rw [decide_eq_decide]
  exact h.vacant.symm

theorem free_slot_none : free_slot st = none ↔ ∀ i, i ≠ 0 → reg.owner i ≠ none := by
  rw [h.free_slot_eq, List.find?_eq_none]
  constructor
  · intro hfull i hi hvacant
    exact hfull i (mem_finRange_tail hi) (decide_eq_true hvacant)
  · intro hlive i hi hvacant
    exact hlive i (ne_zero_of_mem_tail hi) (of_decide_eq_true hvacant)

/-- `task_create` puts the task into a vacant slot, if there is one. -/
theorem create (name : List UInt8) (function priority : ℕ) (hsmall : reg.next < 2 ^ 32 - 1) :
    Tracks (task_create st name function priority).2 reg.create := by
  unfold task_create Registry.create
  rw [← h.free_slot_eq]
  cases hslot : free_slot st with
  | none => exact h
  | some i =>
    have hi : i ≠ 0 := ne_zero_of_mem_tail (List.mem_of_find?_eq_some hslot)
    refine ⟨?_, fun j id => ?_, fun j => ?_, fun j k hjk => ?_, ?_, fun j hj hzero => ?_⟩
    · simp only [h.next]
      omega
    · simp only [Sched.set_tasks, Function.update_apply, new_task, h.next]
      split
      · simp
      · exact h.live j id
    · simp only [Sched.set_tasks, new_task, h.next]
      have hj := h.old j
      split
      · exact Nat.lt_succ_self _
      · exact Nat.lt_succ_of_lt hj
    · simp only [Sched.set_tasks, new_task, h.next] at hjk ⊢
      have hj := h.old j
      have hk := h.old k
      split_ifs at hjk ⊢ with h₁ h₂ h₂
      · exact .inl (h₁.trans h₂.symm)
      · simp only at hjk
        omega
      · simp only at hjk
        omega
      · exact h.stale j k hjk
    · rw [Sched.set_tasks, if_neg hi.symm]
      exact h.idle
    · simp only [Sched.set_tasks, new_task, h.next] at hzero ⊢
      have hpos := h.old 0
      split_ifs at hzero ⊢
      · simp only at hzero
        omega
      · exact h.unused j hj hzero

theorem kill (id : ℕ) : Tracks (task_kill st id) (reg.kill id) := by
  rw [h.kill_eq]
  have hids : ∀ j, (if reg.owner j = some id then { st.tasks j with state := TASK_DEAD } else st.tasks j).id = (st.tasks j).id := by
    intro j
    split <;> rfl
  refine ⟨h.next, fun j id' => ?_, fun j => ?_, fun j k hjk => ?_, ?_, fun j hj hzero => ?_⟩
  · simp only [Registry.kill, hids]
    split
    · simp
    · exact h.live j id'
  · exact (hids j).trans_lt (h.old j)
  · simp only [hids] at hjk ⊢
    exact h.stale j k hjk
  · exact (hids 0).trans h.idle
  · simp only [hids] at hzero ⊢
    split
    · rfl
    · exact h.unused j hj hzero

theorem call (c : TableCall) (hsmall : reg.next < 2 ^ 32 - 1) : Tracks (c.effect st) (reg.call c) := by
  cases c with
  | create name function priority => exact h.create name function priority hsmall
  | kill id => exact h.kill id
  | get id => exact h

theorem identifies (hsmall : reg.next ≤ 2 ^ 31) : Identifies st reg := by
  have hcreate : ∀ name function priority, (task_create st name function priority).1 = -1 ↔ free_slot st = none := by
    intro name function priority
    unfold task_create
    cases free_slot st with
    | none => simp
    | some i =>
      simp only [h.next, as_int, reduceCtorEq, iff_false]
      split <;> omega
  refine ⟨h.live, fun i j id => h.distinct, fun id i => h.get_iff, fun id => h.kill_eq, fun name function priority => ?_,
    fun name function priority hfail => ?_, fun name function priority i hi hvacant hnext => ?_⟩
  · rw [hcreate, h.free_slot_none]
  · rw [hcreate] at hfail
    rw [task_create, hfail]
  · have hslot : free_slot st ≠ none := fun hnone => h.free_slot_none.mp hnone i hi hvacant
    obtain ⟨k, hk⟩ := Option.ne_none_iff_exists'.mp hslot
    simp only [task_create, hk, h.next, as_int, if_pos hnext]

end Tracks

theorem registry_next_le (reg : Registry) (c : TableCall) : (reg.call c).next ≤ reg.next + c.creates := by
  cases c with
  | create name function priority =>
    simp only [Registry.call, Registry.create, TableCall.creates]
    split
    · exact Nat.le_succ _
    · exact le_rfl
  | kill id => exact le_rfl
  | get id => exact le_rfl

theorem init_tracks (now : ℕ) : Tracks (task_init (static_state now)) .init := by
  have hid : ∀ i, ((task_init (static_state now)).tasks i).id = 0 := by
    intro i
    simp only [task_init, Sched.set_tasks]
    split <;> rfl
  have hstate : ∀ i, ((task_init (static_state now)).tasks i).state = if i = 0 then TASK_READY else TASK_DEAD := by
    intro i
    simp only [task_init, Sched.set_tasks]
    split <;> rfl
  refine ⟨rfl, fun i id => ?_, fun i => ?_, fun i j _ => .inr (hid i), hid 0, fun i hi _ => ?_⟩
  · rw [hid, hstate]
    by_cases hi : i = 0
    · simp [Registry.init, hi]
    · simp [Registry.init, hi]
  · rw [hid]
    exact Nat.one_pos
  · rw [hstate, if_neg hi]

theorem calls_track (calls : List TableCall) (h : Tracks st reg) (hfew : reg.next + (calls.map TableCall.creates).sum ≤ 2 ^ 31) :
    Tracks (calls.foldl TableCall.effect st) (calls.foldl Registry.call reg) ∧ (calls.foldl Registry.call reg).next ≤ 2 ^ 31 := by
  induction calls generalizing st reg with
  | nil => exact ⟨h, by simpa using hfew⟩
  | cons c calls ih =>
    rw [List.map_cons, List.sum_cons] at hfew
    have hnext := registry_next_le reg c
    exact ih (h.call c (by omega)) (by omega)

/-- Tasks keep their identity over every sequence of calls that creates fewer than `2 ^ 31` tasks. -/
theorem task_identity (now : ℕ) (calls : List TableCall) (hfew : (calls.map TableCall.creates).sum < 2 ^ 31) :
    Identifies (calls.foldl TableCall.effect (task_init (static_state now))) (calls.foldl Registry.call .init) := by
  have hnext : Registry.init.next = 1 := rfl
  obtain ⟨htracks, hsmall⟩ := calls_track calls (init_tracks now) (by omega)
  exact htracks.identifies hsmall

/-- A slot is used again: its first task is gone, and its second one has an id of its own. -/
theorem task_identity_reuse : Identifies
    ([.create [0x61] 1 0, .kill 1, .create [0x62] 1 0, .get 1].foldl TableCall.effect (task_init (static_state 0)))
    ([.create [0x61] 1 0, .kill 1, .create [0x62] 1 0, .get 1].foldl Registry.call .init) :=
  task_identity 0 _ (by decide)

end os_dev.task
