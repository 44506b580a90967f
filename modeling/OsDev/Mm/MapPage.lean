import OsDev.Mm.PageTables

open little_endian linked_tree

namespace os_dev.vmm

variable {σ : Type} {alloc : σ → ℕ × σ} {s s₁ s₂ : Vm σ} {root va n t : ℕ}

/-- The state in which the allocator is asked for a table under an entry. -/
def asks (s : Vm σ) (entry : ℕ) : List (Vm σ) := if Present (le64 s.mem entry) then [] else [s]

/-- The requests of the first two levels. -/
def upper_requests (alloc : σ → ℕ × σ) (pml4_table : ℕ) (s : Vm σ) (va : ℕ) : List (Vm σ) :=
  asks s (pml4_table + 8 * index 3 va) ++
    match pdpt_of alloc pml4_table s va with
    | (none, _) => []
    | (some pdpt, s) => asks s (pdpt + 8 * index 2 va)

/-- The states in which a call of `vmm_map_page` asks for a frame. -/
def requests (alloc : σ → ℕ × σ) (pml4_table : ℕ) (s : Vm σ) (va : ℕ) : List (Vm σ) :=
  upper_requests alloc pml4_table s va ++
    match pd_of alloc pml4_table s va with
    | (none, _) => []
    | (some pd, s) => asks s (pd + 8 * index 1 va)

/-- A page frame that is not used by any table. -/
structure FreshFrame (mem : ℕ → UInt8) (pml4_table addr : ℕ) : Prop where
  aligned : 4096 ∣ addr
  bound : addr < 2 ^ 52
  unused : Unused (entries mem) (pml4_table / 4096) (addr / 4096)

/-- The answer to a request is 0 or a fresh frame. -/
def Answers (alloc : σ → ℕ × σ) (pml4_table : ℕ) (s : Vm σ) : Prop :=
  (alloc s.frames).1 = 0 ∨ FreshFrame s.mem pml4_table (alloc s.frames).1

/-- The request fails. -/
def Fails (alloc : σ → ℕ × σ) (s : Vm σ) : Prop := (alloc s.frames).1 = 0

/-- From `s` on, table `t` has been reached on the way to `va`, at the `n`-th level. No
    translation has changed, and tables have been added on that way only. -/
structure Reaches (s : Vm σ) (root va n t : ℕ) (s₁ : Vm σ) : Prop where
  tree : TableTree (entries s₁.mem) root
  reached : follow (child (entries s₁.mem)) root (upper va n) = some t
  same : ∀ va', walk_from (entries s₁.mem) va' 3 root true = walk_from (entries s.mem) va' 3 root true
  huge : ∀ va', UnderHuge (entries s₁.mem) root va' ↔ UnderHuge (entries s.mem) root va'
  kept : ∀ p u, p.length ≤ 3 → follow (child (entries s.mem)) root p = some u →
    follow (child (entries s₁.mem)) root p = some u
  others : ∀ p, p.length ≤ 3 → (∀ m ≤ n, p ≠ upper va m) →
    follow (child (entries s₁.mem)) root p = follow (child (entries s.mem)) root p

theorem Reaches.start (h : TableTree (entries s.mem) root) (va : ℕ) : Reaches s root va 0 root s :=
  ⟨h, rfl, fun _ => rfl, fun _ => Iff.rfl, fun _ _ _ hp => hp, fun _ _ _ => rfl⟩

theorem mem_asks_self {entry : ℕ} (h : ¬ Present (le64 s.mem entry)) : s ∈ asks s entry := by
  rw [asks, if_neg h]
  exact List.mem_cons_self

/-- One level of `vmm_map_page` where the table is there already. -/
theorem Reaches.present (h : Reaches s root va n t s₁) (alloc : σ → ℕ × σ) (hn : n < 3)
    (hpresent : Present (entries s₁.mem t (index (3 - n) va))) (hflat : ¬ Huge (entries s₁.mem t (index (3 - n) va))) :
    ∃ t', table_at alloc s₁ (4096 * t + 8 * index (3 - n) va) = (some (4096 * t'), s₁) ∧
      Reaches s root va (n + 1) t' s₁ := by
  have hbound := h.tree.bounded _ t _ (by rwa [upper_length]) h.reached hpresent
  have hchild : child (entries s₁.mem) t (index (3 - n) va) = some (frame_of (entries s₁.mem t (index (3 - n) va))) :=
    child_eq_some.mpr ⟨hpresent, hflat, rfl⟩
  refine ⟨frame_of (entries s₁.mem t (index (3 - n) va)), ?_, h.tree, follow_snoc_eq_some.mpr ⟨t, h.reached, hchild⟩,
    h.same, h.huge, h.kept, fun p hp hother => h.others p hp fun m hm => hother m (by omega)⟩
  have hpointer : entries s₁.mem t (index (3 - n) va) / 4096 * 4096 =
      4096 * frame_of (entries s₁.mem t (index (3 - n) va)) := by
    unfold frame_of
    omega
  rw [table_at, ← hpointer]
  exact if_pos hpresent

/-- One level where a fresh frame becomes the table. -/
theorem Reaches.link (h : Reaches s root va n t s₁) (hn : n < 3)
    (hempty : ¬ Present (entries s₁.mem t (index (3 - n) va))) (hfail : (alloc s₁.frames).1 ≠ 0)
    (hfresh : FreshFrame s₁.mem (4096 * root) (alloc s₁.frames).1) :
    ∃ t' mem', (alloc s₁.frames).1 = 4096 * t' ∧
      table_at alloc s₁ (4096 * t + 8 * index (3 - n) va) = (some (4096 * t'), ⟨mem', (alloc s₁.frames).2⟩) ∧
      Reaches s root va (n + 1) t' ⟨mem', (alloc s₁.frames).2⟩ ∧
      ∀ p u, p.length ≤ 3 → (follow (child (entries mem')) root p = some u ↔
        follow (child (entries s₁.mem)) root p = some u ∨ p = upper va (n + 1) ∧ u = t') := by
  obtain ⟨⟨frame, hframe⟩, hbound, hunused⟩ := hfresh
  rw [hframe, Nat.mul_div_cancel_left _ (by decide), Nat.mul_div_cancel_left _ (by decide)] at hunused
  have site : LinkSite (entries s₁.mem) root (upper va n) t (index (3 - n) va) frame :=
    ⟨by rwa [upper_length], h.reached, hempty, hunused, by omega⟩
  have hlink : entries (put64 (zero_table s₁.mem (4096 * frame)) (4096 * t + 8 * index (3 - n) va)
      (4096 * frame + 3)) = link_table (entries s₁.mem) t (index (3 - n) va) frame := by
    rw [entries_put64 _ _ _ (by omega), entries_zero_table]
    rfl
  refine ⟨frame, put64 (zero_table s₁.mem (4096 * frame)) (4096 * t + 8 * index (3 - n) va) (4096 * frame + 3), hframe,
    ?_, ⟨?_, ?_, fun va' => ?_, fun va' => ?_, fun p u hp hu => ?_, fun p hp hother => ?_⟩, fun p u hp => ?_⟩
  · have hread : le64 s₁.mem (4096 * t + 8 * index (3 - n) va) = entries s₁.mem t (index (3 - n) va) := rfl
    rw [table_at, hread, if_neg hempty]
    rw [hframe] at hfail
    simp only [hframe, or_flags]
    rw [if_neg hfail, le64_put64_same (by omega)]
    exact congrArg₂ Prod.mk (congrArg some (by omega)) rfl
  · rw [hlink]
    exact site.tree h.tree
  · rw [hlink, site.follow h.tree (by rw [upper_length]; omega)]
    exact .inr ⟨rfl, rfl⟩
  · rw [hlink, ← h.same va']
    exact site.walk_from h.tree va' (p := []) rfl rfl true
  · rw [hlink, site.underHuge_iff h.tree]
    exact h.huge va'
  · rw [hlink, site.follow h.tree hp]
    exact .inl (h.kept p u hp hu)
  · rw [hlink, ← h.others p hp fun m hm => hother m (by omega)]
    refine Option.ext fun u => ?_
    rw [site.follow h.tree hp]
    exact or_iff_left fun hnew => hother (n + 1) le_rfl hnew.1
  · rw [hlink]
    exact site.follow h.tree hp

theorem table_at_fails {entry : ℕ} (hempty : ¬ Present (le64 s.mem entry)) (hfail : (alloc s.frames).1 = 0) :
    table_at alloc s entry = (none, { s with frames := (alloc s.frames).2 }) := by
  rw [table_at, if_neg hempty]
  exact if_pos hfail

/-- One level of `vmm_map_page`: the next table is reached, or the allocation fails. -/
theorem Reaches.table_at (h : Reaches s root va n t s₁) (hn : n < 3) {entry : ℕ}
    (hentry : entry = 4096 * t + 8 * index (3 - n) va)
    (hflat : Present (le64 s₁.mem entry) → ¬ Huge (le64 s₁.mem entry))
    (hanswers : ∀ r ∈ asks s₁ entry, Answers alloc (4096 * root) r) :
    (∃ t' s₂, vmm.table_at alloc s₁ entry = (some (4096 * t'), s₂) ∧ Reaches s root va (n + 1) t' s₂ ∧
        ∀ r ∈ asks s₁ entry, ¬ Fails alloc r) ∨
      ∃ frames, vmm.table_at alloc s₁ entry = (none, { s₁ with frames }) ∧ ∃ r ∈ asks s₁ entry, Fails alloc r := by
  subst hentry
  by_cases hpresent : Present (le64 s₁.mem (4096 * t + 8 * index (3 - n) va))
  · obtain ⟨t', heq, hreaches⟩ := h.present alloc hn hpresent (hflat hpresent)
    refine .inl ⟨t', s₁, heq, hreaches, ?_⟩
    simp [asks, hpresent]
  · have hmem := mem_asks_self hpresent
    by_cases hfail : (alloc s₁.frames).1 = 0
    · exact .inr ⟨_, table_at_fails hpresent hfail, s₁, hmem, hfail⟩
    · obtain ⟨t', mem', -, heq, hreaches, -⟩ := h.link hn hpresent hfail ((hanswers s₁ hmem).resolve_left hfail)
      refine .inl ⟨t', _, heq, hreaches, fun r hr => ?_⟩
      rw [asks, if_neg hpresent, List.mem_singleton] at hr
      exact hr ▸ hfail

/-- A table on the way has been reached, or an allocation has failed and left every
    translation as it was. -/
inductive Outcome (alloc : σ → ℕ × σ) (s : Vm σ) (root va n : ℕ) (asked : List (Vm σ)) : Option ℕ × Vm σ → Prop where
  | found {t : ℕ} {s₁ : Vm σ} (reaches : Reaches s root va n t s₁) (granted : ∀ r ∈ asked, ¬ Fails alloc r) :
    Outcome alloc s root va n asked (some (4096 * t), s₁)
  | failed {t k : ℕ} {s₁ : Vm σ} {frames : σ} (reaches : Reaches s root va k t s₁) (fails : ∃ r ∈ asked, Fails alloc r) :
    Outcome alloc s root va n asked (none, { s₁ with frames })

theorem pdpt_of_outcome (h : TableTree (entries s.mem) root) (va : ℕ)
    (hanswers : ∀ r ∈ asks s (4096 * root + 8 * index 3 va), Answers alloc (4096 * root) r) :
    Outcome alloc s root va 1 (asks s (4096 * root + 8 * index 3 va)) (pdpt_of alloc (4096 * root) s va) := by
  have hstart := Reaches.start h va
  obtain ⟨pdpt, s₁, heq, hreaches, hgranted⟩ | ⟨frames, heq, hfails⟩ := hstart.table_at (by decide) rfl
    (h.huge [] root (index 3 va) (by decide) rfl) hanswers
  · rw [pdpt_of, show table_at alloc s (4096 * root + 8 * index 3 va) = _ from heq]
    exact .found hreaches hgranted
  · rw [pdpt_of, show table_at alloc s (4096 * root + 8 * index 3 va) = _ from heq]
    exact .failed hstart hfails

theorem pd_of_outcome (h : TableTree (entries s.mem) root) (va : ℕ)
    (hanswers : ∀ r ∈ upper_requests alloc (4096 * root) s va, Answers alloc (4096 * root) r) :
    Outcome alloc s root va 2 (upper_requests alloc (4096 * root) s va) (pd_of alloc (4096 * root) s va) := by
  have hfirst := pdpt_of_outcome h va fun r hr => hanswers r (List.mem_append_left _ hr)
  unfold pd_of upper_requests at *
  generalize pdpt_of alloc (4096 * root) s va = result at *
  cases hfirst with
  | failed hreaches hfails =>
    obtain ⟨r, hr, hfail⟩ := hfails
    exact .failed hreaches ⟨r, List.mem_append_left _ hr, hfail⟩
  | @found pdpt s₁ hreaches hgranted =>
    have hflat := hreaches.tree.huge (upper va 1) pdpt (index 2 va) (by rw [upper_length]; decide) hreaches.reached
    obtain ⟨pd, s₂, heq, hreaches₂, hgranted₂⟩ | ⟨frames, heq, r, hr, hfail⟩ := hreaches.table_at (by decide) rfl hflat
      fun r hr => hanswers r (List.mem_append_right _ hr)
    · simp only [heq]
      refine .found hreaches₂ fun r hr => ?_
      obtain hr | hr := List.mem_append.mp hr
      · exact hgranted r hr
      · exact hgranted₂ r hr
    · simp only [heq]
      exact .failed hreaches ⟨r, List.mem_append_right _ hr, hfail⟩

/-- What the part of `vmm_map_page` before the last store does. -/
theorem pt_of_cases (h : TableTree (entries s.mem) root) (va : ℕ)
    (hanswers : ∀ r ∈ requests alloc (4096 * root) s va, Answers alloc (4096 * root) r) :
    (∃ pt s₃, pt_of alloc (4096 * root) s va = (some (4096 * pt), s₃) ∧ Reaches s root va 3 pt s₃ ∧
        ¬ UnderHuge (entries s.mem) root va ∧ ∀ r ∈ requests alloc (4096 * root) s va, ¬ Fails alloc r) ∨
      ∃ s₁ frames t n, pt_of alloc (4096 * root) s va = (none, { s₁ with frames }) ∧ Reaches s root va n t s₁ ∧
        (UnderHuge (entries s.mem) root va ∨ ∃ r ∈ requests alloc (4096 * root) s va, Fails alloc r) := by
  have hsecond := pd_of_outcome h va fun r hr => hanswers r (List.mem_append_left _ hr)
  unfold requests at hanswers ⊢
  unfold pt_of
  generalize pd_of alloc (4096 * root) s va = result at *
  cases hsecond with
  | @failed t k s₁ frames hreaches hfails =>
    obtain ⟨r, hr, hfail⟩ := hfails
    exact .inr ⟨s₁, frames, t, k, rfl, hreaches, .inr ⟨r, List.mem_append_left _ hr, hfail⟩⟩
  | @found pd s₂ hreaches hgranted =>
    simp only
    by_cases hhuge : Present (le64 s₂.mem (4096 * pd + 8 * index 1 va)) ∧ Huge (le64 s₂.mem (4096 * pd + 8 * index 1 va))
    · rw [if_pos hhuge]
      exact .inr ⟨s₂, s₂.frames, pd, 2, rfl, hreaches, .inl ((hreaches.huge va).mp ⟨pd, hreaches.reached, hhuge⟩)⟩
    · rw [if_neg hhuge]
      have hnot : ¬ UnderHuge (entries s.mem) root va := by
        rw [← hreaches.huge va]
        rintro ⟨pd', hpd', hpresent⟩
        rw [Option.some.inj (hpd'.symm.trans hreaches.reached)] at hpresent
        exact hhuge hpresent
      obtain ⟨pt, s₃, heq, hreaches₃, hgranted₃⟩ | ⟨frames, heq, r, hr, hfail⟩ := hreaches.table_at (by decide) rfl
        (fun hp hh => hhuge ⟨hp, hh⟩) fun r hr => hanswers r (List.mem_append_right _ hr)
      · refine .inl ⟨pt, s₃, heq, hreaches₃, hnot, fun r hr => ?_⟩
        obtain hr | hr := List.mem_append.mp hr
        · exact hgranted r hr
        · exact hgranted₃ r hr
      · exact .inr ⟨s₂, frames, pd, 2, heq, hreaches, .inr ⟨r, List.mem_append_right _ hr, hfail⟩⟩

/-- The page of `va` translates to the page of `pa`, with write access, and all other
    addresses to what they did before. -/
structure Maps (before after : ℕ → UInt8) (pml4_table va pa : ℕ) : Prop where
  page : ∀ va' < 2 ^ 48, va' / 4096 = va / 4096 → walk after pml4_table va' = some ⟨pa / 4096 * 4096 + va' % 4096, true⟩
  other : ∀ va' < 2 ^ 48, va' / 4096 ≠ va / 4096 → walk after pml4_table va' = walk before pml4_table va'

/-- No address translates differently. -/
def SameSpace (before after : ℕ → UInt8) (pml4_table : ℕ) : Prop :=
  ∀ va' < 2 ^ 48, walk after pml4_table va' = walk before pml4_table va'

theorem walk_eq (mem : ℕ → UInt8) (root va : ℕ) : walk mem (4096 * root) va = walk_from (entries mem) va 3 root true := by
  rw [walk, Nat.mul_div_cancel_left _ (by decide)]

/-- The last store of `vmm_map_page`. -/
theorem Reaches.store {pt : ℕ} (h : Reaches s root va 3 pt s₁) (hva : va < 2 ^ 48) {pa : ℕ} (hpa : pa < 2 ^ 48) :
    TableTree (entries (put64 s₁.mem (4096 * pt + 8 * index 0 va) (4096 * (pa / 4096) + 3))) root ∧
      Maps s.mem (put64 s₁.mem (4096 * pt + 8 * index 0 va) (4096 * (pa / 4096) + 3)) (4096 * root) va pa := by
  have hset : entries (put64 s₁.mem (4096 * pt + 8 * index 0 va) (4096 * (pa / 4096) + 3)) =
      set_entry (entries s₁.mem) pt (index 0 va) (4096 * (pa / 4096) + 3) := entries_put64 _ _ _ (by omega)
  have htree := set_leaf_tree h.tree (upper_length va 3) h.reached (index 0 va) (4096 * (pa / 4096) + 3)
  refine ⟨hset ▸ htree, fun va' hva' hpage => ?_, fun va' hva' hpage => ?_⟩
  · obtain ⟨hupper, hindex⟩ := (upper_eq_iff hva' hva).mpr hpage
    have hreached : follow (child (set_entry (entries s₁.mem) pt (index 0 va) (4096 * (pa / 4096) + 3))) root
        (upper va' 3) = some pt := by
      rw [hupper, follow_set_leaf h.tree (upper_length va 3) h.reached _ _ (upper_length va 3).le]
      exact h.reached
    rw [walk_eq, hset, htree.walk_from hreached (n := 0) rfl rfl]
    simp only [walk_from, hindex, set_entry_same, if_pos (table_entry_present _), table_entry_writable,
      frame_of_add _ (show pa / 4096 < 2 ^ 40 by omega), decide_true, Bool.and_true]
    rw [Nat.mul_comm]
  · rw [walk_eq, walk_eq, hset, ← h.same va']
    refine walk_from_set_leaf h.tree h.reached _ (fun hsame => hpage ?_) (n := 0) rfl rfl true
    exact (upper_eq_iff hva' hva).mp hsame

/-- One call: the page is mapped, or the call is refused and no translation changes. -/
theorem vmm_map_page_cases (h : TableTree (entries s.mem) root) (hva : va < 2 ^ 48) {pa : ℕ} (hpa : pa < 2 ^ 48)
    (hanswers : ∀ r ∈ requests alloc (4096 * root) s va, Answers alloc (4096 * root) r) :
    TableTree (entries (vmm_map_page alloc (4096 * root) s va pa).mem) root ∧
      ((¬ UnderHuge (entries s.mem) root va ∧ (∀ r ∈ requests alloc (4096 * root) s va, ¬ Fails alloc r) ∧
          Maps s.mem (vmm_map_page alloc (4096 * root) s va pa).mem (4096 * root) va pa) ∨
        (UnderHuge (entries s.mem) root va ∨ ∃ r ∈ requests alloc (4096 * root) s va, Fails alloc r) ∧
          SameSpace s.mem (vmm_map_page alloc (4096 * root) s va pa).mem (4096 * root)) := by
  obtain ⟨pt, s₃, heq, hreaches, hnot, hgranted⟩ | ⟨s₁, frames, t, n, heq, hreaches, hrefused⟩ :=
    pt_of_cases h va hanswers
  · obtain ⟨htree, hmaps⟩ := hreaches.store hva hpa
    simp only [vmm_map_page, heq, Nat.mul_comm (pa / 4096), or_flags]
    exact ⟨htree, .inl ⟨hnot, hgranted, hmaps⟩⟩
  · simp only [vmm_map_page, heq]
    refine ⟨hreaches.tree, .inr ⟨hrefused, fun va' _ => ?_⟩⟩
    rw [walk_eq, walk_eq]
    exact hreaches.same va'

end os_dev.vmm
