import OsDev.Mm.KernelBoot
import OsDev.Mm.FrameSupply

open little_endian linked_tree fuel
open os_dev.pmm os_dev.vmm

namespace os_dev.boot

variable {s s₁ s₂ : Vm Pmm} {root va n t j : ℕ}

/-- The tables are a tree, in frames that the allocator does not count as free. -/
structure Owned (root : ℕ) (s : Vm Pmm) : Prop where
  tree : TableTree (entries s.mem) root
  taken : ∀ p t, p.length ≤ 3 → follow (child (entries s.mem)) root p = some t → ¬ Free s.frames t
  hint : s.frames.last_free_bit < 2 ^ 32

/-- Any allocation gives a frame that no table uses, or fails. -/
theorem Owned.answers (h : Owned root s) : Answers pmm_alloc_block (4096 * root) s := by
  have hN := PMM_BLOCKS_eq
  have hhint := h.hint
  obtain heq | ⟨block, -, hbound, hfree, heq⟩ := alloc_block_cases s.frames
  · exact .inl (by rw [heq])
  · refine .inr ?_
    rw [heq]
    simp only [take_block, PMM_BLOCK_SIZE]
    refine ⟨⟨block, Nat.mul_comm _ _⟩, by omega, ?_⟩
    rw [Nat.mul_div_cancel _ (by decide), Nat.mul_div_cancel_left _ (by decide)]
    exact fun p hp ht => h.taken p block hp ht hfree

theorem alloc_hint_lt (st : Pmm) (h : st.last_free_bit < 2 ^ 32) : (pmm_alloc_block st).2.last_free_bit < 2 ^ 32 := by
  obtain heq | ⟨block, -, -, -, heq⟩ := alloc_block_cases st
  · rwa [heq]
  · rw [heq]
    exact Nat.mod_lt _ (by decide)

/-- An allocation takes bits only. -/
theorem alloc_free_mono (st : Pmm) {c : ℕ} (h : Free (pmm_alloc_block st).2 c) : Free st c := by
  obtain heq | ⟨block, -, -, -, heq⟩ := alloc_block_cases st
  · rwa [heq] at h
  · rw [heq, free_take_block] at h
    exact h.2

theorem after_free_mono (st : Pmm) {j c : ℕ} (h : Free (after st j) c) : Free st c := by
  induction j with
  | zero => exact h
  | succ j ih => exact ih (alloc_free_mono _ h)

/-- A frame that was handed out is not free. -/
theorem alloc_taken (st : Pmm) {t : ℕ} (ht : (pmm_alloc_block st).1 = 4096 * t) (hne : (pmm_alloc_block st).1 ≠ 0) :
    ¬ Free (pmm_alloc_block st).2 t := by
  obtain heq | ⟨block, -, -, -, heq⟩ := alloc_block_cases st
  · exact absurd (by rw [heq]) hne
  · rw [heq] at ht ⊢
    rw [free_take_block]
    simp only [take_block, PMM_BLOCK_SIZE] at ht
    exact fun h => h.1 (by omega)

/-- The allocator may move on by itself. -/
theorem Owned.alloc (h : Owned root s) : Owned root { s with frames := (pmm_alloc_block s.frames).2 } :=
  ⟨h.tree, fun p t hp ht hfree => h.taken p t hp ht (alloc_free_mono s.frames hfree), alloc_hint_lt s.frames h.hint⟩

/-- How many tables there are. -/
def table_count (root : ℕ) (s : Vm Pmm) : ℕ := (nodes (child (entries s.mem)) root 3).card

theorem table_count_le (root : ℕ) (s : Vm Pmm) : table_count root s ≤ 1 + 512 + 512 ^ 2 + 512 ^ 3 := by
  have hnodes := card_nodes_le (child (entries s.mem)) root 3
  have h₀ : (paths (Fin 512) 0).card = 1 := rfl
  have h₁ := @card_paths_succ_le (Fin 512) _ _ 0
  have h₂ := @card_paths_succ_le (Fin 512) _ _ 1
  have h₃ := @card_paths_succ_le (Fin 512) _ _ 2
  simp only [Fintype.card_fin, Nat.reduceAdd] at h₁ h₂ h₃
  unfold table_count
  omega

/-- The hint is in order, and behind the bitmap by no more than one byte for every
    table. -/
structure Budget (root : ℕ) (s : Vm Pmm) : Prop where
  hinted : Hinted s.frames
  low : 256 ≤ s.frames.last_free_bit
  high : s.frames.last_free_bit ≤ PMM_BLOCKS + 8 * table_count root s

theorem Budget.roving (h : Budget root s) : Roving s.frames (2 ^ 31) := by
  have hN := PMM_BLOCKS_eq
  have hcard := table_count_le root s
  have hhigh := h.high
  exact ⟨h.low, by omega⟩

theorem Budget.supply (h : Budget root s) {bound : ℕ} (hbound : bound < 2 ^ 27) : Supply s.frames bound := by
  have hN := PMM_BLOCKS_eq
  have hhigh := h.roving.high
  exact ⟨h.low, by omega, h.hinted⟩

theorem Budget.congr (h : Budget root s) (hframes : s₁.frames = s.frames)
    (hfollow : ∀ p, p.length ≤ 3 → follow (child (entries s₁.mem)) root p = follow (child (entries s.mem)) root p) :
    Budget root s₁ := by
  obtain ⟨hhinted, hlow, hhigh⟩ := h
  refine ⟨hframes ▸ hhinted, hframes ▸ hlow, ?_⟩
  rwa [hframes, table_count, nodes_congr hfollow]

/-- A frame that becomes a table pays for its own step of the hint. -/
theorem Budget.link (h : Budget root s) {mem' : Memory} {p : List (Fin 512)} {t' : ℕ} (hp : p.length ≤ 3)
    (hnone : follow (child (entries s.mem)) root p = none)
    (hfollow : ∀ q u, q.length ≤ 3 → (follow (child (entries mem')) root q = some u ↔
      follow (child (entries s.mem)) root q = some u ∨ q = p ∧ u = t')) :
    Budget root ⟨mem', (pmm_alloc_block s.frames).2⟩ := by
  have hN := PMM_BLOCKS_eq
  have hlow := h.low
  have hhigh := h.high
  have hcard : table_count root s + 1 ≤ table_count root ⟨mem', (pmm_alloc_block s.frames).2⟩ :=
    card_nodes_succ_le hp hnone hfollow
  have hbound := table_count_le root s
  have hsupply : Supply s.frames (0 + 1) := h.supply (by decide)
  have hsupply := hsupply.alloc
  refine ⟨hsupply.hinted, hsupply.low, ?_⟩
  obtain heq | ⟨block, hblock, hlt, -, heq⟩ := alloc_block_cases s.frames
  · rw [heq] at hcard ⊢
    exact hhigh.trans (by omega)
  · have hlast : (pmm_alloc_block s.frames).2.last_free_bit = block + 1 := by
      rw [heq]
      exact Nat.mod_eq_of_lt (by omega)
    simp only [hlast]
    omega

/-- How far a call has come: table `t` is reached at level `n`, and `j` frames have been
    asked for. -/
structure Progress (s : Vm Pmm) (root va n t j : ℕ) (s₁ : Vm Pmm) : Prop where
  reaches : Reaches s root va n t s₁
  owned : Owned root s₁
  frames : s₁.frames = after s.frames j
  budget : Budget root s → Budget root s₁

theorem Progress.start (h : Owned root s) (va : ℕ) : Progress s root va 0 root 0 s :=
  ⟨.start h.tree va, h, rfl, id⟩

/-- The next table of the way is missing. -/
theorem Reaches.next_iff (h : Reaches s root va n t s₁) (hn : n < 3)
    (hflat : Present (entries s₁.mem t (index (3 - n) va)) → ¬ Huge (entries s₁.mem t (index (3 - n) va))) :
    Present (entries s₁.mem t (index (3 - n) va)) ↔ follow (child (entries s.mem)) root (upper va (n + 1)) ≠ none := by
  have hother : follow (child (entries s₁.mem)) root (upper va (n + 1)) =
      follow (child (entries s.mem)) root (upper va (n + 1)) := by
    refine h.others _ (by rw [upper_length]; omega) fun m hm heq => ?_
    have := congrArg List.length heq
    rw [upper_length, upper_length] at this
    omega
  rw [← hother, upper, follow_snoc, h.reached, Option.bind_some, child]
  by_cases hpresent : Present (entries s₁.mem t (index (3 - n) va))
  · rw [if_pos ⟨hpresent, hflat hpresent⟩]
    exact iff_of_true hpresent (Option.some_ne_none _)
  · rw [if_neg fun hchild => hpresent hchild.1]
    exact iff_of_false hpresent fun hnone => hnone rfl

/-- The tables of one state are in their places in another. -/
def Keeps (root : ℕ) (s s₁ : Vm Pmm) : Prop :=
  ∀ p u, p.length ≤ 3 → follow (child (entries s.mem)) root p = some u → follow (child (entries s₁.mem)) root p = some u

/-- One level with the real allocator: the table was there, or the next frame becomes
    it, or there is no frame. -/
theorem Progress.table_at (h : Progress s root va n t j s₁) (hn : n < 3) {entry : ℕ}
    (hentry : entry = 4096 * t + 8 * index (3 - n) va)
    (hflat : Present (entries s₁.mem t (index (3 - n) va)) → ¬ Huge (entries s₁.mem t (index (3 - n) va))) :
    (∃ t', follow (child (entries s.mem)) root (upper va (n + 1)) = some t' ∧
        table_at pmm_alloc_block s₁ entry = (some (4096 * t'), s₁) ∧ Progress s root va (n + 1) t' j s₁) ∨
      follow (child (entries s.mem)) root (upper va (n + 1)) = none ∧
        ((∃ t' s₂, answer s.frames j = 4096 * t' ∧ answer s.frames j ≠ 0 ∧
            table_at pmm_alloc_block s₁ entry = (some (4096 * t'), s₂) ∧
            Progress s root va (n + 1) t' (j + 1) s₂ ∧ Keeps root s₁ s₂) ∨
          answer s.frames j = 0 ∧ table_at pmm_alloc_block s₁ entry = (none, { s₁ with frames := after s.frames (j + 1) })) := by
  have hnext := Reaches.next_iff h.reaches hn hflat
  have hanswer : answer s.frames j = (pmm_alloc_block s₁.frames).1 := by rw [h.frames, answer]
  have hafter : after s.frames (j + 1) = (pmm_alloc_block s₁.frames).2 := by rw [h.frames, after]
  subst hentry
  by_cases hpresent : Present (entries s₁.mem t (index (3 - n) va))
  · obtain ⟨t', heq, hreaches⟩ := h.reaches.present pmm_alloc_block hn hpresent (hflat hpresent)
    obtain ⟨u, hu⟩ := Option.ne_none_iff_exists'.mp (hnext.mp hpresent)
    have hsame := hreaches.kept _ u (by rw [upper_length]; omega) hu
    obtain rfl := Option.some.inj (hsame.symm.trans hreaches.reached)
    exact .inl ⟨u, hu, heq, hreaches, h.owned, h.frames, h.budget⟩
  · refine .inr ⟨not_not.mp (mt hnext.mpr hpresent), ?_⟩
    rw [hanswer, hafter]
    by_cases hfail : (pmm_alloc_block s₁.frames).1 = 0
    · exact .inr ⟨hfail, table_at_fails hpresent hfail⟩
    · obtain ⟨t', mem', hframe, heq, hreaches, hfollow⟩ :=
        h.reaches.link hn hpresent hfail (h.owned.answers.resolve_left hfail)
      have hmissing : follow (child (entries s₁.mem)) root (upper va (n + 1)) = none := by
        rw [upper, follow_snoc, h.reaches.reached, Option.bind_some, child]
        exact if_neg fun hchild => hpresent hchild.1
      refine .inl ⟨t', _, hframe, hfail, heq, ⟨hreaches, ⟨hreaches.tree, fun p u hp hu => ?_, ?_⟩, hafter.symm, fun hbudget => ?_⟩,
        fun p u hp hu => (hfollow p u hp).mpr (.inl hu)⟩
      · -- the new table is taken now, the others were before
        obtain hu | ⟨-, rfl⟩ := (hfollow p u hp).mp hu
        · exact fun hfree => h.owned.taken p u hp hu (alloc_free_mono _ hfree)
        · exact alloc_taken _ hframe hfail
      · exact alloc_hint_lt _ h.owned.hint
      · exact (h.budget hbudget).link (by rw [upper_length]; omega) hmissing hfollow

/-- A table in the identity-mapped 4 GB. -/
def LowTable (addr : ℕ) : Prop := addr + 4096 ≤ IDENTITY_LIMIT

/-- 1 if a table of the way to `va` is missing, else 0. -/
def missing (s : Vm Pmm) (root va n : ℕ) : ℕ :=
  if follow (child (entries s.mem)) root (upper va n) = none then 1 else 0

/-- The table at level `n` of the way to `va` is low: the one that is there, or the one
    that the allocator's answer number `j` makes. -/
structure LowLevel (s : Vm Pmm) (root va n j : ℕ) : Prop where
  existing : ∀ t, follow (child (entries s.mem)) root (upper va n) = some t → LowTable (4096 * t)
  created : follow (child (entries s.mem)) root (upper va n) = none → LowTable (answer s.frames j)

/-- A level of the way with the real allocator, from state `s₁` on, and whether its
    table is low. -/
inductive Level (s s₁ : Vm Pmm) (root va n j : ℕ) : Option ℕ × Vm Pmm → Prop where
  | found {t : ℕ} {s₂ : Vm Pmm} (progress : Progress s root va n t (j + missing s root va n) s₂)
      (keeps : Keeps root s₁ s₂) (low : LowTable (4096 * t) ↔ LowLevel s root va n j) :
    Level s s₁ root va n j (some (4096 * t), s₂)
  | failed {s₂ : Vm Pmm} (missed : missing s root va n = 1) (zero : answer s.frames j = 0)
      (owned : Owned root { s₂ with frames := after s.frames (j + 1) }) :
    Level s s₁ root va n j (none, { s₂ with frames := after s.frames (j + 1) })

theorem Progress.level (h : Progress s root va n t j s₁) (hn : n < 3) {entry : ℕ}
    (hentry : entry = 4096 * t + 8 * index (3 - n) va)
    (hflat : Present (entries s₁.mem t (index (3 - n) va)) → ¬ Huge (entries s₁.mem t (index (3 - n) va))) :
    Level s s₁ root va (n + 1) j (vmm.table_at pmm_alloc_block s₁ entry) := by
  obtain ⟨t', hthere, heq, hprogress⟩ | ⟨hnone, ⟨t', s₂, hanswer, -, heq, hprogress, hkeeps⟩ | ⟨hzero, heq⟩⟩ :=
    h.table_at hn hentry hflat
  · have hmissing : missing s root va (n + 1) = 0 := by rw [missing, hthere]; rfl
    rw [heq]
    refine .found (by rwa [hmissing]) (fun _ _ _ hu => hu)
      ⟨fun hlow => ⟨fun u hu => ?_, fun hnone => ?_⟩, fun hlow => hlow.existing t' hthere⟩
    · rwa [← Option.some.inj (hthere.symm.trans hu)]
    · rw [hthere] at hnone
      cases hnone
  · have hmissing : missing s root va (n + 1) = 1 := by rw [missing, hnone]; rfl
    rw [heq]
    refine .found (by rwa [hmissing]) hkeeps ⟨fun hlow => ⟨fun u hu => ?_, fun _ => hanswer ▸ hlow⟩, fun hlow => ?_⟩
    · rw [hnone] at hu
      cases hu
    · exact hanswer ▸ hlow.created hnone
  · have howned := h.owned.alloc
    rw [h.frames, ← after] at howned
    rw [heq]
    exact .failed (by rw [missing, hnone]; rfl) hzero howned

theorem missing_eq_one : missing s root va n = 1 ↔ follow (child (entries s.mem)) root (upper va n) = none := by
  unfold missing
  split <;> simp_all

theorem missing_le (s : Vm Pmm) (root va n : ℕ) : missing s root va n ≤ 1 := by
  unfold missing
  split <;> omega

/-- The table above is missing, so this one is. -/
theorem upper_none (h : follow (child (entries s.mem)) root (upper va n) = none) :
    follow (child (entries s.mem)) root (upper va (n + 1)) = none := by
  rw [upper, follow_snoc, h]
  rfl

/-- No table is no high table. -/
theorem LowLevel.of_zero (hnone : follow (child (entries s.mem)) root (upper va n) = none)
    (hzero : answer s.frames j = 0) : LowLevel s root va n j := by
  refine ⟨fun t ht => ?_, fun _ => ?_⟩
  · rw [hnone] at ht
    cases ht
  · rw [hzero, LowTable]
    decide

/-- An allocator that has run out within a number of allocations stays so. -/
def Lasting (st : Pmm) (bound : ℕ) : Prop := ∀ i j, i < bound → i ≤ j → answer st i = 0 → answer st j = 0

/-- What a call with the real allocator does to an address below a page directory
    pointer table, and not under a huge page. -/
structure CallOutcome (s : Vm Pmm) (root va pdpt pa : ℕ) : Prop where
  low : (∀ t ∈ tables_of (4096 * root) s va, LowTable t) ↔
    LowTable (4096 * pdpt) ∧ LowLevel s root va 2 0 ∧ LowLevel s root va 3 (missing s root va 2)
  result : (∃ pd pt s₃, tables_of (4096 * root) s va = [4096 * pdpt, 4096 * pd, 4096 * pt] ∧
      follow (child (entries s₃.mem)) root (upper va 2) = some pd ∧
      Progress s root va 3 pt (missing s root va 2 + missing s root va 3) s₃ ∧
      vmm_map_page pmm_alloc_block (4096 * root) s va pa =
        { s₃ with mem := put64 s₃.mem (4096 * pt + 8 * index 0 va) (4096 * (pa / 4096) + 3) }) ∨
    Owned root (vmm_map_page pmm_alloc_block (4096 * root) s va pa) ∧
      answer (vmm_map_page pmm_alloc_block (4096 * root) s va pa).frames 0 = 0 ∧
      answer s.frames (missing s root va 2 + missing s root va 3) = 0

theorem call_outcome (h : Owned root s) {pdpt : ℕ} (hpdpt : follow (child (entries s.mem)) root (upper va 1) = some pdpt)
    (hflat : ¬ UnderHuge (entries s.mem) root va) (hlasting : Lasting s.frames 2) (pa : ℕ) :
    CallOutcome s root va pdpt pa := by
  -- the PDPT is there
  have hfirst : pdpt_of pmm_alloc_block (4096 * root) s va = (some (4096 * pdpt), s) ∧ Progress s root va 1 pdpt 0 s := by
    have hstart := Progress.start h va
    obtain ⟨t, hthere, heq, hprogress⟩ | ⟨hnone, -⟩ := hstart.table_at (by decide) rfl
      (h.tree.huge [] root (index 3 va) (by decide) rfl)
    · obtain rfl := Option.some.inj (hthere.symm.trans hpdpt)
      exact ⟨heq, hprogress⟩
    · rw [hpdpt] at hnone
      cases hnone
  obtain ⟨hpdpt_of, hprogress⟩ := hfirst
  have hsecond := hprogress.level (by decide) rfl
    (hprogress.reaches.tree.huge (upper va 1) pdpt (index 2 va) (by rw [upper_length]; decide) hprogress.reaches.reached)
  have hpd_of : pd_of pmm_alloc_block (4096 * root) s va = table_at pmm_alloc_block s (4096 * pdpt + 8 * index (3 - 1) va) := by
    rw [pd_of, hpdpt_of]
  generalize table_at pmm_alloc_block s (4096 * pdpt + 8 * index (3 - 1) va) = second at hsecond hpd_of
  cases hsecond with
  | @failed s₂ hmissed hzero howned =>
    have hpt_of : pt_of pmm_alloc_block (4096 * root) s va = (none, { s₂ with frames := after s.frames 1 }) := by
      rw [pt_of, hpd_of]
    have hcall : vmm_map_page pmm_alloc_block (4096 * root) s va pa = { s₂ with frames := after s.frames 1 } := by
      rw [vmm_map_page, hpt_of]
    have hnone := missing_eq_one.mp hmissed
    have hnext := hlasting 0 1 (by decide) (by decide) hzero
    refine ⟨?_, .inr ?_⟩
    · simp only [tables_of, hpdpt_of, hpd_of, hpt_of, Option.toList_some, Option.toList_none, List.append_nil,
        List.mem_singleton, forall_eq]
      refine ⟨fun hlow => ⟨hlow, .of_zero hnone hzero, .of_zero (upper_none hnone) ?_⟩, fun hlow => hlow.1⟩
      rwa [hmissed]
    · rw [hcall]
      exact ⟨howned, (answer_after s.frames 1 0).trans hnext, hlasting 0 _ (by decide) (Nat.zero_le _) hzero⟩
  | @found pd s₂ hprogress₂ hkeeps₂ hlow₂ =>
    have hnot : ¬ (Present (entries s₂.mem pd (index 1 va)) ∧ Huge (entries s₂.mem pd (index 1 va))) :=
      fun hhuge => hflat ((hprogress₂.reaches.huge va).mp ⟨pd, hprogress₂.reaches.reached, hhuge⟩)
    have hthird := hprogress₂.level (by decide) rfl fun hp hh => hnot ⟨hp, hh⟩
    have hpt_of : pt_of pmm_alloc_block (4096 * root) s va =
        table_at pmm_alloc_block s₂ (4096 * pd + 8 * index (3 - 2) va) := by
      rw [pt_of, hpd_of]
      exact if_neg hnot
    generalize table_at pmm_alloc_block s₂ (4096 * pd + 8 * index (3 - 2) va) = third at hthird hpt_of
    rw [Nat.zero_add] at hthird
    cases hthird with
    | @failed s₃ hmissed hzero howned =>
      have hcall : vmm_map_page pmm_alloc_block (4096 * root) s va pa =
          { s₃ with frames := after s.frames (missing s root va 2 + 1) } := by
        rw [vmm_map_page, hpt_of]
      have hnone := missing_eq_one.mp hmissed
      refine ⟨?_, .inr ?_⟩
      · simp only [tables_of, hpdpt_of, hpd_of, hpt_of, Option.toList_some, Option.toList_none, List.append_nil,
          List.cons_append, List.nil_append, List.mem_cons, List.not_mem_nil, or_false, forall_eq_or_imp, forall_eq]
        refine and_congr_right fun _ => ⟨fun hlow => ⟨hlow₂.mp hlow, .of_zero hnone hzero⟩, fun hlow => hlow₂.mpr hlow.1⟩
      · rw [hcall]
        have hle := missing_le s root va 2
        exact ⟨howned, (answer_after s.frames _ 0).trans (hlasting _ _ (by omega) (Nat.le_succ _) hzero),
          hlasting _ _ (by omega) (Nat.le_add_right _ _) hzero⟩
    | @found pt s₃ hprogress₃ hkeeps₃ hlow₃ =>
      have htables : tables_of (4096 * root) s va = [4096 * pdpt, 4096 * pd, 4096 * pt] := by
        simp only [tables_of, hpdpt_of, hpd_of, hpt_of, Option.toList_some, List.cons_append, List.nil_append]
      have hpd := hkeeps₃ _ _ (by rw [upper_length]; decide) hprogress₂.reaches.reached
      refine ⟨?_, .inl ⟨pd, pt, s₃, htables, hpd, hprogress₃, ?_⟩⟩
      · simp only [htables, List.mem_cons, List.not_mem_nil, or_false, forall_eq_or_imp, forall_eq, hlow₂, hlow₃]
      · rw [vmm_map_page, hpt_of]
        simp only [Nat.mul_comm (pa / 4096), or_flags]

/-- The last store of a call changes no table of the tree. -/
theorem Progress.store {pt : ℕ} (h : Progress s root va 3 pt j s₁) {pa : ℕ} (hpa : pa < 2 ^ 64) {mem' : Memory}
    (hmem : mem' = put64 s₁.mem (4096 * pt + 8 * index 0 va) (4096 * (pa / 4096) + 3)) :
    Owned root { s₁ with mem := mem' } ∧
      (∀ p, p.length ≤ 3 → follow (child (entries mem')) root p = follow (child (entries s₁.mem)) root p) ∧
      ∀ va', UnderHuge (entries mem') root va' ↔ UnderHuge (entries s₁.mem) root va' := by
  have hlen := upper_length va 3
  have htree := h.reaches.tree
  have hreached := h.reaches.reached
  have hset : entries mem' = set_entry (entries s₁.mem) pt (index 0 va) (4096 * (pa / 4096) + 3) := by
    rw [hmem, entries_put64 _ _ _ (by omega)]
  have hfollow : ∀ p, p.length ≤ 3 → follow (child (entries mem')) root p = follow (child (entries s₁.mem)) root p := by
    intro p hp
    rw [hset, follow_set_leaf htree hlen hreached _ _ hp]
  refine ⟨⟨?_, fun p t hp ht => ?_, h.owned.hint⟩, hfollow, fun va' => ?_⟩
  · rw [hset]
    exact set_leaf_tree htree hlen hreached _ _
  · exact h.owned.taken p t hp ((hfollow p hp).symm.trans ht)
  · rw [hset, underHuge_set_leaf htree hlen hreached]

/-- What calls with the real allocator keep, for the addresses `vas`. Tables come in on
    the ways to these only. -/
structure Extends (root : ℕ) (vas : List ℕ) (s s' : Vm Pmm) : Prop where
  owned : Owned root s'
  keeps : Keeps root s s'
  flat : ∀ va, UnderHuge (entries s'.mem) root va ↔ UnderHuge (entries s.mem) root va
  others : ∀ p, p.length ≤ 3 → (∀ va ∈ vas, ∀ m ≤ 3, p ≠ upper va m) →
    follow (child (entries s'.mem)) root p = follow (child (entries s.mem)) root p
  budget : Budget root s → Budget root s'

theorem Extends.refl (h : Owned root s) : Extends root [] s s :=
  ⟨h, fun _ _ _ hu => hu, fun _ => Iff.rfl, fun _ _ _ => rfl, id⟩

theorem Extends.trans {vas vas' : List ℕ} (h : Extends root vas s s₁) (h' : Extends root vas' s₁ s₂) :
    Extends root (vas ++ vas') s s₂ := by
  refine ⟨h'.owned, fun p u hp hu => h'.keeps p u hp (h.keeps p u hp hu), fun va => (h'.flat va).trans (h.flat va),
    fun p hp hother => ?_, fun hbudget => h'.budget (h.budget hbudget)⟩
  exact (h'.others p hp fun va hva => hother va (List.mem_append_right _ hva)).trans
    (h.others p hp fun va hva => hother va (List.mem_append_left _ hva))

theorem Progress.extends (h : Progress s root va n t j s₁) (hn : n ≤ 3) : Extends root [va] s s₁ :=
  ⟨h.owned, h.reaches.kept, h.reaches.huge,
    fun p hp hother => h.reaches.others p hp fun m hm => hother va List.mem_cons_self m (hm.trans hn), h.budget⟩

/-- A level of a call that fails leaves the tables as they are. -/
theorem Progress.failed (h : Progress s root va n t j s₁) (hn : n ≤ 3) (hzero : answer s.frames j = 0) :
    Extends root [va] s { s₁ with frames := after s.frames (j + 1) } := by
  have howned := h.owned.alloc
  rw [h.frames, ← after] at howned
  have hext := h.extends hn
  refine ⟨howned, hext.keeps, hext.flat, hext.others, fun hbudget => ?_⟩
  have hroving := (h.budget hbudget).roving
  rw [h.frames] at hroving
  have hsame := hroving.exhausted (by decide) (by decide) hzero 1
  rw [after_add] at hsame
  exact (h.budget hbudget).congr (hsame.trans h.frames.symm) fun _ _ => rfl

/-- A level of a call, without regard to which frames it gets. -/
theorem Progress.next (h : Progress s root va n t j s₁) (hn : n < 3) {entry : ℕ}
    (hentry : entry = 4096 * t + 8 * index (3 - n) va)
    (hflat : Present (entries s₁.mem t (index (3 - n) va)) → ¬ Huge (entries s₁.mem t (index (3 - n) va))) :
    (∃ t' j' s₂, vmm.table_at pmm_alloc_block s₁ entry = (some (4096 * t'), s₂) ∧ Progress s root va (n + 1) t' j' s₂) ∨
      ∃ s₂, vmm.table_at pmm_alloc_block s₁ entry = (none, s₂) ∧ Extends root [va] s s₂ := by
  obtain ⟨t', -, heq, hprogress⟩ | ⟨-, ⟨t', s₂, -, -, heq, hprogress, -⟩ | ⟨hzero, heq⟩⟩ := h.table_at hn hentry hflat
  · exact .inl ⟨t', j, s₁, heq, hprogress⟩
  · exact .inl ⟨t', j + 1, s₂, heq, hprogress⟩
  · exact .inr ⟨_, heq, h.failed hn.le hzero⟩

theorem vmm_map_page_extends (h : Owned root s) (va : ℕ) {pa : ℕ} (hpa : pa < 2 ^ 64) :
    Extends root [va] s (vmm_map_page pmm_alloc_block (4096 * root) s va pa) := by
  have hstart := Progress.start h va
  unfold vmm_map_page pt_of pd_of pdpt_of
  obtain ⟨pdpt, j, s₁, heq, h₁⟩ | ⟨s₁, heq, hext⟩ := hstart.next (by decide) rfl
    (h.tree.huge [] root (index 3 va) (by decide) rfl)
  · rw [show table_at pmm_alloc_block s (4096 * root + 8 * index 3 va) = _ from heq]
    obtain ⟨pd, j, s₂, heq, h₂⟩ | ⟨s₂, heq, hext⟩ := h₁.next (by decide) rfl
      (h₁.owned.tree.huge (upper va 1) pdpt (index 2 va) (by rw [upper_length]; decide) h₁.reaches.reached)
    · simp only [show table_at pmm_alloc_block s₁ (4096 * pdpt + 8 * index 2 va) = _ from heq]
      by_cases hhuge : Present (le64 s₂.mem (4096 * pd + 8 * index 1 va)) ∧ Huge (le64 s₂.mem (4096 * pd + 8 * index 1 va))
      · simp only [if_pos hhuge]
        exact h₂.extends (by decide)
      · simp only [if_neg hhuge]
        obtain ⟨pt, j, s₃, heq, h₃⟩ | ⟨s₃, heq, hext⟩ := h₂.next (by decide) rfl fun hp hh => hhuge ⟨hp, hh⟩
        · simp only [show table_at pmm_alloc_block s₂ (4096 * pd + 8 * index 1 va) = _ from heq,
            Nat.mul_comm (pa / 4096), or_flags]
          obtain ⟨howned, hfollow, hflat⟩ := h₃.store hpa rfl
          have hext := h₃.extends le_rfl
          exact ⟨howned, fun p u hp hu => (hfollow p hp).trans (hext.keeps p u hp hu),
            fun va' => (hflat va').trans (hext.flat va'), fun p hp hother => (hfollow p hp).trans (hext.others p hp hother),
            fun hbudget => (h₃.budget hbudget).congr rfl hfollow⟩
        · simp only [show table_at pmm_alloc_block s₂ (4096 * pd + 8 * index 1 va) = _ from heq]
          exact hext
    · simp only [show table_at pmm_alloc_block s₁ (4096 * pdpt + 8 * index 2 va) = _ from heq]
      exact hext
  · rw [show table_at pmm_alloc_block s (4096 * root + 8 * index 3 va) = _ from heq]
    exact hext

theorem vmm_run_extends (h : Owned root s) (calls : List (ℕ × ℕ)) (hcalls : ∀ call ∈ calls, call.2 < 2 ^ 64) :
    Extends root (calls.map Prod.fst) s (vmm_run pmm_alloc_block (4096 * root) s calls) := by
  induction calls generalizing s with
  | nil => exact .refl h
  | cons call calls ih =>
    have hfirst := vmm_map_page_extends h call.1 (hcalls call List.mem_cons_self)
    exact hfirst.trans (ih hfirst.owned fun c hc => hcalls c (List.mem_cons_of_mem _ hc))

/-- A table is there, or is asked for once. -/
theorem table_at_frames (s : Vm Pmm) (entry : ℕ) :
    ∃ j ≤ 1, (table_at pmm_alloc_block s entry).2.frames = after s.frames j := by
  rw [table_at]
  split
  · exact ⟨0, Nat.zero_le 1, rfl⟩
  · refine ⟨1, le_rfl, ?_⟩
    dsimp only
    split <;> rfl

/-- A call asks for three frames at most. -/
theorem vmm_map_page_frames (pml4_table : ℕ) (s : Vm Pmm) (va pa : ℕ) :
    ∃ j ≤ 3, (vmm_map_page pmm_alloc_block pml4_table s va pa).frames = after s.frames j := by
  have hpdpt : ∃ j ≤ 1, (pdpt_of pmm_alloc_block pml4_table s va).2.frames = after s.frames j := table_at_frames s _
  have hnext : ∀ {n : ℕ} {s₁ : Vm Pmm} (entry : ℕ), (∃ j ≤ n, s₁.frames = after s.frames j) →
      ∃ j ≤ n + 1, (table_at pmm_alloc_block s₁ entry).2.frames = after s.frames j := by
    rintro n s₁ entry ⟨i, hi, heq⟩
    obtain ⟨j, hj, heq'⟩ := table_at_frames s₁ entry
    exact ⟨i + j, by omega, by rw [heq', heq, after_add]⟩
  have hpd : ∃ j ≤ 2, (pd_of pmm_alloc_block pml4_table s va).2.frames = after s.frames j := by
    obtain ⟨i, hi, heq⟩ := hpdpt
    unfold pd_of
    split
    case h_1 s₁ hfail => exact ⟨i, by omega, by rwa [hfail] at heq⟩
    case h_2 pdpt s₁ hfound => exact hnext _ ⟨i, hi, by rwa [hfound] at heq⟩
  have hpt : ∃ j ≤ 3, (pt_of pmm_alloc_block pml4_table s va).2.frames = after s.frames j := by
    obtain ⟨i, hi, heq⟩ := hpd
    unfold pt_of
    split
    case h_1 s₁ hfail => exact ⟨i, by omega, by rwa [hfail] at heq⟩
    case h_2 pd s₁ hfound =>
      have heq : s₁.frames = after s.frames i := by rwa [hfound] at heq
      dsimp only
      split
      · exact ⟨i, by omega, heq⟩
      · exact hnext _ ⟨i, hi, heq⟩
  obtain ⟨j, hj, heq⟩ := hpt
  refine ⟨j, hj, ?_⟩
  unfold vmm_map_page
  split
  case h_1 s₁ hfail => rwa [hfail] at heq
  case h_2 pt s₁ hfound => rwa [hfound] at heq

theorem vmm_run_frames (pml4_table : ℕ) (s : Vm Pmm) (calls : List (ℕ × ℕ)) :
    ∃ j ≤ 3 * calls.length, (vmm_run pmm_alloc_block pml4_table s calls).frames = after s.frames j := by
  induction calls generalizing s with
  | nil => exact ⟨0, le_rfl, rfl⟩
  | cons call calls ih =>
    obtain ⟨i, hi, heq⟩ := vmm_map_page_frames pml4_table s call.1 call.2
    obtain ⟨j, hj, heq'⟩ := ih (vmm_map_page pmm_alloc_block pml4_table s call.1 call.2)
    refine ⟨i + j, ?_, ?_⟩
    · rw [List.length_cons]
      omega
    · rw [← after_add, ← heq]
      exact heq'

end os_dev.boot
