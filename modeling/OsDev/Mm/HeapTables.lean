import OsDev.Mm.TableFrames

open little_endian linked_tree fuel
open os_dev.pmm os_dev.vmm
open os_dev.heap (HEAP_START)

namespace os_dev.boot

variable {b s s₁ : Vm Pmm} {root k k' : ℕ}

/-- The address of a page of the heap. -/
def page_va (k : ℕ) : ℕ := HEAP_START + 4096 * k

/-- A heap of 8 GB and more still lies below the first entry of the PML4. -/
def PAGE_LIMIT : ℕ := 2 ^ 23

theorem page_upper_one (hk : k < PAGE_LIMIT) : upper (page_va k) 1 = [0] := by
  have hindex : index 3 (page_va k) = 0 := by
    simp only [PAGE_LIMIT] at hk
    simp only [index, page_va, HEAP_START, Fin.ext_iff, Fin.val_zero]
    omega
  simp only [upper, List.nil_append, hindex]

theorem page_upper_two (hk : k < PAGE_LIMIT) (hk' : k' < PAGE_LIMIT) :
    upper (page_va k) 2 = upper (page_va k') 2 ↔ k / 2 ^ 18 = k' / 2 ^ 18 := by
  simp only [PAGE_LIMIT] at hk hk'
  simp only [upper, index, page_va, HEAP_START, List.nil_append, List.cons_append, List.cons.injEq, Fin.mk.injEq, and_true]
  omega

theorem page_upper_three (hk : k < PAGE_LIMIT) (hk' : k' < PAGE_LIMIT) :
    upper (page_va k) 3 = upper (page_va k') 3 ↔ k / 512 = k' / 512 := by
  simp only [PAGE_LIMIT] at hk hk'
  simp only [upper, index, page_va, HEAP_START, List.nil_append, List.cons_append, List.cons.injEq, Fin.mk.injEq, and_true]
  omega

/-- The tables that `kmalloc_init` has to create for a page, in a state `b` before it
    starts: a page directory for the first page of a gigabyte, and a page table for the
    first page of two megabytes. -/
def needs_pd (b : Vm Pmm) (root k : ℕ) : ℕ := if k % 2 ^ 18 = 0 then missing b root (page_va k) 2 else 0

def needs_pt (b : Vm Pmm) (root k : ℕ) : ℕ := if k % 512 = 0 then missing b root (page_va k) 3 else 0

/-- How many frames have been asked for before page `k`: one for each page and one for
    each table. -/
def asked (b : Vm Pmm) (root : ℕ) : ℕ → ℕ
  | 0 => 0
  | k + 1 => asked b root k + 1 + needs_pd b root k + needs_pt b root k

/-- The tables of page `k` are low: those that exist before `kmalloc_init`, and those
    that it asks for, where `low` tells which requests get a low frame. -/
structure PageLow (b : Vm Pmm) (root : ℕ) (low : ℕ → Prop) (k : ℕ) : Prop where
  existing : ∀ n t, 1 ≤ n → n ≤ 3 → follow (child (entries b.mem)) root (upper (page_va k) n) = some t → LowTable (4096 * t)
  directory : needs_pd b root k = 1 → low (asked b root k + 1)
  table : needs_pt b root k = 1 → low (asked b root k + 1 + needs_pd b root k)

/-- The request gets a low frame, or none. -/
def AnswerLow (st : Pmm) (j : ℕ) : Prop := LowTable (answer st j)

/-- The tables on the way to a table. -/
theorem follow_upper_of_le {ent : Entries} (h : follow (child ent) root (upper va n) = some t) (hij : i ≤ n) :
    ∃ u, follow (child ent) root (upper va i) = some u := by
  induction n generalizing t with
  | zero =>
    obtain rfl : i = 0 := by omega
    exact ⟨t, h⟩
  | succ n ih =>
    obtain hle | rfl := Nat.le_succ_iff.mp hij
    · obtain ⟨u, hu, -⟩ := follow_snoc_eq_some.mp h
      exact ih hu hle
    · exact ⟨t, h⟩

/-- The state before page `k`, when the tables of all pages before it are there. -/
structure Laid (b : Vm Pmm) (root k : ℕ) (s : Vm Pmm) : Prop where
  owned : Owned root s
  frames : s.frames = after b.frames (asked b root k)
  keeps : Keeps root b s
  flat : ∀ va, UnderHuge (entries s.mem) root va ↔ UnderHuge (entries b.mem) root va
  fresh_pd : ∀ k' < PAGE_LIMIT, k ≤ k' / 2 ^ 18 * 2 ^ 18 →
    follow (child (entries s.mem)) root (upper (page_va k') 2) = follow (child (entries b.mem)) root (upper (page_va k') 2)
  fresh_pt : ∀ k' < PAGE_LIMIT, k ≤ k' / 512 * 512 →
    follow (child (entries s.mem)) root (upper (page_va k') 3) = follow (child (entries b.mem)) root (upper (page_va k') 3)
  laid_pd : k % 2 ^ 18 ≠ 0 → ∃ t, follow (child (entries s.mem)) root (upper (page_va k) 2) = some t
  laid_pt : k % 512 ≠ 0 → ∃ t, follow (child (entries s.mem)) root (upper (page_va k) 3) = some t

theorem Laid.start (h : Owned root b) : Laid b root 0 b :=
  ⟨h, rfl, fun _ _ _ hu => hu, fun _ => Iff.rfl, fun _ _ _ => rfl, fun _ _ _ => rfl, fun h => absurd rfl h,
    fun h => absurd rfl h⟩

theorem Laid.missing_eq (h : Laid b root k s) (hk : k < PAGE_LIMIT) :
    missing s root (page_va k) 2 = needs_pd b root k ∧ missing s root (page_va k) 3 = needs_pt b root k := by
  constructor
  · unfold needs_pd
    by_cases hfirst : k % 2 ^ 18 = 0
    · rw [if_pos hfirst, missing, missing, h.fresh_pd k hk (by omega)]
    · obtain ⟨t, ht⟩ := h.laid_pd hfirst
      rw [if_neg hfirst, missing, ht]
      rfl
  · unfold needs_pt
    by_cases hfirst : k % 512 = 0
    · rw [if_pos hfirst, missing, missing, h.fresh_pt k hk (by omega)]
    · obtain ⟨t, ht⟩ := h.laid_pt hfirst
      rw [if_neg hfirst, missing, ht]
      rfl

/-- A level that is there after the call of page `k` is there for the next page, unless
    that is the first one of the level. -/
theorem Laid.step (h : Laid b root k s) (hk : k + 1 < PAGE_LIMIT) {s' : Vm Pmm} (hext : Extends root [page_va k] s₁ s')
    (hmem : s₁.mem = s.mem) (hframes : s'.frames = after b.frames (asked b root (k + 1))) {pt : ℕ}
    (hpt : follow (child (entries s'.mem)) root (upper (page_va k) 3) = some pt) : Laid b root (k + 1) s' := by
  have hk' : k < PAGE_LIMIT := by omega
  have hkeeps : Keeps root s s' := by
    have hkeeps := hext.keeps
    rwa [Keeps, hmem] at hkeeps
  have hflat := hext.flat
  have hfollow := hext.others
  rw [hmem] at hflat hfollow
  -- another level's path is another path
  have hothers : ∀ n ≤ 3, ∀ va, upper va n ≠ upper (page_va k) n →
      follow (child (entries s'.mem)) root (upper va n) = follow (child (entries s.mem)) root (upper va n) := by
    intro n hn va hne
    refine hfollow _ (by rwa [upper_length]) fun va' hva' m _ heq => ?_
    rw [List.mem_singleton.mp hva'] at heq
    have hlen := congrArg List.length heq
    rw [upper_length, upper_length] at hlen
    exact hne (hlen ▸ heq)
  refine ⟨hext.owned, hframes, fun p u hp hu => hkeeps p u hp (h.keeps p u hp hu), fun va => (hflat va).trans (h.flat va),
    fun k' hk'' hle => ?_, fun k' hk'' hle => ?_, fun hmod => ?_, fun hmod => ⟨pt, ?_⟩⟩
  · refine (hothers 2 (by decide) _ ?_).trans (h.fresh_pd k' hk'' (by omega))
    rw [Ne, page_upper_two hk'' hk']
    omega
  · refine (hothers 3 le_rfl _ ?_).trans (h.fresh_pt k' hk'' (by omega))
    rw [Ne, page_upper_three hk'' hk']
    omega
  · rw [(page_upper_two hk hk').mpr (by omega)]
    exact follow_upper_of_le hpt (by decide)
  · rw [(page_upper_three hk hk').mpr (by omega)]
    exact hpt

/-- The state before page `k`, when all pages before it are mapped by low tables. -/
structure Mapped (b : Vm Pmm) (root k : ℕ) (s : Vm Pmm) : Prop where
  owned : Owned root s
  frames : s.frames = after b.frames (asked b root k)
  keeps : Keeps root b s
  flat : ∀ va, UnderHuge (entries s.mem) root va ↔ UnderHuge (entries b.mem) root va
  fresh_pd : ∀ k' < PAGE_LIMIT, k ≤ k' / 2 ^ 18 * 2 ^ 18 →
    follow (child (entries s.mem)) root (upper (page_va k') 2) = follow (child (entries b.mem)) root (upper (page_va k') 2)
  fresh_pt : ∀ k' < PAGE_LIMIT, k ≤ k' / 512 * 512 →
    follow (child (entries s.mem)) root (upper (page_va k') 3) = follow (child (entries b.mem)) root (upper (page_va k') 3)
  mapped_pd : k % 2 ^ 18 ≠ 0 → ∃ t, follow (child (entries s.mem)) root (upper (page_va k) 2) = some t ∧ LowTable (4096 * t)
  mapped_pt : k % 512 ≠ 0 → ∃ t, follow (child (entries s.mem)) root (upper (page_va k) 3) = some t ∧ LowTable (4096 * t)

theorem Mapped.laid (h : Mapped b root k s) : Laid b root k s :=
  ⟨h.owned, h.frames, h.keeps, h.flat, h.fresh_pd, h.fresh_pt, fun hmod => (h.mapped_pd hmod).imp fun _ ht => ht.1,
    fun hmod => (h.mapped_pt hmod).imp fun _ ht => ht.1⟩

theorem Laid.mapped (h : Laid b root k s)
    (hpd : k % 2 ^ 18 ≠ 0 → ∃ t, follow (child (entries s.mem)) root (upper (page_va k) 2) = some t ∧ LowTable (4096 * t))
    (hpt : k % 512 ≠ 0 → ∃ t, follow (child (entries s.mem)) root (upper (page_va k) 3) = some t ∧ LowTable (4096 * t)) :
    Mapped b root k s :=
  ⟨h.owned, h.frames, h.keeps, h.flat, h.fresh_pd, h.fresh_pt, hpd, hpt⟩

theorem Mapped.start (h : Owned root b) : Mapped b root 0 b :=
  (Laid.start h).mapped (fun h => absurd rfl h) fun h => absurd rfl h

/-- Every heap page lies below a page directory pointer table, and not under a huge
    page. -/
structure HeapSpace (b : Vm Pmm) (root pdpt : ℕ) : Prop where
  owned : Owned root b
  pdpt : follow (child (entries b.mem)) root [0] = some pdpt
  flat : ∀ k < PAGE_LIMIT, ¬ UnderHuge (entries b.mem) root (page_va k)
  lasting : Lasting b.frames (3 * PAGE_LIMIT)

theorem Lasting.after {st : Pmm} {bound i : ℕ} (h : Lasting st bound) {bound' : ℕ} (hle : i + bound' ≤ bound) :
    Lasting (after st i) bound' := by
  intro j l hj hjl hzero
  rw [answer_after] at hzero ⊢
  exact h _ _ (by omega) (by omega) hzero

theorem asked_mono (b : Vm Pmm) (root : ℕ) (hle : k ≤ k') : asked b root k ≤ asked b root k' := by
  induction hle with
  | refl => exact le_rfl
  | step _ ih =>
    rw [asked]
    omega

theorem asked_le (b : Vm Pmm) (root k : ℕ) : asked b root k ≤ 3 * k := by
  induction k with
  | zero => exact le_rfl
  | succ k ih =>
    have hpd : needs_pd b root k ≤ 1 := by
      unfold needs_pd
      have := missing_le b root (page_va k) 2
      split <;> omega
    have hpt : needs_pt b root k ≤ 1 := by
      unfold needs_pt
      have := missing_le b root (page_va k) 3
      split <;> omega
    rw [asked]
    omega

/-- The state once the frame for page `k` has been taken. -/
structure Loaded (b : Vm Pmm) (root k : ℕ) (s : Vm Pmm) : Prop where
  mapped : Mapped b root k { s with frames := pmm.after b.frames (asked b root k) }
  owned : Owned root s
  frames : s.frames = pmm.after b.frames (asked b root k + 1)

theorem Mapped.load (h : Mapped b root k s) :
    Loaded b root k { s with frames := (pmm_alloc_block s.frames).2 } := by
  have hframes := h.frames
  refine ⟨?_, h.owned.alloc, ?_⟩
  · rw [← hframes]
    exact h
  · rw [pmm.after, hframes]

theorem Loaded.outcome (h : Loaded b root k s) {pdpt : ℕ} (hspace : HeapSpace b root pdpt) (hk : k < PAGE_LIMIT) (pa : ℕ) :
    CallOutcome s root (page_va k) pdpt pa := by
  refine call_outcome h.owned ?_ ?_ ?_ pa
  · rw [page_upper_one hk]
    exact h.mapped.keeps [0] pdpt (by decide) hspace.pdpt
  · exact fun hhuge => hspace.flat k hk ((h.mapped.flat _).mp hhuge)
  · have hle := asked_le b root k
    rw [h.frames]
    exact hspace.lasting.after (by omega)

/-- The tables that the call for page `k` uses are low exactly if the page's are. -/
theorem Loaded.low_iff (h : Loaded b root k s) {pdpt : ℕ} (hspace : HeapSpace b root pdpt) (hk : k < PAGE_LIMIT) :
    (∀ t ∈ tables_of (4096 * root) s (page_va k), LowTable t) ↔ PageLow b root (AnswerLow b.frames) k := by
  have hpd : missing s root (page_va k) 2 = needs_pd b root k := (h.mapped.laid.missing_eq hk).1
  have hpt : missing s root (page_va k) 3 = needs_pt b root k := (h.mapped.laid.missing_eq hk).2
  have hanswer : ∀ j, answer s.frames j = answer b.frames (asked b root k + 1 + j) := by
    intro j
    rw [h.frames, answer_after]
  rw [(h.outcome hspace hk 0).low, hpd]
  constructor
  · rintro ⟨hlow, hlow₂, hlow₃⟩
    refine ⟨fun n t hn hn' ht => ?_, fun hneed => ?_, fun hneed => ?_⟩
    · have hkept := h.mapped.keeps _ t (by rw [upper_length]; omega) ht
      obtain rfl | rfl | rfl : n = 1 ∨ n = 2 ∨ n = 3 := by omega
      · rw [page_upper_one hk] at ht
        rwa [← Option.some.inj (hspace.pdpt.symm.trans ht)]
      · exact hlow₂.existing t hkept
      · exact hlow₃.existing t hkept
    · have hcreated := hlow₂.created (missing_eq_one.mp (hpd.trans hneed))
      rwa [hanswer] at hcreated
    · have hcreated := hlow₃.created (missing_eq_one.mp (hpt.trans hneed))
      rwa [hanswer] at hcreated
  · intro hpage
    refine ⟨hpage.existing 1 pdpt le_rfl (by decide) ?_, ⟨fun t ht => ?_, fun hnone => ?_⟩, ⟨fun t ht => ?_, fun hnone => ?_⟩⟩
    · rw [page_upper_one hk]
      exact hspace.pdpt
    · by_cases hfirst : k % 2 ^ 18 = 0
      · exact hpage.existing 2 t (by decide) (by decide) ((h.mapped.fresh_pd k hk (by omega)).symm.trans ht)
      · obtain ⟨t', ht', hlow⟩ := h.mapped.mapped_pd hfirst
        rwa [Option.some.inj (ht.symm.trans ht')]
    · rw [hanswer]
      exact hpage.directory (hpd.symm.trans (missing_eq_one.mpr hnone))
    · by_cases hfirst : k % 512 = 0
      · exact hpage.existing 3 t (by decide) (by decide) ((h.mapped.fresh_pt k hk (by omega)).symm.trans ht)
      · obtain ⟨t', ht', hlow⟩ := h.mapped.mapped_pt hfirst
        rwa [Option.some.inj (ht.symm.trans ht')]
    · rw [hanswer]
      exact hpage.table (hpt.symm.trans (missing_eq_one.mpr hnone))

/-- A page whose tables are low leads to the next one, or to an empty allocator. -/
theorem Loaded.step (h : Loaded b root k s) {pdpt : ℕ} (hspace : HeapSpace b root pdpt) (hk : k + 1 < PAGE_LIMIT) {pa : ℕ}
    (hpa : pa < 2 ^ 64) (hlow : ∀ t ∈ tables_of (4096 * root) s (page_va k), LowTable t) :
    Mapped b root (k + 1) (vmm_map_page pmm_alloc_block (4096 * root) s (page_va k) pa) ∨
      answer (vmm_map_page pmm_alloc_block (4096 * root) s (page_va k) pa).frames 0 = 0 ∧
        answer b.frames (asked b root (k + 1)) = 0 := by
  have hk' : k < PAGE_LIMIT := by omega
  have hasked : asked b root k + 1 + (missing s root (page_va k) 2 + missing s root (page_va k) 3) =
      asked b root (k + 1) := by
    have hpd : missing s root (page_va k) 2 = needs_pd b root k := (h.mapped.laid.missing_eq hk').1
    have hpt : missing s root (page_va k) 3 = needs_pt b root k := (h.mapped.laid.missing_eq hk').2
    rw [hpd, hpt, asked, Nat.add_assoc _ (needs_pd b root k)]
  obtain ⟨pd, pt, s₃, htables, hpd, hprogress, hcall⟩ | ⟨-, hzero, hnone⟩ := (h.outcome hspace hk' pa).result
  · refine .inl ?_
    have hext := vmm_map_page_extends h.owned (page_va k) hpa
    obtain ⟨-, hfollow, -⟩ := hprogress.store hpa rfl
    rw [hcall] at hext ⊢
    rw [htables] at hlow
    have hpd' := (hfollow (upper (page_va k) 2) (by rw [upper_length]; decide)).trans hpd
    have hpt' := (hfollow (upper (page_va k) 3) (by rw [upper_length])).trans hprogress.reaches.reached
    refine (h.mapped.laid.step hk hext rfl ?_ hpt').mapped (fun hmod => ⟨pd, ?_, hlow _ (by simp)⟩)
      fun hmod => ⟨pt, ?_, hlow _ (by simp)⟩
    · rw [hprogress.frames, h.frames, after_add, hasked]
    · rw [(page_upper_two hk hk').mpr (by omega)]
      exact hpd'
    · rw [(page_upper_three hk hk').mpr (by omega)]
      exact hpt'
  · rw [h.frames, answer_after, hasked] at hnone
    exact .inr ⟨hzero, hnone⟩

theorem alloc_addr_lt (st : Pmm) (h : st.last_free_bit < 2 ^ 32) : (pmm_alloc_block st).1 < 2 ^ 48 := by
  have hN := PMM_BLOCKS_eq
  obtain heq | ⟨block, -, hbound, -, heq⟩ := alloc_block_cases st
  · rw [heq]
    exact Nat.two_pow_pos 48
  · rw [heq]
    simp only [take_block, PMM_BLOCK_SIZE]
    omega

theorem heap_tables_exhausted {pml4_table n addr : ℕ} (h : answer s.frames 0 = 0) :
    heap_tables pml4_table n addr s = [] := by
  cases n with
  | zero => rfl
  | succ n => exact if_neg (not_not_intro h)

/-- The tables of the rest of the heap are low exactly if those of its pages are, as far
    as there are frames. -/
theorem Mapped.heap_tables_low_iff {pdpt : ℕ} (hspace : HeapSpace b root pdpt) {n : ℕ} (hn : k + n < PAGE_LIMIT)
    (h : Mapped b root k s) :
    (∀ t ∈ heap_tables (4096 * root) n (page_va k) s, LowTable t) ↔
      ∀ k', k ≤ k' → k' < k + n → answer b.frames (asked b root k') ≠ 0 → PageLow b root (AnswerLow b.frames) k' := by
  induction n generalizing k s with
  | zero => exact iff_of_true (fun _ ht => absurd ht List.not_mem_nil) fun k' hle hlt => by omega
  | succ n ih =>
    have hdata : (pmm_alloc_block s.frames).1 = answer b.frames (asked b root k) := by rw [h.frames, answer]
    by_cases hzero : answer b.frames (asked b root k) = 0
    · -- no frame for the page, nor later
      rw [heap_tables_exhausted (hdata.trans hzero)]
      refine iff_of_true (fun _ ht => absurd ht List.not_mem_nil) fun k' hle _ hne => absurd ?_ hne
      have := asked_le b root k
      exact hspace.lasting _ _ (by omega) (asked_mono b root hle) hzero
    · have hload := h.load
      have hlow := hload.low_iff hspace (show k < PAGE_LIMIT by omega)
      have hsplit : (∀ k', k ≤ k' → k' < k + (n + 1) → answer b.frames (asked b root k') ≠ 0 → PageLow b root (AnswerLow b.frames) k') ↔
          PageLow b root (AnswerLow b.frames) k ∧
            ∀ k', k + 1 ≤ k' → k' < k + 1 + n → answer b.frames (asked b root k') ≠ 0 → PageLow b root (AnswerLow b.frames) k' := by
        constructor
        · exact fun hall => ⟨hall k le_rfl (by omega) hzero, fun k' hle hlt => hall k' (by omega) (by omega)⟩
        · rintro ⟨hpage, hrest⟩ k' hle hlt hne
          obtain rfl | hlt' := Nat.eq_or_lt_of_le hle
          · exact hpage
          · exact hrest k' hlt' (by omega) hne
      have htables : heap_tables (4096 * root) (n + 1) (page_va k) s =
          tables_of (4096 * root) { s with frames := (pmm_alloc_block s.frames).2 } (page_va k) ++
            heap_tables (4096 * root) n (page_va (k + 1)) (vmm_map_page pmm_alloc_block (4096 * root)
              { s with frames := (pmm_alloc_block s.frames).2 } (page_va k) (pmm_alloc_block s.frames).1) := by
        have hva : page_va k + 4096 = page_va (k + 1) := by
          unfold page_va
          omega
        rw [heap_tables, hva]
        exact if_pos (hdata ▸ hzero)
      rw [htables, hsplit, ← hlow]
      simp only [List.mem_append, or_imp, forall_and]
      refine and_congr_right fun hpage => ?_
      obtain hnext | ⟨hempty, hnone⟩ := hload.step hspace (by omega) ((alloc_addr_lt _ h.owned.hint).trans (by decide)) hpage
      · exact ih (by omega) hnext
      · rw [heap_tables_exhausted hempty]
        refine iff_of_true (fun _ ht => absurd ht List.not_mem_nil) fun k' hle _ hne => absurd ?_ hne
        have := asked_le b root (k + 1)
        exact hspace.lasting _ _ (by omega) (asked_mono b root hle) hnone

end os_dev.boot
