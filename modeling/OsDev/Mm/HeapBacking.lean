import OsDev.Mm.HeapReach

open little_endian linked_tree fuel
open os_dev.pmm os_dev.vmm
open os_dev.heap (HEAP_START)

namespace os_dev.boot

variable {s s₁ s₂ b : Vm Pmm} {st : Pmm} {root va n t i j k : ℕ}

/-- Each table of `s₁` is one of `s`, or was a free frame there. -/
def Grown (root : ℕ) (s s₁ : Vm Pmm) : Prop :=
  ∀ p t, p.length ≤ 3 → follow (child (entries s₁.mem)) root p = some t →
    follow (child (entries s.mem)) root p = some t ∨ Free s.frames t

theorem alloc_free (st : Pmm) {t : ℕ} (ht : (pmm_alloc_block st).1 = 4096 * t) (hne : (pmm_alloc_block st).1 ≠ 0) :
    Free st t := by
  obtain heq | ⟨block, -, -, hfree, heq⟩ := alloc_block_cases st
  · exact absurd (by rw [heq]) hne
  · rw [heq] at ht
    simp only [take_block, PMM_BLOCK_SIZE] at ht
    rwa [show t = block by omega]

theorem answer_free (h : answer st j = 4096 * t) (hne : answer st j ≠ 0) : Free st t :=
  after_free_mono st (alloc_free (after st j) h hne)

theorem answer_taken (h : answer st j = 4096 * t) (hne : answer st j ≠ 0) (hij : j < i) : ¬ Free (after st i) t := by
  obtain ⟨d, rfl⟩ := Nat.exists_eq_add_of_lt hij
  rw [Nat.add_right_comm, ← after_add]
  exact fun hfree => alloc_taken (after st j) h hne (after_free_mono _ hfree)

/-- No frame is handed out twice. -/
theorem answer_injective (hij : i < j) (hi : answer st i ≠ 0) (hj : answer st j ≠ 0) : answer st i ≠ answer st j := by
  obtain ⟨t, ht⟩ := answer_dvd st i
  exact fun heq => answer_taken ht hi hij (alloc_free (after st j) (heq.symm.trans ht) hj)

/-- One level of a call: the next table is reached with the frames it takes, or the
    request for it fails. -/
theorem Progress.step (h : Progress s root va n t j s₁) (hgrown : Grown root s s₁) (hn : n < 3) {entry : ℕ}
    (hentry : entry = 4096 * t + 8 * index (3 - n) va)
    (hflat : Present (entries s₁.mem t (index (3 - n) va)) → ¬ Huge (entries s₁.mem t (index (3 - n) va))) :
    (∃ t' s₂, vmm.table_at pmm_alloc_block s₁ entry = (some (4096 * t'), s₂) ∧
        Progress s root va (n + 1) t' (j + missing s root va (n + 1)) s₂ ∧ Grown root s s₂ ∧
        (missing s root va (n + 1) = 1 → answer s.frames j ≠ 0)) ∨
      missing s root va (n + 1) = 1 ∧ answer s.frames j = 0 ∧
        vmm.table_at pmm_alloc_block s₁ entry = (none, { s₁ with frames := after s.frames (j + 1) }) := by
  obtain ⟨t', hthere, heq, hprogress⟩ | ⟨hnone, ⟨t', s₂, hanswer, hne, heq, hprogress, hkeeps⟩ | ⟨hzero, heq⟩⟩ :=
    h.table_at hn hentry hflat
  · have hmissing : missing s root va (n + 1) = 0 := by rw [missing, hthere]; rfl
    refine .inl ⟨t', s₁, heq, by rwa [hmissing], hgrown, fun hone => ?_⟩
    omega
  · have hmissing : missing s root va (n + 1) = 1 := missing_eq_one.mpr hnone
    refine .inl ⟨t', s₂, heq, by rwa [hmissing], fun p u hp hu => ?_, fun _ => hne⟩
    by_cases hway : ∃ m ≤ n + 1, p = upper va m
    · obtain ⟨m, hm, rfl⟩ := hway
      obtain hm | rfl := Nat.le_succ_iff.mp hm
      · -- a table above was there before
        obtain ⟨u', hu'⟩ := follow_upper_of_le h.reaches.reached hm
        obtain rfl := Option.some.inj (hu.symm.trans (hkeeps _ u' hp hu'))
        exact hgrown _ u hp hu'
      · obtain rfl := Option.some.inj (hu.symm.trans hprogress.reaches.reached)
        exact .inr (answer_free hanswer hne)
    · rw [hprogress.reaches.others p hp fun m hm heq => hway ⟨m, hm, heq⟩] at hu
      exact .inl hu
  · exact .inr ⟨missing_eq_one.mpr hnone, hzero, heq⟩

/-- What a call does that gets all its tables. -/
structure PageMapped (s : Vm Pmm) (root va pa : ℕ) (s' : Vm Pmm) : Prop where
  maps : Maps s.mem s'.mem (4096 * root) va pa
  table : ∃ pt, follow (child (entries s'.mem)) root (upper va 3) = some pt
  frames : s'.frames = after s.frames (missing s root va 2 + missing s root va 3)
  granted : 0 < missing s root va 2 + missing s root va 3 →
    answer s.frames (missing s root va 2 + missing s root va 3 - 1) ≠ 0

/-- What a call does that does not get a table. -/
structure PageRefused (s : Vm Pmm) (root va : ℕ) (s' : Vm Pmm) : Prop where
  unmapped : walk s'.mem (4096 * root) va = none
  same : ∀ va', walk s'.mem (4096 * root) va' = walk s.mem (4096 * root) va'
  refused : ∃ j < missing s root va 2 + missing s root va 3, answer s.frames j = 0 ∧ s'.frames = after s.frames (j + 1)

theorem Progress.refused (h : Progress s root va n t j s₁) (hflat : ¬ UnderHuge (entries s.mem) root va)
    (hnone : follow (child (entries s.mem)) root (upper va 3) = none) (hzero : answer s.frames j = 0)
    (hj : j < missing s root va 2 + missing s root va 3) (tree : TableTree (entries s.mem) root) :
    PageRefused s root va { s₁ with frames := after s.frames (j + 1) } := by
  have hsame : ∀ va', walk s₁.mem (4096 * root) va' = walk s.mem (4096 * root) va' := by
    intro va'
    rw [walk_eq, walk_eq]
    exact h.reaches.same va'
  refine ⟨?_, hsame, j, hj, hzero, rfl⟩
  rw [hsame va, walk_eq]
  exact tree.walk_none hflat hnone

/-- A call for an address below a page directory pointer table and not under a huge
    page. -/
theorem vmm_map_page_outcome (h : Owned root s) {pdpt : ℕ}
    (hpdpt : follow (child (entries s.mem)) root (upper va 1) = some pdpt) (hflat : ¬ UnderHuge (entries s.mem) root va)
    (hva : va < 2 ^ 48) {pa : ℕ} (hpa : pa < 2 ^ 48) :
    Grown root s (vmm_map_page pmm_alloc_block (4096 * root) s va pa) ∧
      (PageMapped s root va pa (vmm_map_page pmm_alloc_block (4096 * root) s va pa) ∨
        PageRefused s root va (vmm_map_page pmm_alloc_block (4096 * root) s va pa)) := by
  have hstart := Progress.start h va
  have hself : Grown root s s := fun _ _ _ ht => .inl ht
  have hone : missing s root va 1 = 0 := by rw [missing, hpdpt]; rfl
  unfold vmm_map_page pt_of pd_of pdpt_of
  obtain ⟨t₁, s₁, heq, h₁, hgrown₁, -⟩ | ⟨hmissed, -⟩ := hstart.step hself (by decide) rfl
    (h.tree.huge [] root (index 3 va) (by decide) rfl)
  · rw [show table_at pmm_alloc_block s (4096 * root + 8 * index 3 va) = _ from heq]
    rw [hone, Nat.add_zero] at h₁
    obtain ⟨pd, s₂, heq, h₂, hgrown₂, hgranted₂⟩ | ⟨hmissed, hzero, heq⟩ := h₁.step hgrown₁ (by decide) rfl
      (h₁.owned.tree.huge (upper va 1) t₁ (index 2 va) (by rw [upper_length]; decide) h₁.reaches.reached)
    · simp only [show table_at pmm_alloc_block s₁ (4096 * t₁ + 8 * index 2 va) = _ from heq]
      have hnot : ¬ (Present (le64 s₂.mem (4096 * pd + 8 * index 1 va)) ∧ Huge (le64 s₂.mem (4096 * pd + 8 * index 1 va))) :=
        fun hhuge => hflat ((h₂.reaches.huge va).mp ⟨pd, h₂.reaches.reached, hhuge⟩)
      simp only [if_neg hnot]
      obtain ⟨pt, s₃, heq, h₃, hgrown₃, hgranted₃⟩ | ⟨hmissed, hzero, heq⟩ := h₂.step hgrown₂ (by decide) rfl
        fun hp hh => hnot ⟨hp, hh⟩
      · simp only [show table_at pmm_alloc_block s₂ (4096 * pd + 8 * index 1 va) = _ from heq, Nat.mul_comm (pa / 4096),
          or_flags]
        obtain ⟨-, hfollow, -⟩ := h₃.store (show pa < 2 ^ 64 by omega) rfl
        obtain ⟨-, hmaps⟩ := h₃.reaches.store hva hpa
        rw [Nat.zero_add] at hgranted₂ hgranted₃ h₃
        refine ⟨fun p u hp hu => hgrown₃ p u hp ((hfollow p hp).symm.trans hu), .inl ⟨hmaps, ⟨pt, ?_⟩, h₃.frames, fun hpos => ?_⟩⟩
        · exact (hfollow _ (by rw [upper_length])).trans h₃.reaches.reached
        · have htwo := missing_le s root va 2
          have hthree := missing_le s root va 3
          by_cases hlast : missing s root va 3 = 1
          · rw [hlast, Nat.add_sub_cancel]
            exact hgranted₃ hlast
          · rw [show missing s root va 2 + missing s root va 3 - 1 = 0 by omega]
            exact hgranted₂ (show missing s root va 2 = 1 by omega)
      · simp only [show table_at pmm_alloc_block s₂ (4096 * pd + 8 * index 1 va) = _ from heq]
        rw [Nat.zero_add] at hzero h₂ ⊢
        have hlast : missing s root va 3 = 1 := hmissed
        exact ⟨hgrown₂, .inr (h₂.refused hflat (missing_eq_one.mp hlast) hzero (by simp [hlast]) h.tree)⟩
    · simp only [show table_at pmm_alloc_block s₁ (4096 * t₁ + 8 * index 2 va) = _ from heq]
      have hsecond : missing s root va 2 = 1 := hmissed
      exact ⟨hgrown₁, .inr (h₁.refused hflat (upper_none (missing_eq_one.mp hsecond)) hzero (by simp [hsecond]) h.tree)⟩
  · rw [Nat.zero_add] at hmissed
    omega

/-- The state in which `vmm_map_page` is called for page `k`. -/
def taking (s : Vm Pmm) : Vm Pmm := { s with frames := (pmm_alloc_block s.frames).2 }

theorem Laid.taking_frames (h : Laid b root k s) : (taking s).frames = after b.frames (asked b root k + 1) := by
  rw [taking, after, h.frames]

/-- The pages before page `k` are mapped, each to the frame that it got, and no table
    is in one of these frames. -/
structure Backing (b : Vm Pmm) (root k : ℕ) (mem : Memory) : Prop where
  mapped : ∀ i < k, ∀ a < 4096, walk mem (4096 * root) (page_va i + a) = some ⟨answer b.frames (asked b root i) + a, true⟩
  spare : ∀ i < k, ∀ p t, p.length ≤ 3 → follow (child (entries mem)) root p = some t →
    4096 * t ≠ answer b.frames (asked b root i)

theorem page_va_lt (hk : k < PAGE_LIMIT) : page_va k + 4096 ≤ 2 ^ 48 := by
  simp only [page_va, HEAP_START, PAGE_LIMIT] at hk ⊢
  omega

theorem Laid.next (h : Laid b root k s) {pa : ℕ} (hk : k + 1 < PAGE_LIMIT) (hpa : pa < 2 ^ 48)
    (hmapped : PageMapped (taking s) root (page_va k) pa (vmm_map_page pmm_alloc_block (4096 * root) (taking s) (page_va k) pa)) :
    Laid b root (k + 1) (vmm_map_page pmm_alloc_block (4096 * root) (taking s) (page_va k) pa) := by
  have hext := vmm_map_page_extends (s := taking s) h.owned.alloc (page_va k) (show pa < 2 ^ 64 by omega)
  obtain ⟨hpd, hpt⟩ := h.missing_eq (show k < PAGE_LIMIT by omega)
  obtain ⟨pt, hpt'⟩ := hmapped.table
  refine h.step hk hext rfl ?_ hpt'
  have hmissing : ∀ n, missing (taking s) root (page_va k) n = missing s root (page_va k) n := fun _ => rfl
  rw [hmapped.frames, hmissing, hmissing, hpd, hpt, h.taking_frames, after_add, asked, Nat.add_assoc _ (needs_pd b root k)]

theorem Laid.outcome (h : Laid b root k s) {pdpt pa : ℕ} (hspace : HeapSpace b root pdpt) (hk : k < PAGE_LIMIT) (hpa : pa < 2 ^ 48) :
    Grown root (taking s) (vmm_map_page pmm_alloc_block (4096 * root) (taking s) (page_va k) pa) ∧
      (PageMapped (taking s) root (page_va k) pa (vmm_map_page pmm_alloc_block (4096 * root) (taking s) (page_va k) pa) ∨
        PageRefused (taking s) root (page_va k) (vmm_map_page pmm_alloc_block (4096 * root) (taking s) (page_va k) pa)) := by
  have hpdpt : follow (child (entries (taking s).mem)) root (upper (page_va k) 1) = some pdpt := by
    rw [page_upper_one hk]
    exact h.keeps [0] pdpt (by decide) hspace.pdpt
  refine vmm_map_page_outcome h.owned.alloc hpdpt ?_ (by have := page_va_lt hk; omega) hpa
  exact fun hhuge => hspace.flat k hk ((h.flat _).mp hhuge)

theorem page_va_page (hk : k < PAGE_LIMIT) {a : ℕ} (ha : a < 4096) :
    page_va k + a < 2 ^ 48 ∧ (page_va k + a) / 4096 = 2 ^ 21 + k ∧ (page_va k + a) % 4096 = a := by
  simp only [page_va, HEAP_START, PAGE_LIMIT] at hk ⊢
  omega

/-- One page more is backed. -/
theorem Backing.step (h : Backing b root k s.mem) (hlaid : Laid b root k s) (hk : k < PAGE_LIMIT)
    (hgranted : ∀ i ≤ k, answer b.frames (asked b root i) ≠ 0) {s' : Vm Pmm} (hgrown : Grown root (taking s) s')
    (hmapped : PageMapped (taking s) root (page_va k) (answer b.frames (asked b root k)) s') :
    Backing b root (k + 1) s'.mem := by
  have hpage : ∀ {i : ℕ}, i ≤ k → asked b root i < asked b root k + 1 :=
    fun hi => Nat.lt_succ_of_le (asked_mono b root hi)
  refine ⟨fun i hi a ha => ?_, fun i hi p t hp ht heq => ?_⟩
  · obtain ⟨hva, hnumber, hoffset⟩ := page_va_page (show i < PAGE_LIMIT by omega) ha
    obtain ⟨-, hnumber', -⟩ := page_va_page hk (show 0 < 4096 by decide)
    rw [Nat.add_zero] at hnumber'
    by_cases hlast : i = k
    · subst hlast
      have hdvd := answer_dvd b.frames (asked b root i)
      rw [hmapped.maps.page _ hva (hnumber.trans hnumber'.symm), hoffset, Nat.div_mul_cancel hdvd]
    · rw [hmapped.maps.other _ hva (by omega)]
      exact h.mapped i (by omega) a ha
  · obtain hold | hfree := hgrown p t hp ht
    · obtain hlt | rfl := Nat.lt_succ_iff_lt_or_eq.mp hi
      · exact h.spare i hlt p t hp hold heq
      · -- the frame of the page was free when it was handed out
        refine hlaid.owned.taken p t hp hold ?_
        rw [hlaid.frames]
        exact alloc_free _ heq.symm (hgranted i le_rfl)
    · rw [hlaid.taking_frames] at hfree
      exact answer_taken heq.symm (hgranted i (by omega)) (hpage (by omega)) hfree

/-- How the loop of `kmalloc_init` ends, at page `stop`: it ran out of pages or of
    frames. All pages before are backed, or the last one got no table. -/
structure HeapEnd (b : Vm Pmm) (root n stop : ℕ) (mem : Memory) : Prop where
  le : stop ≤ n
  granted : ∀ i < stop, answer b.frames (asked b root i) ≠ 0
  ended : stop = n ∨ answer b.frames (asked b root stop) = 0
  backed : (Backing b root stop mem ∧ ∀ i < stop, answer b.frames (asked b root (i + 1) - 1) ≠ 0) ∨
    ∃ i, stop = i + 1 ∧ answer b.frames (asked b root (i + 1) - 1) = 0 ∧ walk mem (4096 * root) (page_va i) = none

/-- With no frame left the loop ends at once. -/
theorem map_heap_exhausted (pml4_table addr : ℕ) (h : answer s.frames 0 = 0) (n : ℕ) :
    (map_heap pml4_table n addr s).1.mem = s.mem ∧ (map_heap pml4_table n addr s).2 = addr := by
  cases n with
  | zero => exact ⟨rfl, rfl⟩
  | succ n =>
    have hzero : (pmm_alloc_block s.frames).1 = 0 := h
    rw [map_heap]
    simp [hzero]

theorem map_heap_end {pdpt : ℕ} (hspace : HeapSpace b root pdpt) {n : ℕ} (hn : k + n < PAGE_LIMIT) (h : Laid b root k s)
    (hback : Backing b root k s.mem) (hgranted : ∀ i < k, answer b.frames (asked b root i) ≠ 0)
    (htables : ∀ i < k, answer b.frames (asked b root (i + 1) - 1) ≠ 0) :
    ∃ stop, (map_heap (4096 * root) n (page_va k) s).2 = page_va stop ∧
      HeapEnd b root (k + n) stop (map_heap (4096 * root) n (page_va k) s).1.mem := by
  induction n generalizing k s with
  | zero => exact ⟨k, rfl, le_rfl, hgranted, .inl rfl, .inl ⟨hback, htables⟩⟩
  | succ n ih =>
    have hdata : (pmm_alloc_block s.frames).1 = answer b.frames (asked b root k) := by rw [h.frames, answer]
    by_cases hzero : answer b.frames (asked b root k) = 0
    · obtain ⟨hmem, haddr⟩ := map_heap_exhausted (4096 * root) (page_va k) (hdata.trans hzero) (n + 1)
      exact ⟨k, haddr, by omega, hgranted, .inr hzero, .inl ⟨hmem ▸ hback, htables⟩⟩
    · have hva : page_va k + 4096 = page_va (k + 1) := by
        unfold page_va
        omega
      have hround : map_heap (4096 * root) (n + 1) (page_va k) s = map_heap (4096 * root) n (page_va (k + 1))
          (vmm_map_page pmm_alloc_block (4096 * root) (taking s) (page_va k) (answer b.frames (asked b root k))) := by
        rw [map_heap, ← hdata, hva]
        exact if_pos (hdata ▸ hzero)
      have hpa : answer b.frames (asked b root k) < 2 ^ 48 := hdata ▸ alloc_addr_lt _ h.owned.hint
      have hgranted' : ∀ i ≤ k, answer b.frames (asked b root i) ≠ 0 := by
        intro i hi
        obtain hlt | rfl := Nat.lt_or_eq_of_le hi
        · exact hgranted i hlt
        · exact hzero
      have hrequests : asked b root (k + 1) = asked b root k + 1 + (needs_pd b root k + needs_pt b root k) := by
        rw [asked, Nat.add_assoc _ (needs_pd b root k)]
      obtain ⟨hpd, hpt⟩ := h.missing_eq (show k < PAGE_LIMIT by omega)
      have hbound := asked_le b root (k + 1)
      rw [hround]
      obtain ⟨hgrown, hmapped | hrefused⟩ := h.outcome hspace (by omega) hpa
      · have htable : answer b.frames (asked b root (k + 1) - 1) ≠ 0 := by
          have hlast := hmapped.granted
          change 0 < missing s root (page_va k) 2 + missing s root (page_va k) 3 →
            answer _ (missing s root (page_va k) 2 + missing s root (page_va k) 3 - 1) ≠ 0 at hlast
          rw [hpd, hpt, h.taking_frames, answer_after] at hlast
          by_cases hnone : needs_pd b root k + needs_pt b root k = 0
          · rwa [hrequests, hnone, Nat.add_zero, Nat.add_sub_cancel]
          · rw [hrequests, Nat.add_sub_assoc (by omega)]
            exact hlast (by omega)
        rw [Nat.add_comm n 1, ← Nat.add_assoc]
        refine ih (by omega) (h.next (by omega) hpa hmapped) (hback.step h (by omega) hgranted' hgrown hmapped)
          (fun i hi => hgranted' i (by omega)) fun i hi => ?_
        obtain hlt | rfl := Nat.lt_succ_iff_lt_or_eq.mp hi
        · exact htables i hlt
        · exact htable
      · obtain ⟨j, hj, hfail, hframes⟩ := hrefused.refused
        change j < missing s root (page_va k) 2 + missing s root (page_va k) 3 at hj
        rw [hpd, hpt] at hj
        rw [h.taking_frames, answer_after] at hfail
        have hlasting : ∀ j', asked b root k + 1 + j ≤ j' → answer b.frames j' = 0 :=
          fun j' hle => hspace.lasting _ j' (by omega) hle hfail
        have hempty : answer (vmm_map_page pmm_alloc_block (4096 * root) (taking s) (page_va k)
            (answer b.frames (asked b root k))).frames 0 = 0 := by
          rw [hframes, h.taking_frames, after_add, answer_after]
          exact hlasting _ (by omega)
        obtain ⟨hmem, haddr⟩ := map_heap_exhausted (4096 * root) (page_va (k + 1)) hempty n
        refine ⟨k + 1, haddr, by omega, fun i hi => hgranted' i (by omega), .inr (hlasting _ (by omega)),
          .inr ⟨k, rfl, hlasting _ (by omega), ?_⟩⟩
        rw [hmem]
        exact hrefused.unmapped

/-- The first `size` bytes of the heap are mapped, each page to another frame, and no
    table is in one of these. -/
structure HeapBacked (root : ℕ) (mem : Memory) (size : ℕ) (frame : ℕ → ℕ) : Prop where
  mapped : ∀ a < size, walk mem (4096 * root) (HEAP_START + a) = some ⟨4096 * frame (a / 4096) + a % 4096, true⟩
  distinct : ∀ k l, 4096 * k < size → 4096 * l < size → frame k = frame l → k = l
  spare : ∀ k, 4096 * k < size → ∀ p t, p.length ≤ 3 → follow (child (entries mem)) root p = some t → t ≠ frame k

theorem Backing.heapBacked {mem : Memory} {size : ℕ} (h : Backing b root k mem) (hsize : size ≤ 4096 * k)
    (hgranted : ∀ i < k, answer b.frames (asked b root i) ≠ 0) :
    HeapBacked root mem size fun i => answer b.frames (asked b root i) / 4096 := by
  have hframe : ∀ i, 4096 * (answer b.frames (asked b root i) / 4096) = answer b.frames (asked b root i) :=
    fun i => Nat.mul_div_cancel' (answer_dvd ..)
  have hless : ∀ i j, i < j → j < k → answer b.frames (asked b root i) ≠ answer b.frames (asked b root j) := by
    intro i j hij hj
    have hnext : asked b root (i + 1) = asked b root i + 1 + needs_pd b root i + needs_pt b root i := rfl
    have hmono := asked_mono b root (show i + 1 ≤ j by omega)
    exact answer_injective (by omega) (hgranted i (by omega)) (hgranted j hj)
  refine ⟨fun a ha => ?_, fun i j hi hj heq => ?_, fun i hi p t hp ht heq => ?_⟩
  · have hpage := h.mapped (a / 4096) (by omega) (a % 4096) (Nat.mod_lt _ (by decide))
    rw [hframe, ← hpage, page_va, Nat.add_assoc, Nat.div_add_mod]
  · have heq : answer b.frames (asked b root i) = answer b.frames (asked b root j) := by
      rw [← hframe i, ← hframe j, heq]
    obtain hlt | rfl | hlt := Nat.lt_trichotomy i j
    · exact absurd heq (hless i j hlt (by omega))
    · rfl
    · exact absurd heq.symm (hless j i hlt (by omega))
  · exact h.spare i (by omega) p t hp ht (heq ▸ hframe i)

/-- Where `kmalloc_init` ends, and the size that the heap has then. -/
theorem kmalloc_init_end {pdpt : ℕ} (hspace : HeapSpace b root pdpt)
    (htotal : pmm_get_total_memory_kb b.frames ≤ 4 * PMM_BLOCKS) :
    ∃ stop, (kmalloc_init (4096 * root) b).2 = min (heap_size b.frames) (4096 * stop) ∧
      HeapEnd b root (heap_pages b.frames) stop (kmalloc_init (4096 * root) b).1.mem := by
  have hpages := heap_pages_lt htotal
  have hnone : ∀ {P : ℕ → Prop}, ∀ i < 0, P i := fun i hi => absurd hi (Nat.not_lt_zero i)
  obtain ⟨stop, haddr, hend⟩ := map_heap_end hspace (n := heap_pages b.frames) (by omega) (.start hspace.owned)
    ⟨hnone, hnone⟩ hnone hnone
  rw [Nat.zero_add] at hend
  refine ⟨stop, ?_, hend⟩
  rw [kmalloc_init]
  change min _ ((map_heap (4096 * root) (heap_pages b.frames) (page_va 0) b).2 - HEAP_START) = _
  rw [haddr, page_va, Nat.add_sub_cancel_left]

/-- Once a page gets no frame, none does. -/
theorem HeapEnd.ended_of_le {pdpt n stop : ℕ} {mem : Memory} (h : HeapEnd b root n stop mem) (hspace : HeapSpace b root pdpt)
    (hn : n < PAGE_LIMIT) (hle : stop ≤ k) (hk : k < n) : answer b.frames (asked b root k) = 0 := by
  have hnone := h.ended.resolve_left (by omega)
  have hbound := asked_le b root stop
  exact hspace.lasting _ _ (by omega) (asked_mono b root hle) hnone

/-- The heap is backed exactly if each page that got a frame got its tables. -/
theorem HeapEnd.backed_iff {pdpt stop : ℕ} {mem : Memory} (h : HeapEnd b root (heap_pages b.frames) stop mem)
    (hspace : HeapSpace b root pdpt) (htotal : pmm_get_total_memory_kb b.frames ≤ 4 * PMM_BLOCKS) :
    (∃ frame, HeapBacked root mem (min (heap_size b.frames) (4096 * stop)) frame) ↔
      ∀ k < heap_pages b.frames, answer b.frames (asked b root k) ≠ 0 → answer b.frames (asked b root (k + 1) - 1) ≠ 0 := by
  obtain ⟨hback, htables⟩ | ⟨i, rfl, hzero, hwalk⟩ := h.backed
  · refine iff_of_true ⟨_, hback.heapBacked (Nat.min_le_right _ _) h.granted⟩ fun k hk hne => ?_
    by_cases hlt : k < stop
    · exact htables k hlt
    · exact absurd (h.ended_of_le hspace (heap_pages_lt htotal) (Nat.le_of_not_lt hlt) hk) hne
  · have hi := h.le
    refine iff_of_false ?_ fun hall => hall i (by omega) (h.granted i (Nat.lt_succ_self i)) hzero
    -- the last page got a frame, but it is not mapped
    rintro ⟨frame, hbacked⟩
    have hpage := hbacked.mapped (4096 * i) ?_
    · exact Option.some_ne_none _ (hpage.symm.trans hwalk)
    · unfold heap_pages at hi
      omega

/-- The heap that `kmalloc_init` sets up is backed by frames of its own exactly if the
    frames do not run out at a request for a table: a page that gets a frame also gets
    the tables that are missing on its way. -/
theorem heap_backed_iff {pdpt : ℕ} (hspace : HeapSpace b root pdpt)
    (htotal : pmm_get_total_memory_kb b.frames ≤ 4 * PMM_BLOCKS) :
    (∃ frame, HeapBacked root (kmalloc_init (4096 * root) b).1.mem (kmalloc_init (4096 * root) b).2 frame) ↔
      ∀ k < heap_pages b.frames, answer b.frames (asked b root k) ≠ 0 → answer b.frames (asked b root (k + 1) - 1) ≠ 0 := by
  obtain ⟨stop, hsize, hend⟩ := kmalloc_init_end hspace htotal
  rw [hsize]
  exact hend.backed_iff hspace htotal

theorem heap_backed_iff_large :
    ∃ b, before_heap 2 large_info (fun _ => 0) half_megabyte large_tables 0xFEE00000 MULTIBOOT2_MAGIC 0x9000 = some b ∧
      ((∃ frame, HeapBacked 300 (kmalloc_init (4096 * 300) b).1.mem (kmalloc_init (4096 * 300) b).2 frame) ↔
        ∀ k < heap_pages b.frames, answer b.frames (asked b 300 k) ≠ 0 → answer b.frames (asked b 300 (k + 1) - 1) ≠ 0) := by
  obtain ⟨b, hb⟩ := large_boot
  obtain ⟨hspace, -, htotal⟩ := @boot_space b 300 _ _ _ _ _ _ _ _ large_in rfl (by decide) hb
  exact ⟨b, hb, heap_backed_iff hspace htotal⟩

/-- An allocator with 3080 free frames, from number 1000 on. -/
def scarce_frames : Pmm := static_pmm fun i => if 125 ≤ i ∧ i < 510 then 0 else 0xFF

/-- The boot tables in the image of `half_megabyte`, with few frames. -/
def scarce : Vm Pmm := ⟨boot_tables (fun _ => 0) (4096 * 300), scarce_frames⟩

theorem scarce_free {c : ℕ} : Free scarce_frames c ↔ 1000 ≤ c ∧ c < 4080 := by
  have hbyte : scarce_frames.pmm_bitmap (c / 8) = if 125 ≤ c / 8 ∧ c / 8 < 510 then 0 else 0xFF := rfl
  by_cases hmiddle : 125 ≤ c / 8 ∧ c / 8 < 510
  · rw [if_pos hmiddle] at hbyte
    refine iff_of_true ?_ (by omega)
    rw [Free, bitmap.Taken, hbyte]
    simp
  · rw [if_neg hmiddle] at hbyte
    refine iff_of_false (not_not_intro ?_) (by omega)
    have hfull := (bitmap.byte_full_iff _ _).mp hbyte (c % 8) (Nat.mod_lt _ (by decide))
    rwa [Nat.div_add_mod] at hfull

theorem scarce_missing {k n : ℕ} (hk : k < 2 ^ 18) (hn : n = 2 ∨ n = 3) : missing scarce 300 (page_va k) n = 1 := by
  refine missing_eq_one.mpr (Option.eq_none_iff_forall_ne_some.mpr fun t ht => ?_)
  obtain ⟨u, hu⟩ := follow_upper_of_le ht (show 2 ≤ n by omega)
  obtain ⟨hp, -⟩ | ⟨hp, -⟩ | ⟨i, hi, hp, -⟩ := boot_follow (fun _ => 0) (by decide) hu
  · simp [upper] at hp
  · simp [upper] at hp
  · simp only [upper, List.nil_append, List.cons_append, List.cons.injEq, and_true] at hp
    have hindex := congrArg Fin.val hp.2
    simp only [index, page_va, HEAP_START] at hindex
    omega

/-- The first page of the heap needs a page directory, the first one of each 2 MB a page
    table. -/
theorem scarce_asked {k : ℕ} (hk : k ≤ 2 ^ 18) : asked scarce 300 k = k + (k + 511) / 512 + (k + 2 ^ 18 - 1) / 2 ^ 18 := by
  induction k with
  | zero => rfl
  | succ k ih =>
    rw [asked, ih (by omega), needs_pd, needs_pt, scarce_missing (by omega) (.inl rfl), scarce_missing (by omega) (.inr rfl)]
    split <;> split <;> omega

theorem scarce_space : HeapSpace scarce 300 301 := by
  have hN := PMM_BLOCKS_eq
  have howned : Owned 300 scarce := by
    refine ⟨boot_tree _ (by decide), fun p t _ ht hfree => ?_, by decide⟩
    have hlow := scarce_free.mp hfree
    obtain ⟨-, rfl⟩ | ⟨-, rfl⟩ | ⟨k, hk, -, rfl⟩ := boot_follow (fun _ => 0) (by decide) ht <;> omega
  have hroving : Roving scarce.frames PMM_BLOCKS := ⟨le_rfl, by decide⟩
  refine (Extends.refl howned).heapSpace (by decide) (Roving.lasting hroving le_rfl ?_)
  simp only [PAGE_LIMIT]
  omega

/-- The frames last for 3080 requests. -/
theorem scarce_answer {j : ℕ} (hj : j < PAGE_LIMIT) : answer scarce_frames j = 0 ↔ 3080 ≤ j := by
  have hN := PMM_BLOCKS_eq
  have hsupply : Supply scarce_frames (j + 0) := by
    refine ⟨le_rfl, ?_, fun c hc hlt => absurd hlt (Nat.not_lt.mpr hc)⟩
    change max PMM_BLOCKS 256 + 8 * j < 2 ^ 32
    simp only [PAGE_LIMIT] at hj
    omega
  have hcontained : Contained scarce_frames := ⟨by decide, .inl fun hfree => by have := scarce_free.mp hfree; omega⟩
  have hfree : free_between scarce_frames 256 PMM_BLOCKS = Finset.Ico 1000 4080 := by
    ext c
    rw [mem_free_between, scarce_free, Finset.mem_Ico]
    omega
  rw [hcontained.answer_zero_iff j hsupply, hfree, Nat.card_Ico]

/-- Page 3072 gets the last frame, and none is left for its page table. -/
theorem scarce_heap_not_backed :
    HeapSpace scarce 300 301 ∧
      ¬ ∃ frame, HeapBacked 300 (kmalloc_init (4096 * 300) scarce).1.mem (kmalloc_init (4096 * 300) scarce).2 frame := by
  have htotal : pmm_get_total_memory_kb scarce.frames ≤ 4 * PMM_BLOCKS := by decide
  obtain ⟨stop, hsize, hend⟩ := kmalloc_init_end scarce_space htotal
  have hpages : heap_pages scarce.frames = 4096 := by decide
  have hlast := @scarce_asked 3072 (by decide)
  have hnext := @scarce_asked (3072 + 1) (by decide)
  refine ⟨scarce_space, fun hbacked => ?_⟩
  rw [hsize, hend.backed_iff scarce_space htotal] at hbacked
  refine hbacked 3072 (by omega) ?_ ?_
  · rw [hlast]
    exact mt (scarce_answer (by decide)).mp (by decide)
  · rw [hnext]
    exact (scarce_answer (by decide)).mpr (by decide)

end os_dev.boot
