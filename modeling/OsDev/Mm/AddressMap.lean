import OsDev.Mm.HeapBacking
import OsDev.Mm.LowMachine

open little_endian linked_tree

namespace os_dev.vmm

variable {σ : Type} {alloc : σ → ℕ × σ} {s s₁ : Vm σ} {root va pa : ℕ}

/-- An address space as its users see it. -/
abbrev Space := ℕ → Option Translation

/-- The first 4 GB, each address at itself. -/
def identity_space : Space := fun va => if va < 0x100000000 then some ⟨va, true⟩ else none

/-- A page gets its frame, with write access, and nothing else changes. -/
def Space.map (space : Space) (call : ℕ × ℕ) : Space := fun va =>
  if va / 4096 = call.1 / 4096 then some ⟨call.2 / 4096 * 4096 + va % 4096, true⟩ else space va

/-- No table that a call asks for is refused. -/
def granted (alloc : σ → ℕ × σ) (pml4_table : ℕ) (s : Vm σ) (va : ℕ) : Bool :=
  (requests alloc pml4_table s va).all fun r => (alloc r.frames).1 ≠ 0

/-- What a run of calls makes of an address space: a call behind the first 4 GB that gets its tables maps its page, and
    any other call does nothing. -/
def space_run (alloc : σ → ℕ × σ) (pml4_table : ℕ) : Vm σ → List (ℕ × ℕ) → Space → Space
  | _, [], space => space
  | s, call :: calls, space =>
    space_run alloc pml4_table (vmm_map_page alloc pml4_table s call.1 call.2) calls
      (if 0x100000000 ≤ call.1 ∧ granted alloc pml4_table s call.1 then space.map call else space)

/-- The tables in memory are an address space, in which just the first 4 GB are under huge pages. -/
structure Shows (root : ℕ) (mem : ℕ → UInt8) (space : Space) : Prop where
  tree : TableTree (entries mem) root
  huge : ∀ va < 2 ^ 48, UnderHuge (entries mem) root va ↔ va < 0x100000000
  walks : ∀ va < 2 ^ 48, walk mem (4096 * root) va = space va

theorem granted_iff {pml4_table : ℕ} :
    granted alloc pml4_table s va = true ↔ ∀ r ∈ requests alloc pml4_table s va, ¬ Fails alloc r := by
  simp only [granted, Fails, ne_eq, decide_not, List.all_eq_true, Bool.not_eq_eq_eq_not, Bool.not_true,
    decide_eq_false_iff_not]

/-- A call leaves the huge pages alone. -/
theorem vmm_map_page_huge (h : TableTree (entries s.mem) root) (hpa : pa < 2 ^ 48)
    (hanswers : ∀ r ∈ requests alloc (4096 * root) s va, Answers alloc (4096 * root) r) (va' : ℕ) :
    UnderHuge (entries (vmm_map_page alloc (4096 * root) s va pa).mem) root va' ↔ UnderHuge (entries s.mem) root va' := by
  obtain ⟨pt, s₃, heq, hreaches, -⟩ | ⟨s₁, frames, t, n, heq, hreaches, -⟩ := pt_of_cases h va hanswers
  · have hset : entries (put64 s₃.mem (4096 * pt + 8 * index 0 va) (4096 * (pa / 4096) + 3)) =
        set_entry (entries s₃.mem) pt (index 0 va) (4096 * (pa / 4096) + 3) := entries_put64 _ _ _ (by omega)
    simp only [vmm_map_page, heq, Nat.mul_comm (pa / 4096), or_flags, hset]
    rw [underHuge_set_leaf hreaches.tree (upper_length va 3) hreaches.reached]
    exact hreaches.huge va'
  · simp only [vmm_map_page, heq]
    exact hreaches.huge va'

/-- One call is its step of the address space. -/
theorem Shows.step {space : Space} {call : ℕ × ℕ} (h : Shows root s.mem space)
    (hcall : GoodCall alloc (4096 * root) s call) :
    Shows root (vmm_map_page alloc (4096 * root) s call.1 call.2).mem
      (if 0x100000000 ≤ call.1 ∧ granted alloc (4096 * root) s call.1 then space.map call else space) := by
  obtain ⟨htree, hcases⟩ := vmm_map_page_cases h.tree hcall.va hcall.pa hcall.answers
  refine ⟨htree, fun va hva => ?_, fun va hva => ?_⟩
  · rw [vmm_map_page_huge h.tree hcall.pa hcall.answers]
    exact h.huge va hva
  obtain ⟨hnot, hgranted, hmaps⟩ | ⟨hrefused, hsame⟩ := hcases
  · rw [h.huge _ hcall.va, Nat.not_lt] at hnot
    rw [if_pos ⟨hnot, granted_iff.mpr hgranted⟩, Space.map]
    by_cases hpage : va / 4096 = call.1 / 4096
    · rw [if_pos hpage]
      exact hmaps.page va hva hpage
    · rw [if_neg hpage, hmaps.other va hva hpage]
      exact h.walks va hva
  · rw [if_neg, hsame va hva]
    · exact h.walks va hva
    rintro ⟨hbehind, hgranted⟩
    obtain hhuge | ⟨r, hr, hfail⟩ := hrefused
    · rw [h.huge _ hcall.va] at hhuge
      omega
    · exact granted_iff.mp hgranted r hr hfail

theorem Shows.run {space : Space} {calls : List (ℕ × ℕ)} (h : Shows root s.mem space)
    (hrun : GoodRun alloc (4096 * root) s calls) :
    Shows root (vmm_run alloc (4096 * root) s calls).mem (space_run alloc (4096 * root) s calls space) := by
  induction calls generalizing s space with
  | nil => exact h
  | cons call calls ih => exact ih (h.step hrun.1) hrun.2

section boot

variable {mem : ℕ → UInt8}

/-- The entries on the way to an address of the first 4 GB. -/
theorem boot_way (mem : ℕ → UInt8) (hroot : root + 6 ≤ 2 ^ 20) (hva : va < 0x100000000) :
    entries (boot_tables mem (4096 * root)) root (index 3 va) = 4096 * (root + 1) + 3 ∧
      entries (boot_tables mem (4096 * root)) (root + 1) (index 2 va) = 4096 * (root + 2 + va / 2 ^ 30) + 3 ∧
      entries (boot_tables mem (4096 * root)) (root + 2 + va / 2 ^ 30) (index 1 va) =
        128 * (16384 * (va / 2 ^ 21) + 1) + 3 := by
  have hthree : index 3 va = 0 := by
    apply Fin.ext
    simp only [index, Fin.val_zero]
    omega
  have htwo : (index 2 va).val = va / 2 ^ 30 := by
    simp only [index]
    omega
  have hone : 512 * (va / 2 ^ 30) + (index 1 va).val = va / 2 ^ 21 := by
    simp only [index]
    omega
  refine ⟨?_, ?_, ?_⟩
  · rw [boot_pml4 mem hroot, if_pos hthree]
  · rw [boot_pdpt mem hroot, if_pos (by omega), htwo]
  · rw [boot_pd mem root (by omega), hone]

theorem boot_page_flags (m : ℕ) :
    Present (128 * (16384 * m + 1) + 3) ∧ Writable (128 * (16384 * m + 1) + 3) ∧ Huge (128 * (16384 * m + 1) + 3) := by
  rw [present_iff, writable_iff, huge_iff]
  omega

/-- Just the first 4 GB are under the huge pages of the boot code. -/
theorem boot_huge (hroot : root + 6 ≤ 2 ^ 20) (hva : va < 2 ^ 48) :
    UnderHuge (entries (boot_tables mem (4096 * root))) root va ↔ va < 0x100000000 := by
  constructor
  · rintro ⟨pd, hpd, -⟩
    obtain ⟨hp, -⟩ | ⟨hp, -⟩ | ⟨k, hk, hp, -⟩ := boot_follow mem hroot hpd
    · cases hp
    · simp only [upper, List.nil_append, List.cons_append, List.cons.injEq, List.cons_ne_nil, and_false] at hp
    · simp only [upper, List.nil_append, List.cons_append, List.cons.injEq, and_true] at hp
      have hthree := congrArg Fin.val hp.1
      have htwo := congrArg Fin.val hp.2
      simp only [index, Fin.val_zero] at hthree htwo
      omega
  · intro hlow
    obtain ⟨hthree, htwo, hone⟩ := boot_way mem hroot hlow
    have hpdpt : follow (child (entries (boot_tables mem (4096 * root)))) root (upper va 1) = some (root + 1) := by
      apply follow_snoc_eq_some.mpr
      refine ⟨root, rfl, ?_⟩
      apply child_eq_some.mpr
      rw [hthree]
      exact ⟨table_entry_present _, table_entry_not_huge _, frame_of_add _ (by omega)⟩
    refine ⟨root + 2 + va / 2 ^ 30, ?_, ?_⟩
    · apply follow_snoc_eq_some.mpr
      refine ⟨root + 1, hpdpt, ?_⟩
      apply child_eq_some.mpr
      rw [htwo]
      exact ⟨table_entry_present _, table_entry_not_huge _, frame_of_add _ (by omega)⟩
    · rw [hone]
      exact ⟨(boot_page_flags _).1, (boot_page_flags _).2.2⟩

/-- The boot tables are the first 4 GB at themselves. -/
theorem boot_shows (mem : ℕ → UInt8) (hroot : root + 6 ≤ 2 ^ 20) : Shows root (boot_tables mem (4096 * root)) identity_space := by
  have htree := boot_tree mem hroot
  refine ⟨htree, fun va hva => boot_huge hroot hva, fun va hva => ?_⟩
  rw [walk_eq, identity_space]
  by_cases hlow : va < 0x100000000
  · obtain ⟨hthree, htwo, hone⟩ := boot_way mem hroot hlow
    obtain ⟨hpresent, hwritable, hhuge⟩ := boot_page_flags (va / 2 ^ 21)
    rw [if_pos hlow]
    simp only [walk_from, hthree, htwo, hone, table_entry_present, table_entry_not_huge, table_entry_writable,
      frame_of_add _ (show root + 1 < 2 ^ 40 by omega), frame_of_add _ (show root + 2 + va / 2 ^ 30 < 2 ^ 40 by omega),
      hpresent, hwritable, hhuge, not_true_eq_false, if_false, if_true, decide_true, Bool.and_self,
      OfNat.zero_ne_ofNat]
    congr 2
    omega
  · rw [if_neg hlow]
    apply htree.walk_none
    · rwa [boot_huge hroot hva]
    · apply Option.eq_none_iff_forall_ne_some.mpr
      intro t ht
      obtain ⟨hp, -⟩ | ⟨hp, -⟩ | ⟨k, -, hp, -⟩ := boot_follow mem hroot ht
      all_goals
        have hlen := congrArg List.length hp
        rw [upper_length] at hlen
        cases hlen

end boot

/-- In every run from the boot tables the address space is what its calls make of the first 4 GB. -/
theorem walks_as_space (space : TableSpace) (mem : ℕ → UInt8) (alloc : σ → ℕ × σ) (frames : σ) (calls : List (ℕ × ℕ))
    (hrun : GoodRun alloc space.pml4_table ⟨boot_tables mem space.pml4_table, frames⟩ calls) (hva : va < 2 ^ 48) :
    walk (vmm_run alloc space.pml4_table ⟨boot_tables mem space.pml4_table, frames⟩ calls).mem space.pml4_table va =
      space_run alloc space.pml4_table ⟨boot_tables mem space.pml4_table, frames⟩ calls identity_space va := by
  obtain ⟨root, hroot⟩ := space.aligned
  have hbelow := space.below
  rw [hroot] at hrun hbelow ⊢
  have hboot := boot_shows mem (show root + 6 ≤ 2 ^ 20 by omega)
  exact (Shows.run (s := ⟨boot_tables mem (4096 * root), frames⟩) hboot hrun).walks va hva

theorem walks_as_space_heap :
    walk (vmm_run from_list low_tables.pml4_table two_frames [(0x200000000, 0x5000)]).mem low_tables.pml4_table 0x200000123 =
      space_run from_list low_tables.pml4_table two_frames [(0x200000000, 0x5000)] identity_space 0x200000123 :=
  walks_as_space low_tables (fun _ => 0) from_list _ _ two_frames_good (by decide)

/-- Whatever is mapped, the first 4 GB stay at themselves. -/
theorem space_run_low {pml4_table : ℕ} {space : Space} {calls : List (ℕ × ℕ)}
    (hspace : ∀ va < 0x100000000, space va = some ⟨va, true⟩) (hva : va < 0x100000000) :
    space_run alloc pml4_table s calls space va = some ⟨va, true⟩ := by
  induction calls generalizing s space with
  | nil => exact hspace va hva
  | cons call calls ih =>
    apply ih
    intro va hva
    split
    · rename_i hgranted
      rw [Space.map, if_neg (by omega)]
      exact hspace va hva
    · exact hspace va hva

end os_dev.vmm

namespace os_dev.boot

open os_dev.pmm os_dev.vmm fuel
open os_dev.heap (HEAP_START)

variable {s s₁ b : Vm Pmm} {st : Pmm} {root va n k : ℕ}

theorem mem_asks {entry : ℕ} {r : Vm Pmm} (h : r ∈ asks s entry) : r = s := by
  rw [asks] at h
  split at h
  · cases h
  · exact List.mem_singleton.mp h

/-- In each state in which a call asks for a frame, the allocator does not count the frames of the tables as free. -/
theorem Owned.requests (h : Owned root s) (va : ℕ) {r : Vm Pmm} (hr : r ∈ requests pmm_alloc_block (4096 * root) s va) :
    Owned root r := by
  have hstart := Progress.start h va
  simp only [vmm.requests, upper_requests, List.mem_append] at hr
  obtain (hr | hr) | hr := hr
  · rwa [mem_asks hr]
  · obtain ⟨pdpt, j, s₁, heq, h₁⟩ | ⟨s₁, heq, -⟩ := hstart.next (by decide) rfl
      (h.tree.huge [] root (index 3 va) (by decide) rfl)
    · simp only [pdpt_of, show table_at pmm_alloc_block s (4096 * root + 8 * index 3 va) = _ from heq] at hr
      rw [mem_asks hr]
      exact h₁.owned
    · simp only [pdpt_of, show table_at pmm_alloc_block s (4096 * root + 8 * index 3 va) = _ from heq] at hr
      cases hr
  · unfold pd_of pdpt_of at hr
    obtain ⟨pdpt, j, s₁, heq, h₁⟩ | ⟨s₁, heq, -⟩ := hstart.next (by decide) rfl
      (h.tree.huge [] root (index 3 va) (by decide) rfl)
    · simp only [show table_at pmm_alloc_block s (4096 * root + 8 * index 3 va) = _ from heq] at hr
      obtain ⟨pd, j, s₂, heq, h₂⟩ | ⟨s₂, heq, -⟩ := h₁.next (by decide) rfl
        (h₁.owned.tree.huge (upper va 1) pdpt (index 2 va) (by rw [upper_length]; decide) h₁.reaches.reached)
      · simp only [show table_at pmm_alloc_block s₁ (4096 * pdpt + 8 * index 2 va) = _ from heq] at hr
        rw [mem_asks hr]
        exact h₂.owned
      · simp only [show table_at pmm_alloc_block s₁ (4096 * pdpt + 8 * index 2 va) = _ from heq] at hr
        cases hr
    · simp only [show table_at pmm_alloc_block s (4096 * root + 8 * index 3 va) = _ from heq] at hr
      cases hr

/-- The allocator of the kernel serves every run. -/
theorem Owned.goodRun (h : Owned root s) {calls : List (ℕ × ℕ)}
    (hcalls : ∀ call ∈ calls, call.1 < 2 ^ 48 ∧ call.2 < 2 ^ 48) : GoodRun pmm_alloc_block (4096 * root) s calls := by
  induction calls generalizing s with
  | nil => trivial
  | cons call calls ih =>
    obtain ⟨hva, hpa⟩ := hcalls call List.mem_cons_self
    refine ⟨⟨hva, hpa, fun r hr => (h.requests call.1 hr).answers⟩, ?_⟩
    apply ih
    · exact (vmm_map_page_extends h call.1 (by omega)).owned
    · exact fun c hc => hcalls c (List.mem_cons_of_mem call hc)

/-- The heap has its first `pages` pages, each with a frame that is not free, and the rest of the address space is as it
    was before. -/
structure HeapPages (b : Vm Pmm) (root pages : ℕ) (s : Vm Pmm) : Prop where
  backing : Backing b root pages s.mem
  granted : ∀ i < pages, answer b.frames (asked b root i) ≠ 0
  taken : ∀ i < pages, ¬ Free s.frames (answer b.frames (asked b root i) / 4096)
  others : ∀ va < 2 ^ 48, ¬ (HEAP_START ≤ va ∧ va < page_va pages) →
    walk s.mem (4096 * root) va = walk b.mem (4096 * root) va

theorem HeapPages.congr (h : HeapPages b root k s) (hsame : ∀ va, walk s₁.mem (4096 * root) va = walk s.mem (4096 * root) va)
    (hfollow : ∀ p t, p.length ≤ 3 → follow (child (entries s₁.mem)) root p = some t →
      follow (child (entries s.mem)) root p = some t ∨ ∀ i < k, 4096 * t ≠ answer b.frames (asked b root i))
    (hfree : ∀ c, Free s₁.frames c → Free s.frames c) : HeapPages b root k s₁ := by
  refine ⟨⟨fun i hi a ha => ?_, fun i hi p t hp ht => ?_⟩, h.granted, fun i hi hc => h.taken i hi (hfree _ hc), fun va hva hout => ?_⟩
  · rw [hsame]
    exact h.backing.mapped i hi a ha
  · obtain hold | hnew := hfollow p t hp ht
    · exact h.backing.spare i hi p t hp hold
    · exact hnew i hi
  · rw [hsame]
    exact h.others va hva hout

theorem taking_free_mono {c : ℕ} (h : Free (after (taking s).frames n) c) : Free s.frames c :=
  alloc_free_mono _ (after_free_mono _ h)

/-- The frames of the heap pages so far are not free. -/
theorem Laid.page_taken (h : Laid b root k s) {i t : ℕ} (hi : i ≤ k) (ht : answer b.frames (asked b root i) = 4096 * t)
    (hne : answer b.frames (asked b root i) ≠ 0) : ¬ Free (taking s).frames t := by
  rw [h.taking_frames]
  apply answer_taken ht hne
  have hmono := asked_mono b root hi
  omega

theorem HeapPages.step (h : HeapPages b root k s) (hlaid : Laid b root k s) (hk : k < PAGE_LIMIT)
    (hne : answer b.frames (asked b root k) ≠ 0) (hgrown : Grown root (taking s) s₁)
    (hmapped : PageMapped (taking s) root (page_va k) (answer b.frames (asked b root k)) s₁) :
    HeapPages b root (k + 1) s₁ := by
  have hgranted : ∀ i < k + 1, answer b.frames (asked b root i) ≠ 0 := by
    intro i hi
    obtain hlt | rfl := Nat.lt_succ_iff_lt_or_eq.mp hi
    · exact h.granted i hlt
    · exact hne
  have hend : page_va (k + 1) = page_va k + 4096 := by
    simp only [page_va]
    omega
  refine ⟨?_, hgranted, fun i hi hfree => ?_, fun va hva hout => ?_⟩
  · exact h.backing.step hlaid hk (fun i hi => hgranted i (by omega)) hgrown hmapped
  · have hdvd := Nat.mul_div_cancel' (answer_dvd b.frames (asked b root i))
    rw [hmapped.frames] at hfree
    exact hlaid.page_taken (by omega) hdvd.symm (hgranted i hi) (after_free_mono _ hfree)
  · rw [hend] at hout
    have hstart : HEAP_START ≤ page_va k := Nat.le_add_right _ _
    obtain ⟨-, hnumber, -⟩ := page_va_page hk (show 0 < 4096 by decide)
    rw [Nat.add_zero] at hnumber
    rw [hmapped.maps.other va hva (by simp only [page_va, HEAP_START] at hout ⊢; omega)]
    apply h.others va hva
    omega

/-- A page that does not get its tables leaves the address space alone. -/
theorem HeapPages.refused (h : HeapPages b root k s) (hlaid : Laid b root k s) (hgrown : Grown root (taking s) s₁)
    (hrefused : PageRefused (taking s) root (page_va k) s₁) : HeapPages b root k s₁ := by
  obtain ⟨j, -, -, hframes⟩ := hrefused.refused
  refine h.congr hrefused.same (fun p t hp ht => ?_) fun c hfree => ?_
  · refine (hgrown p t hp ht).imp_right fun hfree i hi heq => ?_
    exact hlaid.page_taken hi.le heq.symm (h.granted i hi) hfree
  · rw [hframes] at hfree
    exact taking_free_mono hfree

/-- A request for a table is refused only if there are no frames left. -/
theorem Laid.refused_last {pdpt : ℕ} (h : Laid b root k s) (hspace : HeapSpace b root pdpt) (hk : k + 1 < PAGE_LIMIT)
    (hrefused : PageRefused (taking s) root (page_va k) s₁) : answer s₁.frames 0 = 0 := by
  obtain ⟨j, hj, hfail, hframes⟩ := hrefused.refused
  have htwo := missing_le (taking s) root (page_va k) 2
  have hthree := missing_le (taking s) root (page_va k) 3
  have hbound := asked_le b root k
  rw [h.taking_frames, answer_after] at hfail
  rw [hframes, h.taking_frames, after_add, answer_after]
  exact hspace.lasting _ _ (by omega) (by omega) hfail

/-- Without frames the loop of `kmalloc_init` does nothing. -/
theorem HeapPages.exhausted (h : HeapPages b root k s) (hzero : answer s.frames 0 = 0) (n : ℕ) (addr : ℕ) :
    HeapPages b root k (map_heap (4096 * root) n addr s).1 := by
  cases n with
  | zero => exact h
  | succ n =>
    have hnone : (pmm_alloc_block s.frames).1 = 0 := hzero
    simp only [map_heap, hnone, ne_eq, not_true_eq_false, if_false]
    exact h.congr (fun _ => rfl) (fun _ _ _ ht => .inl ht) fun c => alloc_free_mono s.frames

theorem map_heap_pages {pdpt : ℕ} (hspace : HeapSpace b root pdpt) (hn : k + n < PAGE_LIMIT) (hlaid : Laid b root k s)
    (h : HeapPages b root k s) :
    ∃ pages ≤ k + n, HeapPages b root pages (map_heap (4096 * root) n (page_va k) s).1 := by
  induction n generalizing k s with
  | zero => exact ⟨k, le_rfl, h⟩
  | succ n ih =>
    have hdata : (pmm_alloc_block s.frames).1 = answer b.frames (asked b root k) := by rw [hlaid.frames, answer]
    by_cases hzero : answer b.frames (asked b root k) = 0
    · exact ⟨k, by omega, h.exhausted (hdata.trans hzero) (n + 1) (page_va k)⟩
    have hround : map_heap (4096 * root) (n + 1) (page_va k) s = map_heap (4096 * root) n (page_va (k + 1))
        (vmm_map_page pmm_alloc_block (4096 * root) (taking s) (page_va k) (answer b.frames (asked b root k))) := by
      rw [map_heap, ← hdata, show page_va k + 4096 = page_va (k + 1) by simp only [page_va]; omega]
      exact if_pos (hdata ▸ hzero)
    have hpa : answer b.frames (asked b root k) < 2 ^ 48 := hdata ▸ alloc_addr_lt _ hlaid.owned.hint
    rw [hround]
    obtain ⟨hgrown, hmapped | hrefused⟩ := hlaid.outcome hspace (by omega) hpa
    · rw [show k + (n + 1) = k + 1 + n by omega]
      exact ih (by omega) (hlaid.next (by omega) hpa hmapped) (h.step hlaid (by omega) hzero hgrown hmapped)
    · exact ⟨k, by omega,
        (h.refused hlaid hgrown hrefused).exhausted (hlaid.refused_last hspace (by omega) hrefused) n _⟩

theorem heap_pages_start : HeapPages b root 0 b := by
  have hnone : ∀ {P : ℕ → Prop}, ∀ i < 0, P i := fun i hi => absurd hi (Nat.not_lt_zero i)
  exact ⟨⟨hnone, hnone⟩, hnone, hnone, fun _ _ _ => rfl⟩

theorem identity_pages_same {start size : ℕ} {call : ℕ × ℕ} (h : call ∈ identity_pages start size) : call.2 = call.1 := by
  obtain ⟨i, -, rfl⟩ := List.mem_map.mp h
  rfl

theorem init_pages_same {call : ℕ × ℕ} (h : call ∈ init_pages st) : call.2 = call.1 := by
  simp only [init_pages, framebuffer_pages, ramdisk_pages, List.mem_append] at h
  obtain (h | h) | h := h
  · split at h
    · cases h
    · split at h
      · cases h
      · exact identity_pages_same h
  · split at h
    · exact identity_pages_same h
    · cases h
  · exact identity_pages_same h

/-- The framebuffer and the ramdisk that the boot loader reports end below 2^48. -/
def ReportsBelow (st : Pmm) : Prop := ∀ call ∈ init_pages st, call.1 < 2 ^ 48

/-- The address space of the kernel, with the first `pages` pages of the heap: they have frames of their own, and
    everything else is what the calls before have made of the first 4 GB. -/
structure KernelSpace (root : ℕ) (s₀ : Vm Pmm) (calls : List (ℕ × ℕ)) (pages : ℕ) (frame : ℕ → ℕ) (s : Vm Pmm) : Prop where
  walks : ∀ va < 2 ^ 48, walk s.mem (4096 * root) va =
    if HEAP_START ≤ va ∧ va < page_va pages then some ⟨4096 * frame ((va - HEAP_START) / 4096) + va % 4096, true⟩
    else space_run pmm_alloc_block (4096 * root) s₀ calls identity_space va
  low : ∀ va < 0x100000000, walk s.mem (4096 * root) va = some ⟨va, true⟩
  distinct : ∀ i j, i < pages → j < pages → frame i = frame j → i = j
  taken : ∀ i < pages, ¬ Free s.frames (frame i)

theorem HeapPages.kernelSpace {s₀ : Vm Pmm} {calls : List (ℕ × ℕ)} (h : HeapPages b root k s)
    (hshows : Shows root b.mem (space_run pmm_alloc_block (4096 * root) s₀ calls identity_space)) :
    KernelSpace root s₀ calls k (fun i => answer b.frames (asked b root i) / 4096) s := by
  have hbacked := h.backing.heapBacked (le_refl (4096 * k)) h.granted
  have hwalks : ∀ va < 2 ^ 48, ¬ (HEAP_START ≤ va ∧ va < page_va k) → walk s.mem (4096 * root) va =
      space_run pmm_alloc_block (4096 * root) s₀ calls identity_space va := by
    intro va hva hout
    rw [h.others va hva hout]
    exact hshows.walks va hva
  refine ⟨fun va hva => ?_, fun va hva => ?_, fun i j hi hj => ?_, h.taken⟩
  · split
    · rename_i hheap
      have hmapped := hbacked.mapped (va - HEAP_START) (by simp only [page_va] at hheap; omega)
      have hoffset : (va - HEAP_START) % 4096 = va % 4096 := by
        simp only [HEAP_START] at hheap ⊢
        omega
      rw [hoffset, Nat.add_sub_cancel' hheap.1] at hmapped
      exact hmapped
    · exact hwalks va hva ‹_›
  · rw [hwalks va (by omega) (by simp only [HEAP_START]; omega)]
    exact space_run_low (fun va hva => if_pos hva) hva
  · exact hbacked.distinct i j (by omega) (by omega)

/-- What `kmain` has made of the address space when the heap is set up. -/
theorem kernel_space {fuel : ℕ} {mem memory : Memory} {kernel : KernelImage} {space : TableSpace} {apic_phys magic mbd : ℕ}
    (hin : TablesInKernel kernel space) (hroot : space.pml4_table = 4096 * root) (hapic : apic_phys < 2 ^ 32)
    (hreports : ∀ st, pmm_init fuel (boot_tables mem (4096 * root)) kernel magic mbd (static_pmm memory) = some st →
      ReportsBelow st)
    (h : before_heap fuel mem memory kernel space apic_phys magic mbd = some b) :
    ∃ st pages frame, pmm_init fuel (boot_tables mem (4096 * root)) kernel magic mbd (static_pmm memory) = some st ∧
      pages ≤ heap_pages b.frames ∧
      KernelSpace root ⟨boot_tables mem (4096 * root), st⟩ (device_pages apic_phys ++ init_pages st) pages frame
        (kmalloc_init (4096 * root) b).1 := by
  have hbelow := space.below
  rw [hroot] at hbelow
  obtain ⟨hspace, -, htotal⟩ := boot_space hin hroot hapic h
  have hlimit := heap_pages_lt htotal
  unfold before_heap at h
  rw [hroot] at h
  obtain ⟨st, hst, heq⟩ := Option.bind_eq_some_iff.mp h
  obtain rfl := Option.some.inj heq
  have howned := boot_owned hin hroot (pmm_init_started hst) mem
  obtain ⟨i, -, hframes⟩ := vmm_run_frames (4096 * root) ⟨boot_tables mem (4096 * root), st⟩ (device_pages apic_phys)
  have hpages : init_pages (vmm_run pmm_alloc_block (4096 * root) ⟨boot_tables mem (4096 * root), st⟩
      (device_pages apic_phys)).frames = init_pages st := by
    rw [hframes]
    exact (after_reported st i).2
  have hcalls : ∀ call ∈ device_pages apic_phys ++ init_pages st, call.1 < 2 ^ 48 ∧ call.2 < 2 ^ 48 := by
    intro call hcall
    obtain hdevice | hinit := List.mem_append.mp hcall
    · simp only [device_pages, List.mem_cons, List.not_mem_nil, or_false] at hdevice
      obtain rfl | rfl := hdevice <;> omega
    · rw [init_pages_same hinit]
      exact ⟨hreports st hst call hinit, hreports st hst call hinit⟩
  have hshows := (boot_shows mem (show root + 6 ≤ 2 ^ 20 by omega)).run (howned.goodRun hcalls)
  have hrun : vmm_init (4096 * root) (vmm_run pmm_alloc_block (4096 * root) ⟨boot_tables mem (4096 * root), st⟩
      (device_pages apic_phys)) = vmm_run pmm_alloc_block (4096 * root) ⟨boot_tables mem (4096 * root), st⟩
        (device_pages apic_phys ++ init_pages st) := by
    rw [vmm_init, hpages, vmm_run, vmm_run, vmm_run, List.foldl_append]
  rw [hrun] at hspace hlimit ⊢
  obtain ⟨pages, hle, hheap⟩ := map_heap_pages hspace (by rw [Nat.zero_add]; exact hlimit) (.start hspace.owned) heap_pages_start
  rw [Nat.zero_add] at hle
  exact ⟨st, pages, _, hst, hle, hheap.kernelSpace hshows⟩

theorem kernel_space_gigabyte :
    ∃ b, before_heap 2 gigabyte_info (fun _ => 0) half_megabyte large_tables 0xFEE00000 MULTIBOOT2_MAGIC 0x9000 = some b ∧
      (∀ t ∈ heap_tables (4096 * 300) (heap_pages b.frames) HEAP_START b, LowTable t) ∧
      ∃ st pages frame, pmm_init 2 (boot_tables gigabyte_info (4096 * 300)) half_megabyte MULTIBOOT2_MAGIC 0x9000
          (static_pmm fun _ => 0) = some st ∧ pages ≤ heap_pages b.frames ∧
        KernelSpace 300 ⟨boot_tables gigabyte_info (4096 * 300), st⟩ (device_pages 0xFEE00000 ++ init_pages st) pages frame
          (kmalloc_init (4096 * 300) b).1 := by
  obtain ⟨b, hb⟩ := gigabyte_boot
  obtain ⟨hspace, -, -⟩ := @boot_space b 300 _ _ _ _ _ _ _ _ large_in rfl (by decide) hb
  refine ⟨b, hb, (gigabyte_heap hb).tables_low hspace,
    kernel_space large_in rfl (by decide) (fun st hst call hcall => ?_) hb⟩
  obtain ⟨st', hst', hbare⟩ := @TellsMap.init (fun _ => 0) _ _ gigabyte_tells
  obtain rfl := Option.some.inj (hst.symm.trans hst')
  rw [hbare.init_pages_eq] at hcall
  obtain ⟨i, hi, rfl⟩ := List.mem_map.mp hcall
  rw [List.mem_range] at hi
  dsimp only
  omega

end os_dev.boot
