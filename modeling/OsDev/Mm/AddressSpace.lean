import OsDev.Mm.MapPage

open little_endian linked_tree

namespace os_dev.vmm

variable {σ : Type} {alloc : σ → ℕ × σ} {s : Vm σ} {root : ℕ}

/-- Where the linker puts the boot page tables: at a page boundary in the first 4 GB,
    which 32-bit code can address. -/
structure TableSpace where
  pml4_table : ℕ
  aligned : 4096 ∣ pml4_table
  below : pml4_table + 6 * 4096 ≤ 2 ^ 32

/-- The boot code writes nothing below its tables. -/
theorem boot_tables_below (mem : ℕ → UInt8) {pml4_table i : ℕ} (h : i < pml4_table) :
    boot_tables mem pml4_table i = mem i := by
  simp only [boot_tables]
  rw [put64s_of_lt _ _ _ (by omega), put64s_of_lt _ _ _ (by omega), put64_of_outside (by omega), if_neg (by omega)]

theorem boot_page_eq {i : ℕ} (hi : i < 2048) : boot_page i = 128 * (16384 * i + 1) + 3 := by
  have hlow : 0x200000 * i % 2 ^ 32 = 2 ^ 8 * (8192 * i) := by omega
  rw [boot_page, hlow, ← Nat.two_pow_add_eq_or_of_lt (show 0x83 < 2 ^ 8 by decide)]
  omega

theorem boot_pml4 (mem : ℕ → UInt8) (hroot : root + 6 ≤ 2 ^ 20) (i : Fin 512) :
    entries (boot_tables mem (4096 * root)) root i = if i = 0 then 4096 * (root + 1) + 3 else 0 := by
  have hi := i.isLt
  simp only [entries, boot_tables]
  rw [le64_put64s_below _ _ _ _ (by omega), le64_put64s_below _ _ _ _ (by omega)]
  split
  · rename_i hzero
    subst hzero
    rw [show 4096 * root + 4096 ||| 0x3 = 4096 * (root + 1) + 3 from or_flags (root + 1)]
    exact le64_put64_same (by omega)
  · rename_i hzero
    rw [Fin.ext_iff, Fin.val_zero] at hzero
    rw [le64_put64_of_disjoint (by omega)]
    exact le64_of_zero fun k hk => if_pos (by omega)

theorem boot_pdpt (mem : ℕ → UInt8) (hroot : root + 6 ≤ 2 ^ 20) (i : Fin 512) :
    entries (boot_tables mem (4096 * root)) (root + 1) i = if i.val < 4 then 4096 * (root + 2 + i) + 3 else 0 := by
  have hi := i.isLt
  have hflags : ∀ k, 4096 * root + 4096 + 4096 + 4096 * k ||| 0x3 = 4096 * (root + 2 + k) + 3 := by
    intro k
    rw [show 4096 * root + 4096 + 4096 + 4096 * k = 4096 * (root + 2 + k) by omega]
    exact or_flags (root + 2 + k)
  simp only [entries, boot_tables, hflags]
  rw [le64_put64s_below _ _ _ _ (by omega), show 4096 * (root + 1) = 4096 * root + 4096 by omega,
    le64_put64s _ _ (fun k => 4096 * (root + 2 + k) + 3) (fun k hk => by omega)]
  refine if_congr Iff.rfl rfl ?_
  rw [le64_put64_of_disjoint (by omega)]
  exact le64_of_zero fun k hk => if_pos (by omega)

theorem boot_pd (mem : ℕ → UInt8) (root : ℕ) {k : ℕ} (hk : k < 4) (i : Fin 512) :
    entries (boot_tables mem (4096 * root)) (root + 2 + k) i = 128 * (16384 * (512 * k + i) + 1) + 3 := by
  have hi := i.isLt
  simp only [entries, boot_tables]
  rw [show 4096 * (root + 2 + k) + 8 * i.val = 4096 * root + 4096 + 4096 + 8 * (512 * k + i) by omega,
    le64_put64s _ _ boot_page (fun j hj => by rw [boot_page_eq hj]; omega), if_pos (by omega), boot_page_eq (by omega)]

/-- The boot tables are the PML4, the PDPT below its first entry and the four page
    directories below the first four of that. -/
theorem boot_follow (mem : ℕ → UInt8) (hroot : root + 6 ≤ 2 ^ 20) {p : List (Fin 512)} {t : ℕ}
    (h : follow (child (entries (boot_tables mem (4096 * root)))) root p = some t) :
    (p = [] ∧ t = root) ∨ (p = [0] ∧ t = root + 1) ∨ ∃ k : Fin 512, k.val < 4 ∧ p = [0, k] ∧ t = root + 2 + k := by
  induction p using List.reverseRecOn generalizing t with
  | nil => exact .inl ⟨rfl, (Option.some.inj h).symm⟩
  | append_singleton q j ih =>
    obtain ⟨u, hu, hchild⟩ := follow_snoc_eq_some.mp h
    obtain ⟨hpresent, hhuge, hframe⟩ := child_eq_some.mp hchild
    obtain ⟨rfl, rfl⟩ | ⟨rfl, rfl⟩ | ⟨k, hk, rfl, rfl⟩ := ih hu
    · rw [boot_pml4 mem hroot] at hpresent hframe
      split at hpresent
      · rename_i hj
        rw [if_pos hj, frame_of_add _ (by omega)] at hframe
        exact .inr (.inl ⟨by rw [hj]; rfl, hframe.symm⟩)
      · exact absurd hpresent not_present_zero
    · rw [boot_pdpt mem hroot] at hpresent hframe
      split at hpresent
      · rename_i hj
        rw [if_pos hj, frame_of_add _ (by omega)] at hframe
        exact .inr (.inr ⟨j, hj, rfl, hframe.symm⟩)
      · exact absurd hpresent not_present_zero
    · rw [boot_pd mem root hk, huge_iff] at hhuge
      omega

/-- A present entry of the boot tables points to a table, or is a 2 MB page of a page
    directory. -/
theorem boot_entry (mem : ℕ → UInt8) (hroot : root + 6 ≤ 2 ^ 20) {p : List (Fin 512)} {t : ℕ}
    (h : follow (child (entries (boot_tables mem (4096 * root)))) root p = some t) {i : Fin 512}
    (hpresent : Present (entries (boot_tables mem (4096 * root)) t i)) :
    (∃ frame < 2 ^ 40, entries (boot_tables mem (4096 * root)) t i = 4096 * frame + 3) ∨
      p.length = 2 ∧ ∃ k < 2048, entries (boot_tables mem (4096 * root)) t i = 128 * (16384 * k + 1) + 3 := by
  have hi := i.isLt
  obtain ⟨rfl, rfl⟩ | ⟨rfl, rfl⟩ | ⟨k, hk, rfl, rfl⟩ := boot_follow mem hroot h
  · rw [boot_pml4 mem hroot] at hpresent ⊢
    split at hpresent
    · exact .inl ⟨t + 1, by omega, if_pos ‹_›⟩
    · exact absurd hpresent not_present_zero
  · rw [boot_pdpt mem hroot] at hpresent ⊢
    split at hpresent
    · exact .inl ⟨root + 2 + i, by omega, if_pos ‹_›⟩
    · exact absurd hpresent not_present_zero
  · exact .inr ⟨rfl, 512 * k + i, by omega, boot_pd mem root hk i⟩

theorem boot_tree (mem : ℕ → UInt8) (hroot : root + 6 ≤ 2 ^ 20) :
    TableTree (entries (boot_tables mem (4096 * root))) root := by
  refine ⟨fun p q t hp hq hpt hqt => ?_, fun p t i hp ht hpresent => ?_, fun p t i hp ht hpresent => ?_,
    fun p t i hp ht hpresent => ?_⟩
  · obtain ⟨rfl, hp⟩ | ⟨rfl, hp⟩ | ⟨k, hk, rfl, hp⟩ := boot_follow mem hroot hpt <;>
    obtain ⟨rfl, hq⟩ | ⟨rfl, hq⟩ | ⟨k', hk', rfl, hq⟩ := boot_follow mem hroot hqt
    all_goals first | rfl | omega | skip
    rw [show k = k' from Fin.ext (by omega)]
  · obtain ⟨frame, hframe, heq⟩ | ⟨-, k, hk, heq⟩ := boot_entry mem hroot ht hpresent
    · rw [heq]
      exact table_entry_writable frame
    · rw [heq, writable_iff]
      omega
  · obtain ⟨frame, hframe, heq⟩ | ⟨hlen, -⟩ := boot_entry mem hroot ht hpresent
    · rw [heq]
      exact table_entry_not_huge frame
    · omega
  · obtain ⟨frame, hframe, heq⟩ | ⟨-, k, hk, heq⟩ := boot_entry mem hroot ht hpresent
    · omega
    · omega

/-- The calls of a run, as pairs of a virtual and a physical address. -/
def vmm_run (alloc : σ → ℕ × σ) (pml4_table : ℕ) (s : Vm σ) (calls : List (ℕ × ℕ)) : Vm σ :=
  calls.foldl (fun s call => vmm_map_page alloc pml4_table s call.1 call.2) s

/-- The addresses of a call have 48 bits, and its requests for frames are answered by
    0 or by frames that no table uses. -/
structure GoodCall (alloc : σ → ℕ × σ) (pml4_table : ℕ) (s : Vm σ) (call : ℕ × ℕ) : Prop where
  va : call.1 < 2 ^ 48
  pa : call.2 < 2 ^ 48
  answers : ∀ r ∈ requests alloc pml4_table s call.1, Answers alloc pml4_table r

def GoodRun (alloc : σ → ℕ × σ) (pml4_table : ℕ) : Vm σ → List (ℕ × ℕ) → Prop
  | _, [] => True
  | s, call :: calls =>
    GoodCall alloc pml4_table s call ∧ GoodRun alloc pml4_table (vmm_map_page alloc pml4_table s call.1 call.2) calls

theorem GoodRun.tree {calls : List (ℕ × ℕ)} (h : TableTree (entries s.mem) root)
    (hrun : GoodRun alloc (4096 * root) s calls) :
    TableTree (entries (vmm_run alloc (4096 * root) s calls).mem) root := by
  induction calls generalizing s with
  | nil => exact h
  | cons call calls ih =>
    obtain ⟨hcall, hrest⟩ := hrun
    exact ih (vmm_map_page_cases h hcall.va hcall.pa hcall.answers).1 hrest

theorem GoodRun.append {calls calls' : List (ℕ × ℕ)} {pml4_table : ℕ} (h : GoodRun alloc pml4_table s (calls ++ calls')) :
    GoodRun alloc pml4_table s calls ∧ GoodRun alloc pml4_table (vmm_run alloc pml4_table s calls) calls' := by
  induction calls generalizing s with
  | nil => exact ⟨trivial, h⟩
  | cons call calls ih => exact ⟨⟨h.1, (ih h.2).1⟩, (ih h.2).2⟩

/-- The address is translated by a 2 MB page. -/
def UnderHugePage (mem : ℕ → UInt8) (pml4_table va : ℕ) : Prop := UnderHuge (entries mem) (pml4_table / 4096) va

/-- In every run from the boot tables, a call maps its page and leaves all others
    alone, or is refused and leaves the whole address space alone. -/
theorem vmm_map_page_updates (space : TableSpace) (mem : ℕ → UInt8) (alloc : σ → ℕ × σ) (frames : σ)
    (calls : List (ℕ × ℕ)) (va pa : ℕ)
    (hrun : GoodRun alloc space.pml4_table ⟨boot_tables mem space.pml4_table, frames⟩ (calls ++ [(va, pa)])) :
    let s := vmm_run alloc space.pml4_table ⟨boot_tables mem space.pml4_table, frames⟩ calls
    let s' := vmm_map_page alloc space.pml4_table s va pa
    (¬ UnderHugePage s.mem space.pml4_table va → (∀ r ∈ requests alloc space.pml4_table s va, ¬ Fails alloc r) →
        Maps s.mem s'.mem space.pml4_table va pa) ∧
      ((UnderHugePage s.mem space.pml4_table va ∨ ∃ r ∈ requests alloc space.pml4_table s va, Fails alloc r) →
        SameSpace s.mem s'.mem space.pml4_table) := by
  obtain ⟨root, hroot⟩ := space.aligned
  have hbelow := space.below
  rw [hroot] at hrun hbelow ⊢
  obtain ⟨hprior, hcall, -⟩ := hrun.append
  have htree := hprior.tree (boot_tree mem (by omega))
  obtain ⟨-, hcases⟩ := vmm_map_page_cases htree hcall.va hcall.pa hcall.answers
  simp only [UnderHugePage, Nat.mul_div_cancel_left root (show 0 < 4096 by decide)]
  obtain ⟨hnot, hgranted, hmaps⟩ | ⟨hrefused, hsame⟩ := hcases
  · refine ⟨fun _ _ => hmaps, fun hrefused => ?_⟩
    obtain hhuge | ⟨r, hr, hfail⟩ := hrefused
    · exact absurd hhuge hnot
    · exact absurd hfail (hgranted r hr)
  · refine ⟨fun hnot hgranted => ?_, fun _ => hsame⟩
    obtain hhuge | ⟨r, hr, hfail⟩ := hrefused
    · exact absurd hhuge hnot
    · exact absurd hfail (hgranted r hr)

/-- Tables at 1 MB. -/
def low_tables : TableSpace := ⟨4096 * 256, by decide, by decide⟩

/-- An allocator that gives out the frames of a list. -/
def from_list : List ℕ → ℕ × List ℕ
  | [] => (0, [])
  | addr :: rest => (addr, rest)

/-- After boot, with two frames to give out. -/
def two_frames : Vm (List ℕ) := ⟨boot_tables (fun _ => 0) (4096 * 256), [4096 * 1024, 4096 * 1025]⟩

theorem two_frames_tree : TableTree (entries two_frames.mem) 256 := @boot_tree 256 (fun _ => 0) (by decide)

theorem two_frames_follow {p : List (Fin 512)} {t : ℕ} (h : follow (child (entries two_frames.mem)) 256 p = some t) :
    (p = [] ∧ t = 256) ∨ (p = [0] ∧ t = 257) ∨ ∃ k : Fin 512, k.val < 4 ∧ p = [0, k] ∧ t = 258 + k :=
  @boot_follow 256 (fun _ => 0) (by decide) p t h

theorem two_frames_pml4 : entries two_frames.mem 256 0 = 4096 * 257 + 3 := @boot_pml4 256 (fun _ => 0) (by decide) 0

theorem two_frames_pdpt : entries two_frames.mem 257 8 = 0 := @boot_pdpt 256 (fun _ => 0) (by decide) 8

theorem two_frames_site : LinkSite (entries two_frames.mem) 256 [0] 257 8 1024 := by
  refine ⟨by decide, ?_, ?_, fun p _ h => ?_, by decide⟩
  · have hchild : child (entries two_frames.mem) 256 0 = some 257 := by
      rw [child_eq_some, two_frames_pml4]
      decide
    rw [← List.nil_append [0], follow_snoc, follow_nil]
    exact hchild
  · rw [two_frames_pdpt]
    exact not_present_zero
  · obtain ⟨-, ht⟩ | ⟨-, ht⟩ | ⟨k, hk, -, ht⟩ := two_frames_follow h <;> omega

/-- The memory once the first of them is linked as the page directory of 8 GB. -/
def one_linked : Vm (List ℕ) :=
  ⟨put64 (zero_table two_frames.mem (4096 * 1024)) (4096 * 257 + 8 * (8 : Fin 512)) (4096 * 1024 + 3), [4096 * 1025]⟩

theorem one_linked_entries : entries one_linked.mem = link_table (entries two_frames.mem) 257 8 1024 := by
  rw [one_linked, entries_put64 _ _ _ (by decide), entries_zero_table, link_table]

/-- Mapping the page at 8 GB asks for the page directory, then for the page table. -/
theorem two_frames_requests : requests from_list (4096 * 256) two_frames 0x200000000 = [two_frames, one_linked] := by
  have hfirst : le64 two_frames.mem (4096 * 256 + 8 * index 3 0x200000000) = 4096 * 257 + 3 := two_frames_pml4
  have hpdpt : pdpt_of from_list (4096 * 256) two_frames 0x200000000 = (some (4096 * 257), two_frames) := by
    rw [pdpt_of, table_at, hfirst, if_pos (table_entry_present 257)]
  have hempty : le64 two_frames.mem (4096 * 257 + 8 * index 2 0x200000000) = 0 := two_frames_pdpt
  have halloc : from_list two_frames.frames = (4096 * 1024, [4096 * 1025]) := rfl
  have hpd : pd_of from_list (4096 * 256) two_frames 0x200000000 = (some (4096 * 1024), one_linked) := by
    rw [pd_of, hpdpt]
    simp only [table_at, hempty, if_neg not_present_zero, halloc, or_flags]
    rw [if_neg (by decide), le64_put64_same (by decide)]
    rfl
  have hzero : le64 one_linked.mem (4096 * 1024 + 8 * index 1 0x200000000) = 0 := by
    change entries one_linked.mem 1024 0 = 0
    rw [one_linked_entries, link_table, set_entry_other _ _ (by decide), clear_table, Function.update_self]
  rw [requests, upper_requests, hpd, hpdpt]
  simp only [asks, hfirst, hempty, hzero, if_pos (table_entry_present 257), if_neg not_present_zero]
  rfl

theorem two_frames_good : GoodRun from_list low_tables.pml4_table two_frames [(0x200000000, 0x5000)] := by
  refine ⟨⟨by decide, by decide, fun r hr => ?_⟩, trivial⟩
  rw [show requests from_list low_tables.pml4_table two_frames 0x200000000 = _ from two_frames_requests] at hr
  simp only [List.mem_cons, List.not_mem_nil, or_false] at hr
  obtain rfl | rfl := hr
  · exact .inr ⟨⟨1024, rfl⟩, by decide, two_frames_site.unused⟩
  · refine .inr ⟨⟨1025, rfl⟩, by decide, fun p hp h => ?_⟩
    change follow (child (entries one_linked.mem)) 256 p = some 1025 at h
    rw [one_linked_entries, two_frames_site.follow two_frames_tree hp] at h
    obtain h | ⟨-, h⟩ := h
    · obtain ⟨-, ht⟩ | ⟨-, ht⟩ | ⟨k, hk, -, ht⟩ := two_frames_follow h <;> omega
    · omega

theorem vmm_map_page_updates_heap :
    GoodRun from_list low_tables.pml4_table two_frames [(0x200000000, 0x5000)] ∧
      Maps two_frames.mem (vmm_map_page from_list low_tables.pml4_table two_frames 0x200000000 0x5000).mem
        low_tables.pml4_table 0x200000000 0x5000 := by
  refine ⟨two_frames_good, (vmm_map_page_updates low_tables (fun _ => 0) from_list two_frames.frames []
    0x200000000 0x5000 two_frames_good).1 ?_ fun r hr => ?_⟩
  · rintro ⟨pd, hpd, -⟩
    change follow (child (entries two_frames.mem)) 256 (upper 0x200000000 2) = some pd at hpd
    rw [show upper 0x200000000 2 = [0, 8] from rfl] at hpd
    obtain ⟨hp, -⟩ | ⟨hp, -⟩ | ⟨k, hk, hp, -⟩ := two_frames_follow hpd
    · cases hp
    · cases hp
    · simp only [List.cons.injEq, and_true, true_and] at hp
      subst hp
      exact absurd hk (by decide)
  · change r ∈ requests from_list (4096 * 256) two_frames 0x200000000 at hr
    rw [two_frames_requests] at hr
    simp only [List.mem_cons, List.not_mem_nil, or_false] at hr
    obtain rfl | rfl := hr
    · exact Nat.succ_ne_zero _
    · exact Nat.succ_ne_zero _

end os_dev.vmm
