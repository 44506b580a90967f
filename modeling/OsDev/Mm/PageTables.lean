import OsDev.Mm.Vmm
import OsDev.Lib.LinkedTree

open little_endian linked_tree

namespace os_dev.vmm

variable {ent ent' : Entries} {root table frame : ℕ} {i j : Fin 512} {va : ℕ}

theorem and_pow_ne_zero (entry k : ℕ) : entry &&& 2 ^ k ≠ 0 ↔ entry / 2 ^ k % 2 = 1 := by
  rw [Nat.and_two_pow, Nat.testBit_eq_decide_div_mod_eq]
  by_cases h : entry / 2 ^ k % 2 = 1
  · simp [h]
  · simp [h]

theorem present_iff (entry : ℕ) : Present entry ↔ entry % 2 = 1 := by
  have h := and_pow_ne_zero entry 0
  rwa [Nat.pow_zero, Nat.div_one] at h

theorem writable_iff (entry : ℕ) : Writable entry ↔ entry / 2 % 2 = 1 := and_pow_ne_zero entry 1

theorem huge_iff (entry : ℕ) : Huge entry ↔ entry / 128 % 2 = 1 := and_pow_ne_zero entry 7

/-- The flags go into the low bits of a page address. -/
theorem or_flags (frame : ℕ) : 4096 * frame ||| (VMM_PRESENT ||| VMM_WRITABLE) = 4096 * frame + 3 := by
  have h := Nat.two_pow_add_eq_or_of_lt (show 3 < 2 ^ 12 by decide) frame
  exact h.symm

/-- Store one entry of a table. -/
def set_entry (ent : Entries) (table : ℕ) (i : Fin 512) (entry : ℕ) : Entries :=
  Function.update ent table (Function.update (ent table) i entry)

/-- A frame of zeros. -/
def clear_table (ent : Entries) (frame : ℕ) : Entries := Function.update ent frame fun _ => 0

theorem set_entry_same (ent : Entries) (table : ℕ) (i : Fin 512) (entry : ℕ) :
    set_entry ent table i entry table i = entry := by
  rw [set_entry, Function.update_self, Function.update_self]

theorem set_entry_other (ent : Entries) (entry : ℕ) (h : ¬ (frame = table ∧ j = i)) :
    set_entry ent table i entry frame j = ent frame j := by
  unfold set_entry
  by_cases hframe : frame = table
  · subst hframe
    rw [Function.update_self, Function.update_of_ne fun hj => h ⟨rfl, hj⟩]
  · rw [Function.update_of_ne hframe]

theorem entries_put64 (mem : ℕ → UInt8) (table : ℕ) (i : Fin 512) {entry : ℕ} (hentry : entry < 2 ^ 64) :
    entries (put64 mem (4096 * table + 8 * i) entry) = set_entry (entries mem) table i entry := by
  funext frame j
  have hi := i.isLt
  have hj := j.isLt
  by_cases hsame : frame = table ∧ j = i
  · obtain ⟨rfl, rfl⟩ := hsame
    rw [set_entry_same]
    exact le64_put64_same hentry
  · rw [set_entry_other _ _ hsame]
    refine le64_put64_of_disjoint ?_
    rw [Fin.ext_iff] at hsame
    omega

theorem entries_zero_table (mem : ℕ → UInt8) (frame : ℕ) :
    entries (zero_table mem (4096 * frame)) = clear_table (entries mem) frame := by
  funext table j
  have hj := j.isLt
  simp only [entries, clear_table]
  by_cases htable : table = frame
  · subst htable
    rw [Function.update_self]
    exact le64_of_zero fun k hk => if_pos (by omega)
  · rw [Function.update_of_ne htable]
    refine le64_congr fun k hk => if_neg ?_
    omega

/-- The table under an entry, at the levels above the page tables. -/
def child (ent : Entries) (table : ℕ) (i : Fin 512) : Option ℕ :=
  if Present (ent table i) ∧ ¬ Huge (ent table i) then some (frame_of (ent table i)) else none

/-- The page tables are a tree: no table is reached in two ways. Every present entry
    above the page tables is writable, and only the page directories map huge pages. -/
structure TableTree (ent : Entries) (root : ℕ) : Prop where
  unshared : Unshared (child ent) root 3
  writable : ∀ p t i, p.length < 3 → follow (child ent) root p = some t → Present (ent t i) → Writable (ent t i)
  huge : ∀ p t i, p.length < 2 → follow (child ent) root p = some t → Present (ent t i) → ¬ Huge (ent t i)
  bounded : ∀ p t i, p.length < 3 → follow (child ent) root p = some t → Present (ent t i) → ent t i < 2 ^ 52

/-- A frame that is not used by any table. -/
def Unused (ent : Entries) (root frame : ℕ) : Prop := Fresh (child ent) root 3 frame

/-- Hang a zeroed table into an entry. -/
def link_table (ent : Entries) (table : ℕ) (i : Fin 512) (frame : ℕ) : Entries :=
  set_entry (clear_table ent frame) table i (4096 * frame + 3)

theorem frame_of_add (frame : ℕ) (hframe : frame < 2 ^ 40) : frame_of (4096 * frame + 3) = frame := by
  unfold frame_of
  omega

theorem table_entry_present (frame : ℕ) : Present (4096 * frame + 3) := by
  rw [present_iff]
  omega

theorem table_entry_writable (frame : ℕ) : Writable (4096 * frame + 3) := by
  rw [writable_iff]
  omega

theorem table_entry_not_huge (frame : ℕ) : ¬ Huge (4096 * frame + 3) := by
  rw [huge_iff]
  omega

theorem not_present_zero : ¬ Present 0 := by decide

theorem child_eq_some : child ent table i = some frame ↔
    Present (ent table i) ∧ ¬ Huge (ent table i) ∧ frame_of (ent table i) = frame := by
  unfold child
  split
  · rename_i h
    simp [h]
  · rename_i h
    simp only [reduceCtorEq, false_iff]
    exact fun h' => h ⟨h'.1, h'.2.1⟩

/-- The whole tree only depends on the entries of its tables. -/
theorem child_congr (h : ent' table = ent table) : child ent' table = child ent table := by
  funext i
  simp only [child, h]

theorem clear_table_other (ent : Entries) (h : table ≠ frame) : clear_table ent frame table = ent table :=
  Function.update_of_ne h _ _

section link

variable {path : List (Fin 512)}

theorem child_link_table (ent : Entries) (table : ℕ) (i : Fin 512) (hframe : frame < 2 ^ 40) :
    child (link_table ent table i frame) = link (child (clear_table ent frame)) table i frame := by
  funext u j
  by_cases hsame : u = table ∧ j = i
  · obtain ⟨rfl, rfl⟩ := hsame
    rw [link_same, child_eq_some, link_table, set_entry_same]
    exact ⟨table_entry_present frame, table_entry_not_huge frame, frame_of_add frame hframe⟩
  · rw [link_other _ _ hsame]
    simp only [child, link_table, set_entry_other _ _ hsame]

theorem follow_clear_table (hunused : Unused ent root frame) {p : List (Fin 512)} (hp : p.length ≤ 3) :
    follow (child (clear_table ent frame)) root p = follow (child ent) root p := by
  refine follow_congr (fun q t hq ht => ?_) hp
  refine child_congr (clear_table_other ent ?_)
  rintro rfl
  exact hunused q (by omega) ht

/-- An empty entry of a table above the page tables, and an unused frame to link
    into it. -/
structure LinkSite (ent : Entries) (root : ℕ) (path : List (Fin 512)) (table : ℕ) (i : Fin 512) (frame : ℕ) :
    Prop where
  length : path.length < 3
  reached : follow (child ent) root path = some table
  empty : ¬ Present (ent table i)
  unused : Unused ent root frame
  bound : frame < 2 ^ 40

theorem LinkSite.ne (site : LinkSite ent root path table i frame) : table ≠ frame := by
  rintro rfl
  exact site.unused path (by have := site.length; omega) site.reached

/-- The tree with the new frame zeroed, but not linked yet. -/
theorem LinkSite.cleared (h : TableTree ent root) (site : LinkSite ent root path table i frame) :
    Unshared (child (clear_table ent frame)) root 3 ∧
      follow (child (clear_table ent frame)) root path = some table ∧
      child (clear_table ent frame) table i = none ∧ Fresh (child (clear_table ent frame)) root 3 frame ∧
      ∀ j, child (clear_table ent frame) frame j = none := by
  have hlen := site.length
  refine ⟨fun p q t hp hq hpt hqt => ?_, ?_, if_neg fun hchild => site.empty ?_, fun q hq => ?_,
    fun j => if_neg fun hchild => not_present_zero ?_⟩
  · rw [follow_clear_table site.unused hp] at hpt
    rw [follow_clear_table site.unused hq] at hqt
    exact h.unshared p q t hp hq hpt hqt
  · rw [follow_clear_table site.unused (by omega)]
    exact site.reached
  · rw [← clear_table_other ent site.ne]
    exact hchild.1
  · rw [follow_clear_table site.unused hq]
    exact site.unused q hq
  · simpa only [clear_table, Function.update_self] using hchild.1

/-- Linking an unused frame adds one table to the tree. -/
theorem LinkSite.follow (h : TableTree ent root) (site : LinkSite ent root path table i frame) {p : List (Fin 512)}
    (hp : p.length ≤ 3) {u : ℕ} :
    linked_tree.follow (child (link_table ent table i frame)) root p = some u ↔
      linked_tree.follow (child ent) root p = some u ∨ p = path ++ [i] ∧ u = frame := by
  obtain ⟨hunshared, htable, hempty, hfresh, hchildless⟩ := site.cleared h
  rw [child_link_table ent table i site.bound,
    follow_link hunshared (Nat.le_of_lt site.length) htable hempty hfresh hchildless hp,
    follow_clear_table site.unused hp]

/-- The entries of the tables after linking. -/
theorem LinkSite.entry_cases (site : LinkSite ent root path table i frame) {u : ℕ} (j : Fin 512) :
    (u = table ∧ j = i ∧ link_table ent table i frame u j = 4096 * frame + 3) ∨
      (u = frame ∧ link_table ent table i frame u j = 0) ∨
      u ≠ frame ∧ ¬ (u = table ∧ j = i) ∧ link_table ent table i frame u j = ent u j := by
  unfold link_table
  by_cases hsame : u = table ∧ j = i
  · obtain ⟨rfl, rfl⟩ := hsame
    exact .inl ⟨rfl, rfl, set_entry_same ..⟩
  · rw [set_entry_other _ _ hsame]
    by_cases hframe : u = frame
    · subst hframe
      refine .inr (.inl ⟨rfl, ?_⟩)
      rw [clear_table, Function.update_self]
    · exact .inr (.inr ⟨hframe, hsame, by rw [clear_table_other ent hframe]⟩)

/-- What holds of the present entries of all tables above a level still does after
    linking, if it holds of the new entry. -/
theorem LinkSite.present (h : TableTree ent root) (site : LinkSite ent root path table i frame) {level : ℕ}
    (hlevel : level ≤ 3) {P : ℕ → Prop} (hnew : P (4096 * frame + 3))
    (hold : ∀ p t j, p.length < level → linked_tree.follow (child ent) root p = some t → Present (ent t j) → P (ent t j))
    (p : List (Fin 512)) (t : ℕ) (j : Fin 512) (hp : p.length < level)
    (ht : linked_tree.follow (child (link_table ent table i frame)) root p = some t)
    (hpresent : Present (link_table ent table i frame t j)) : P (link_table ent table i frame t j) := by
  obtain ⟨-, -, heq⟩ | ⟨-, heq⟩ | ⟨hne, -, heq⟩ := site.entry_cases (u := t) j
  · exact heq ▸ hnew
  · rw [heq] at hpresent
    exact absurd hpresent not_present_zero
  · rw [heq] at hpresent ⊢
    obtain ht | ⟨-, rfl⟩ := (site.follow h (by omega)).mp ht
    · exact hold p t j hp ht hpresent
    · exact absurd rfl hne

theorem LinkSite.tree (h : TableTree ent root) (site : LinkSite ent root path table i frame) :
    TableTree (link_table ent table i frame) root := by
  have hbound := site.bound
  obtain ⟨hunshared, htable, hempty, hfresh, hchildless⟩ := site.cleared h
  refine ⟨?_, site.present h le_rfl (table_entry_writable frame) h.writable,
    site.present h (Nat.le_succ 2) (P := fun e => ¬ Huge e) (table_entry_not_huge frame) h.huge, ?_⟩
  · rw [child_link_table ent table i site.bound]
    exact hunshared.link (Nat.le_of_lt site.length) htable hempty hfresh hchildless
  · exact site.present h le_rfl (P := (· < 2 ^ 52)) (by omega) h.bounded

/-- A zeroed table translates nothing. -/
theorem walk_from_zero {level : ℕ} {w : Bool} (hzero : ∀ j, ent table j = 0) :
    walk_from ent va level table w = none := by
  cases level with
  | zero => simp only [walk_from, hzero, if_neg not_present_zero]
  | succ level => simp only [walk_from, hzero, if_pos not_present_zero]

/-- The new table is empty, so no translation changes. -/
theorem LinkSite.walk_from (h : TableTree ent root) (site : LinkSite ent root path table i frame) (va : ℕ) {level : ℕ}
    {p : List (Fin 512)} {t : ℕ} (hp : p.length + level = 3) (ht : linked_tree.follow (child ent) root p = some t)
    (w : Bool) :
    vmm.walk_from (link_table ent table i frame) va level t w = vmm.walk_from ent va level t w := by
  have hlen := site.length
  have hpath : t = table → p = path := by
    rintro rfl
    exact h.unshared p path t (by omega) (by omega) ht site.reached
  induction level generalizing p t w with
  | zero =>
    obtain ⟨htable, -⟩ | ⟨hframe, -⟩ | ⟨-, -, heq⟩ := site.entry_cases (u := t) (index 0 va)
    · have := congrArg List.length (hpath htable)
      omega
    · exact absurd (hframe ▸ ht) (site.unused p (by omega))
    · simp only [vmm.walk_from, heq]
  | succ level ih =>
    obtain ⟨rfl, hi, heq⟩ | ⟨hframe, -⟩ | ⟨-, -, heq⟩ := site.entry_cases (u := t) (index (level + 1) va)
    · -- the entry was empty, and now leads to an empty table
      have hempty : ¬ Present (ent t (index (level + 1) va)) := hi ▸ site.empty
      have hzero : ∀ j, link_table ent t i frame frame j = 0 := by
        intro j
        obtain ⟨hframe, -⟩ | ⟨-, hzero⟩ | ⟨hne, -⟩ := site.entry_cases (u := frame) j
        · exact absurd hframe.symm site.ne
        · exact hzero
        · exact absurd rfl hne
      simp only [vmm.walk_from, heq, if_neg (not_not_intro (table_entry_present frame)),
        if_neg (table_entry_not_huge frame), frame_of_add frame site.bound]
      rw [if_pos hempty]
      exact walk_from_zero hzero
    · exact absurd (hframe ▸ ht) (site.unused p (by omega))
    · simp only [vmm.walk_from, heq]
      split
      · rfl
      · split
        · rfl
        · rename_i hpresent hhuge
          have hchild : child ent t (index (level + 1) va) = some (frame_of (ent t (index (level + 1) va))) :=
            child_eq_some.mpr ⟨not_not.mp hpresent, hhuge, rfl⟩
          have hfollow := follow_snoc_eq_some.mpr ⟨t, ht, hchild⟩
          refine ih ?_ hfollow _ ?_
          · rw [List.length_append, List.length_singleton]
            omega
          · intro htable
            exact h.unshared _ path _ (by rw [List.length_append, List.length_singleton]; omega) (by omega) hfollow
              (htable ▸ site.reached)

end link

/-- The indices of the first `n` tables on the way to an address. -/
def upper (va : ℕ) : ℕ → List (Fin 512)
  | 0 => []
  | n + 1 => upper va n ++ [index (3 - n) va]

@[simp] theorem upper_length (va n : ℕ) : (upper va n).length = n := by
  induction n with
  | zero => rfl
  | succ n ih => rw [upper, List.length_append, ih, List.length_singleton]

/-- Two addresses take the same way down to the page exactly if they are in one page. -/
theorem upper_eq_iff {va va' : ℕ} (hva : va < 2 ^ 48) (hva' : va' < 2 ^ 48) :
    upper va 3 = upper va' 3 ∧ index 0 va = index 0 va' ↔ va / 4096 = va' / 4096 := by
  simp only [upper, index, List.nil_append, List.cons_append, List.cons.injEq, Fin.mk.injEq, and_true]
  omega

/-- The address lies under a 2 MB page. -/
def UnderHuge (ent : Entries) (root va : ℕ) : Prop :=
  ∃ pd, follow (child ent) root (upper va 2) = some pd ∧ Present (ent pd (index 1 va)) ∧ Huge (ent pd (index 1 va))

theorem LinkSite.underHuge_iff {path : List (Fin 512)} (h : TableTree ent root)
    (site : LinkSite ent root path table i frame) (va : ℕ) :
    UnderHuge (link_table ent table i frame) root va ↔ UnderHuge ent root va := by
  have hlen : (upper va 2).length ≤ 3 := by simp
  constructor
  · rintro ⟨pd, hpd, hpresent, hhuge⟩
    obtain ⟨-, -, heq⟩ | ⟨-, heq⟩ | ⟨hne, -, heq⟩ := site.entry_cases (u := pd) (index 1 va)
    · rw [heq] at hhuge
      exact absurd hhuge (table_entry_not_huge frame)
    · rw [heq] at hpresent
      exact absurd hpresent not_present_zero
    · rw [heq] at hpresent hhuge
      obtain hpd | ⟨-, rfl⟩ := (site.follow h hlen).mp hpd
      · exact ⟨pd, hpd, hpresent, hhuge⟩
      · exact absurd rfl hne
  · rintro ⟨pd, hpd, hpresent, hhuge⟩
    refine ⟨pd, (site.follow h hlen).mpr (.inl hpd), ?_⟩
    obtain ⟨rfl, rfl, -⟩ | ⟨rfl, -⟩ | ⟨-, -, heq⟩ := site.entry_cases (u := pd) (index 1 va)
    · exact absurd hpresent site.empty
    · exact absurd hpd (site.unused _ hlen)
    · rw [heq]
      exact ⟨hpresent, hhuge⟩

/-- Where the tables lead to a page table, the walk is decided by its entry. -/
theorem TableTree.walk_from (h : TableTree ent root) {pt : ℕ} (hpt : follow (child ent) root (upper va 3) = some pt)
    {n level t : ℕ} (hn : n + level = 3) (ht : follow (child ent) root (upper va n) = some t) :
    vmm.walk_from ent va level t true = vmm.walk_from ent va 0 pt true := by
  induction level generalizing n t with
  | zero =>
    obtain rfl : n = 3 := by omega
    rw [Option.some.inj (ht.symm.trans hpt)]
  | succ level ih =>
    -- the path goes on from here, so the entry leads to another table
    obtain ⟨t', ht', hchild⟩ : ∃ t', follow (child ent) root (upper va (n + 1)) = some t' ∧
        child ent t (index (level + 1) va) = some t' := by
      obtain ⟨rest, hrest⟩ : ∃ rest, upper va 3 = upper va (n + 1) ++ rest := by
        obtain rfl | rfl | rfl : n = 0 ∨ n = 1 ∨ n = 2 := by omega
        · exact ⟨[index 2 va, index 1 va], rfl⟩
        · exact ⟨[index 1 va], rfl⟩
        · exact ⟨[], rfl⟩
      rw [hrest, follow, List.foldlM_append] at hpt
      obtain ⟨t', ht', -⟩ := Option.bind_eq_some_iff.mp hpt
      obtain ⟨u, hu, hchild⟩ := follow_snoc_eq_some.mp ht'
      rw [show 3 - n = level + 1 by omega, Option.some.inj (hu.symm.trans ht)] at hchild
      exact ⟨t', ht', hchild⟩
    obtain ⟨hpresent, hhuge, hframe⟩ := child_eq_some.mp hchild
    have hwritable := h.writable _ t _ (by rw [upper_length]; omega) ht hpresent
    simp only [vmm.walk_from, not_not_intro hpresent, if_false, hhuge, hframe, hwritable, decide_true, Bool.and_true]
    exact ih (by omega) ht'

/-- Without a page table or a huge page there is no translation. -/
theorem TableTree.walk_none (h : TableTree ent root) (hflat : ¬ UnderHuge ent root va)
    (hnone : follow (child ent) root (upper va 3) = none) : vmm.walk_from ent va 3 root true = none := by
  -- from each level on, the walk ends at an entry that is not present
  suffices hlevel : ∀ level n t w, n + level = 3 → follow (child ent) root (upper va n) = some t →
      vmm.walk_from ent va level t w = none from
    hlevel 3 0 root true rfl rfl
  intro level
  induction level with
  | zero =>
    intro n t w hn ht
    obtain rfl : n = 3 := by omega
    rw [hnone] at ht
    cases ht
  | succ level ih =>
    intro n t w hn ht
    have hindex : 3 - n = level + 1 := by omega
    rw [vmm.walk_from]
    split
    · rfl
    · rename_i hpresent
      rw [not_not] at hpresent
      have hhuge : ¬ Huge (ent t (index (level + 1) va)) := by
        intro hhuge
        obtain rfl | hlt : n = 2 ∨ n < 2 := by omega
        · obtain rfl : level = 0 := by omega
          exact hflat ⟨t, ht, hpresent, hhuge⟩
        · exact h.huge _ t _ (by rwa [upper_length]) ht hpresent hhuge
      rw [if_neg hhuge]
      refine ih (n + 1) _ _ (by omega) (follow_snoc_eq_some.mpr ⟨t, ht, ?_⟩)
      rw [hindex]
      exact child_eq_some.mpr ⟨hpresent, hhuge, rfl⟩

section leaf

variable {path : List (Fin 512)} {pt : ℕ}

/-- The tables above are other tables than the page tables. -/
theorem ne_page_table (h : TableTree ent root) (hpath : path.length = 3) (hpt : follow (child ent) root path = some pt)
    {q : List (Fin 512)} {t : ℕ} (hq : q.length < 3) (ht : follow (child ent) root q = some t) : t ≠ pt := by
  rintro rfl
  rw [h.unshared q path t (by omega) (by omega) ht hpt] at hq
  omega

/-- A page table entry is no link of the tree. -/
theorem follow_set_leaf (h : TableTree ent root) (hpath : path.length = 3) (hpt : follow (child ent) root path = some pt)
    (i : Fin 512) (entry : ℕ) {p : List (Fin 512)} (hp : p.length ≤ 3) :
    follow (child (set_entry ent pt i entry)) root p = follow (child ent) root p := by
  refine follow_congr (fun q t hq ht => ?_) hp
  exact child_congr (Function.update_of_ne (ne_page_table h hpath hpt hq ht) _ _)

theorem set_leaf_tree (h : TableTree ent root) (hpath : path.length = 3) (hpt : follow (child ent) root path = some pt)
    (i : Fin 512) (entry : ℕ) : TableTree (set_entry ent pt i entry) root := by
  have hkeep : ∀ p t j, p.length < 3 → follow (child ent) root p = some t → set_entry ent pt i entry t j = ent t j := by
    intro p t j hp ht
    exact set_entry_other ent entry fun hsame => ne_page_table h hpath hpt hp ht hsame.1
  refine ⟨fun p q t hp hq hpt' hqt => ?_, fun p t j hp ht => ?_, fun p t j hp ht => ?_, fun p t j hp ht => ?_⟩
  · rw [follow_set_leaf h hpath hpt i entry hp] at hpt'
    rw [follow_set_leaf h hpath hpt i entry hq] at hqt
    exact h.unshared p q t hp hq hpt' hqt
  all_goals
    rw [follow_set_leaf h hpath hpt i entry (by omega)] at ht
    rw [hkeep p t j (by omega) ht]
  · exact h.writable p t j hp ht
  · exact h.huge p t j hp ht
  · exact h.bounded p t j hp ht

theorem underHuge_set_leaf (h : TableTree ent root) (hpath : path.length = 3)
    (hpt : follow (child ent) root path = some pt) (i : Fin 512) (entry va : ℕ) :
    UnderHuge (set_entry ent pt i entry) root va ↔ UnderHuge ent root va := by
  unfold UnderHuge
  rw [follow_set_leaf h hpath hpt i entry (by rw [upper_length]; decide)]
  refine exists_congr fun pd => and_congr_right fun hpd => ?_
  have hne := ne_page_table h hpath hpt (by rw [upper_length]; decide) hpd
  rw [set_entry_other ent entry fun hsame => hne hsame.1]

/-- Addresses of other pages do not see the entry. -/
theorem walk_from_set_leaf (h : TableTree ent root) {va va' : ℕ} (hpt : follow (child ent) root (upper va 3) = some pt)
    (entry : ℕ) (hother : ¬ (upper va' 3 = upper va 3 ∧ index 0 va' = index 0 va)) {n level t : ℕ} (hn : n + level = 3)
    (ht : follow (child ent) root (upper va' n) = some t) (w : Bool) :
    vmm.walk_from (set_entry ent pt (index 0 va) entry) va' level t w = vmm.walk_from ent va' level t w := by
  have hkeep : ∀ {n level t : ℕ}, n + level = 3 → follow (child ent) root (upper va' n) = some t →
      set_entry ent pt (index 0 va) entry t (index level va') = ent t (index level va') := by
    intro n level t hn ht
    refine set_entry_other ent entry ?_
    rintro ⟨rfl, hindex⟩
    have hsame := h.unshared _ _ t (by rw [upper_length]; omega) (by rw [upper_length]) ht hpt
    have hlen := congrArg List.length hsame
    rw [upper_length, upper_length] at hlen
    obtain rfl : level = 0 := by omega
    subst hlen
    exact hother ⟨hsame, hindex⟩
  induction level generalizing n t w with
  | zero => simp only [vmm.walk_from, hkeep hn ht]
  | succ level ih =>
    simp only [vmm.walk_from, hkeep hn ht]
    split
    · rfl
    · split
      · rfl
      · rename_i hpresent hhuge
        have hchild : child ent t (index (3 - n) va') = some (frame_of (ent t (index (level + 1) va'))) := by
          rw [show 3 - n = level + 1 by omega]
          exact child_eq_some.mpr ⟨not_not.mp hpresent, hhuge, rfl⟩
        have hfollow : follow (child ent) root (upper va' (n + 1)) = _ := follow_snoc_eq_some.mpr ⟨t, ht, hchild⟩
        exact ih (by omega) hfollow _

end leaf

end os_dev.vmm
