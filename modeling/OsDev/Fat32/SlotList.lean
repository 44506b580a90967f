import OsDev.Fat32.Listing

open os_dev.ata os_dev.libc little_endian forest link_chain fuel

namespace os_dev.fat32

variable {v : Volume} {d d' : Disk} {k : ℕ} {l l' : List ℕ} {s : ℕ × ℕ} {e : fat32_dir_entry_t} {name : CStr}

/-- The cluster, sector and entry of a slot. -/
def position (s : ℕ × ℕ) : ℕ × ℕ × ℕ := (s.1, s.2 / 16, s.2 % 16)

/-- A slot that `create_entry` can fill: an end mark or a deleted entry. -/
def Reusable (v : Volume) (d : Disk) (s : ℕ × ℕ) : Prop :=
  (slot v d s.1 s.2).name0 = 0 ∨ (slot v d s.1 s.2).name0 = 0xE5

instance (v : Volume) (d : Disk) (s : ℕ × ℕ) : Decidable (Reusable v d s) := inferInstanceAs (Decidable (_ ∨ _))

/-- A slot that a search for a name stops at. -/
def Matches (v : Volume) (d : Disk) (name : CStr) (s : ℕ × ℕ) : Prop :=
  ¬ Marked v d s ∧ matches_name true (standardize_name name) (slot v d s.1 s.2) = true

instance (v : Volume) (d : Disk) (name : CStr) (s : ℕ × ℕ) : Decidable (Matches v d name s) :=
  inferInstanceAs (Decidable (_ ∧ _))

/-- In the order of the list, only end marks stand behind an end mark. -/
def CleanSlots (v : Volume) (d : Disk) (slots : List (ℕ × ℕ)) : Prop :=
  slots.Pairwise fun s t => Marked v d s → Marked v d t

theorem slots_from_sectors (k n : ℕ) : slots_from k 0 (16 * (n + 1)) = slots_from k 0 (16 * n) ++ slots_from k (16 * n) 16 := by
  rw [Nat.mul_succ, slots_from_add, Nat.zero_add]

/-- A loop over a chain that stops where `p` first holds of a slot in each of the sectors,
    stops where `p` first holds of a slot of the chain. -/
theorem chain_hit_eq_find {scan : Sector → Option ℕ} {p : ℕ × ℕ → Bool}
    (h : ∀ k ∈ l, ∀ j < v.bpb.sectors_per_cluster,
      scan (d (data_sector v k j)) = ((slots_from k (16 * j) 16).find? p).map fun s => s.2 % 16) :
    chain_hit v d scan l = ((chain_slots v l).find? p).map position := by
  have hcluster : ∀ k ∈ l, ∀ n ≤ v.bpb.sectors_per_cluster,
      ((List.range n).findSome? fun j => (scan (d (data_sector v k j))).map fun i => (j, i)) =
        ((slots_from k 0 (16 * n)).find? p).map fun s => (s.2 / 16, s.2 % 16) := by
    intro k hk n hn
    induction n with
    | zero => rfl
    | succ n ih =>
      rw [List.range_succ, List.findSome?_append, ih (by omega), slots_from_sectors, List.find?_append]
      cases (slots_from k 0 (16 * n)).find? p with
      | some s => rfl
      | none =>
        simp only [List.findSome?_singleton, h k hk n (by omega), Option.map_none, Option.none_or, Option.map_map]
        cases hfound : (slots_from k (16 * n) 16).find? p with
        | none => rfl
        | some s =>
          obtain ⟨_, hlo, hhi⟩ := mem_slots_from.mp (List.mem_of_find?_eq_some hfound)
          simp [show s.2 / 16 = n by omega]
  unfold chain_hit chain_slots cluster_hit
  rw [List.find?_flatMap, List.map_findSome?]
  refine findSome?_congr fun k hk => ?_
  rw [hcluster k hk _ le_rfl, Option.map_map, ← slots_per_cluster, Function.comp_apply]
  cases hfound : (slots_from k 0 (slots_per_cluster v)).find? p with
  | none => rfl
  | some s =>
    obtain ⟨hs, -⟩ := mem_slots_from.mp (List.mem_of_find?_eq_some hfound)
    simp [position, hs]

/-- The entry loop of `create_entry` stops at the first vacant slot. -/
theorem scan_free_eq_find {j n i : ℕ} (hsum : i + n = 16) :
    scan_free (d (data_sector v k j)) n i =
      ((slots_from k (16 * j + i) n).find? fun s => decide (Reusable v d s)).map fun s => s.2 % 16 := by
  induction n generalizing i with
  | zero => rfl
  | succ n ih =>
    have hslot : dir_entry (d (data_sector v k j)) i = slot v d k (16 * j + i) := (slot_eq_dir_entry (by omega)).symm
    rw [scan_free, slots_from_succ, hslot]
    by_cases hvacant : (slot v d k (16 * j + i)).name0 = 0 ∨ (slot v d k (16 * j + i)).name0 = 0xE5
    · have hfirst : decide (Reusable v d (k, 16 * j + i)) = true := decide_eq_true hvacant
      simp [hvacant, hfirst, show (16 * j + i) % 16 = i by omega]
    · have hfirst : decide (Reusable v d (k, 16 * j + i)) = false := decide_eq_false hvacant
      simp only [if_neg hvacant, List.find?_cons, hfirst, ih (show i + 1 + n = 16 by omega), Nat.add_assoc]

/-- With end marks behind end marks only, the entry loop of a search stops at the first
    slot that has the name. -/
theorem scan_entries_eq_find {j n i : ℕ} (hsum : i + n = 16) (hclean : CleanSlots v d (slots_from k (16 * j + i) n)) :
    scan_entries (matches_name true (standardize_name name)) (d (data_sector v k j)) n i =
      ((slots_from k (16 * j + i) n).find? fun s => decide (Matches v d name s)).map fun s => s.2 % 16 := by
  induction n generalizing i with
  | zero => rfl
  | succ n ih =>
    have hslot : dir_entry (d (data_sector v k j)) i = slot v d k (16 * j + i) := (slot_eq_dir_entry (by omega)).symm
    rw [slots_from_succ] at hclean ⊢
    obtain ⟨hfirst, hrest⟩ := List.pairwise_cons.mp hclean
    rw [Nat.add_assoc] at hrest
    rw [scan_entries, hslot]
    by_cases hmark : (slot v d k (16 * j + i)).name0 = 0
    · -- nothing behind the mark matches
      rw [if_pos hmark, List.find?_eq_none.mpr]
      · rfl
      · intro s hs
        rcases List.mem_cons.mp hs with rfl | hs
        · simp [Matches, Marked, hmark]
        · simp [Matches, hfirst s hs hmark]
    · rw [if_neg hmark]
      by_cases hmatch : Matches v d name (k, 16 * j + i)
      · have hfirst : decide (Matches v d name (k, 16 * j + i)) = true := decide_eq_true hmatch
        simp [hmatch.2, hfirst, show (16 * j + i) % 16 = i by omega]
      · have hfirst : decide (Matches v d name (k, 16 * j + i)) = false := decide_eq_false hmatch
        rw [if_neg fun h => hmatch ⟨hmark, h⟩, ih (by omega) hrest]
        simp only [List.find?_cons, hfirst, Nat.add_assoc]

theorem free_hit_eq_find : chain_hit v d free_scan l =
    ((chain_slots v l).find? fun s => decide (Reusable v d s)).map position :=
  chain_hit_eq_find fun _ _ _ _ => scan_free_eq_find (i := 0) rfl

/-- In a clean directory a search finds the first slot that has the name. -/
theorem lookup_eq_find (hclean : CleanSlots v d (chain_slots v l)) (name : CStr) :
    lookup v d true l name = ((chain_slots v l).find? fun s => decide (Matches v d name s)).map position := by
  refine chain_hit_eq_find fun k hk j hj => scan_entries_eq_find (i := 0) rfl ?_
  have hcluster : (slots_from k 0 (slots_per_cluster v)).Sublist (chain_slots v l) := by
    rw [chain_slots, List.flatMap_def]
    exact List.sublist_flatten_of_mem (List.mem_map_of_mem hk)
  have hsector : (slots_from k (16 * j) 16).Sublist (slots_from k 0 (slots_per_cluster v)) := by
    obtain ⟨rest, hrest⟩ := Nat.exists_eq_add_of_lt hj
    rw [slots_per_cluster, hrest, show 16 * (j + rest + 1) = 16 * j + (16 + 16 * rest) by omega, slots_from_add,
      slots_from_add, Nat.zero_add]
    exact (List.sublist_append_left _ _).trans (List.sublist_append_right _ _)
  exact List.Pairwise.sublist (hsector.trans hcluster) hclean

/-- The directory with the chain `l` has received the entry `e` in the slot `s`, behind the
    slots `front` that are all in use. Either `s` was vacant, or the chain has grown and
    the slots behind `s` are end marks. Nothing else has changed. -/
structure Fills (v : Volume) (d d' : Disk) (l l' : List ℕ) (front back : List (ℕ × ℕ)) (s : ℕ × ℕ) (e : fat32_dir_entry_t) :
    Prop where
  after : chain_slots v l' = front ++ s :: back
  nodup : (front ++ s :: back).Nodup
  before : chain_slots v l = front ++ s :: back ∧ Reusable v d s ∨ chain_slots v l = front ∧ ∀ t ∈ back, Marked v d' t
  used : ∀ t ∈ front, ¬ Reusable v d t
  entry : slot v d' s.1 s.2 = e
  same : ∀ t ∈ chain_slots v l, t ≠ s → slot v d' t.1 t.2 = slot v d t.1 t.2

section Fills

variable {front back : List (ℕ × ℕ)} (h : Fills v d d' l l' front back s e)

include h

theorem Fills.front_same : ∀ t ∈ front, slot v d' t.1 t.2 = slot v d t.1 t.2 := by
  intro t ht
  refine h.same t ?_ fun heq => ?_
  · rcases h.before with ⟨heq, -⟩ | ⟨heq, -⟩
    · exact heq ▸ List.mem_append_left _ ht
    · exact heq ▸ ht
  · rw [heq] at ht
    exact (List.nodup_append.mp h.nodup).2.2 s ht s List.mem_cons_self rfl

theorem Fills.back_same (hslots : chain_slots v l = front ++ s :: back) : ∀ t ∈ back, slot v d' t.1 t.2 = slot v d t.1 t.2 := by
  intro t ht
  refine h.same t (hslots ▸ by simp [ht]) fun heq => ?_
  rw [heq] at ht
  exact (List.nodup_cons.mp (List.nodup_append.mp h.nodup).2.1).1 ht

/-- A change that left the slots of the directory alone can be put in front. -/
theorem Fills.of_same {d₀ : Disk} (hsame : ∀ t ∈ chain_slots v l, slot v d t.1 t.2 = slot v d₀ t.1 t.2) :
    Fills v d₀ d' l l' front back s e := by
  have hreuse : ∀ {t}, t ∈ chain_slots v l → (Reusable v d t ↔ Reusable v d₀ t) := by
    intro t ht
    unfold Reusable
    rw [hsame t ht]
  have hbefore : chain_slots v l = front ++ s :: back ∧ Reusable v d₀ s ∨
      chain_slots v l = front ∧ ∀ t ∈ back, Marked v d' t :=
    h.before.imp_left fun ⟨hslots, hvacant⟩ => ⟨hslots, (hreuse (hslots ▸ by simp)).mp hvacant⟩
  refine ⟨h.after, h.nodup, hbefore, fun t ht hvacant => h.used t ht ((hreuse ?_).mpr hvacant), h.entry,
    fun t ht hne => (h.same t ht hne).trans (hsame t ht)⟩
  rcases h.before with ⟨heq, -⟩ | ⟨heq, -⟩
  · exact heq ▸ List.mem_append_left _ ht
  · exact heq ▸ ht

theorem Fills.clean (hclean : CleanSlots v d (chain_slots v l)) (hname : e.name0 ≠ 0) :
    CleanSlots v d' (chain_slots v l') := by
  have hfront : ∀ t ∈ front, ¬ Marked v d' t := fun t ht hmark =>
    h.used t ht (.inl (h.front_same t ht ▸ hmark))
  have hback : CleanSlots v d' back := by
    rcases h.before with ⟨hslots, -⟩ | ⟨-, hmarks⟩
    · rw [hslots] at hclean
      refine (List.pairwise_cons.mp (List.pairwise_append.mp hclean).2.1).2.imp_of_mem fun ht hu hrest => ?_
      unfold Marked at hrest ⊢
      rwa [h.back_same hslots _ ht, h.back_same hslots _ hu]
    · exact List.pairwise_of_forall_mem_list fun _ _ u hu _ => hmarks u hu
  rw [h.after]
  refine List.pairwise_append.mpr ⟨?_, List.pairwise_cons.mpr ⟨fun t _ hmark => ?_, hback⟩, fun t ht _ _ hmark => ?_⟩
  · exact List.pairwise_of_forall_mem_list fun t ht _ _ hmark => absurd hmark (hfront t ht)
  · rw [Marked, h.entry] at hmark
    exact absurd hmark hname
  · exact absurd hmark (hfront t ht)

/-- A filter that holds of no vacant slot gains the new slot, if it holds of that. -/
theorem Fills.filter {p q : ℕ × ℕ → Bool} (hp : ∀ t, Reusable v d t → p t = false) (hq : ∀ t, Marked v d' t → q t = false)
    (hsame : ∀ t, slot v d' t.1 t.2 = slot v d t.1 t.2 → q t = p t) :
    ∃ post, (chain_slots v l).filter p = front.filter p ++ post ∧
      (chain_slots v l').filter q = front.filter p ++ (if q s then [s] else []) ++ post ∧
      ∀ t ∈ front.filter p ++ post, slot v d' t.1 t.2 = slot v d t.1 t.2 := by
  have hfront : front.filter q = front.filter p := List.filter_congr fun t ht => hsame t (h.front_same t ht)
  have hnew : (s :: back).filter q = (if q s then [s] else []) ++ back.filter q := by
    rw [List.filter_cons]
    split <;> rfl
  rcases h.before with ⟨hslots, hvacant⟩ | ⟨hslots, hmarks⟩
  · have hback := h.back_same hslots
    refine ⟨back.filter p, ?_, ?_, fun t ht => ?_⟩
    · rw [hslots, List.filter_append, List.filter_cons_of_neg (by simp [hp s hvacant])]
    · rw [h.after, List.filter_append, hfront, hnew, List.filter_congr fun t ht => hsame t (hback t ht), List.append_assoc]
    · rcases List.mem_append.mp ht with ht | ht
      · exact h.front_same t (List.mem_filter.mp ht).1
      · exact hback t (List.mem_filter.mp ht).1
  · have hnone : back.filter q = [] := List.filter_eq_nil_iff.mpr fun t ht => by simp [hq t (hmarks t ht)]
    refine ⟨[], ?_, ?_, fun t ht => ?_⟩
    · rw [hslots, List.append_nil]
    · rw [h.after, List.filter_append, hfront, hnew, hnone, List.append_assoc]
    · rw [List.append_nil] at ht
      exact h.front_same t (List.mem_filter.mp ht).1

/-- The listing of the directory gains exactly one report. -/
theorem Fills.reports (hclean : CleanSlots v d (chain_slots v l)) (hocc : e.Occupied) :
    ∃ pre post, fat32.reports v d (listed v d (chain_slots v l)) = pre ++ post ∧
      fat32.reports v d' (listed v d' (chain_slots v l')) = pre ++ report e :: post := by
  obtain ⟨post, hold, hnew, hslots⟩ := h.filter (p := fun t => decide (slot v d t.1 t.2).Occupied)
    (q := fun t => decide (slot v d' t.1 t.2).Occupied)
    (fun t hvacant => decide_eq_false fun hocc => hvacant.elim hocc.1 hocc.2.1)
    (fun t hmark => decide_eq_false fun hocc => hocc.1 hmark) fun t hsame => by simp only [hsame]
  rw [listed_of_clean hclean, listed_of_clean (h.clean hclean hocc.1), hold, hnew, if_pos (by simpa [h.entry] using hocc)]
  have hreport : ∀ slots, (∀ t ∈ slots, slot v d' t.1 t.2 = slot v d t.1 t.2) →
      fat32.reports v d' slots = fat32.reports v d slots := fun slots hsame =>
    List.map_congr_left fun t ht => congrArg report (hsame t ht)
  refine ⟨_, fat32.reports v d post, List.map_append, ?_⟩
  have hpre := hreport _ fun t ht => hslots t (List.mem_append_left _ ht)
  have hpost := hreport _ fun t ht => hslots t (List.mem_append_right _ ht)
  simp only [fat32.reports, List.map_append, List.map_cons, h.entry, List.append_assoc, List.singleton_append] at hpre hpost ⊢
  rw [hpre, hpost]

/-- A search finds the new entry if it has the name and nothing had it before, and what
    it found before if the new entry does not have the name. -/
theorem Fills.lookup (hclean : CleanSlots v d (chain_slots v l)) (hname : e.name0 ≠ 0) (name : CStr) :
    (matches_name true (standardize_name name) e = false → lookup v d' true l' name = fat32.lookup v d true l name) ∧
      (matches_name true (standardize_name name) e = true → fat32.lookup v d true l name = none →
        fat32.lookup v d' true l' name = some (position s)) := by
  obtain ⟨post, hold, hnew, -⟩ := h.filter (p := fun t => decide (Matches v d name t))
    (q := fun t => decide (Matches v d' name t))
    (fun t hvacant => decide_eq_false fun hmatch => hvacant.elim hmatch.1 (matches_name_iff.mp hmatch.2).1)
    (fun t hmark => decide_eq_false fun hmatch => hmatch.1 hmark) fun t hsame => by
      rw [decide_eq_decide]
      simp only [Matches, Marked, hsame]
  have hmatches : Matches v d' name s ↔ matches_name true (standardize_name name) e = true := by
    rw [Matches, Marked, h.entry]
    exact and_iff_right hname
  rw [lookup_eq_find hclean, lookup_eq_find (h.clean hclean hname), ← List.head?_filter, ← List.head?_filter, hold, hnew]
  refine ⟨fun hmiss => ?_, fun hhit hnone => ?_⟩
  · rw [if_neg (by simp [hmatches, hmiss]), List.append_nil]
  · rw [Option.map_eq_none_iff, List.head?_eq_none_iff, List.append_eq_nil_iff] at hnone
    rw [if_pos (by simp [hmatches, hhit]), hnone.1, hnone.2]
    rfl

end Fills

/-- What an insertion does to the table, apart from the words in `S`: nothing, or it has
    put a free cluster behind the last one of the chain. -/
inductive Grows (v : Volume) (S : ℕ → Prop) (d d' : Disk) (l : List ℕ) : List ℕ → Prop where
  | same (hword : ∀ x, v.InTable x → ¬ S x → fat_word v d' x = fat_word v d x) : Grows v S d d' l l
  | more (x z : ℕ) (hx : x ∈ l) (hlast : get_next_cluster v d x = FAT32_EOC) (hz : v.InRange z) (hfree : IsFree v d z)
      (hother : ¬ S z)
      (hword : ∀ w, v.InTable w → ¬ S w → w ≠ x → w ≠ z → fat_word v d' w = fat_word v d w) : Grows v S d d' l (l ++ [z])

theorem chain_slots_nodup (h : l.Nodup) : (chain_slots v l).Nodup := by
  refine List.nodup_flatMap.mpr ⟨fun k _ => ?_, h.imp fun hne s hs hs' => ?_⟩
  · exact (List.nodup_range' 1).map fun i i' heq => (Prod.mk.inj heq).2
  · exact hne ((mem_slots_from.mp hs).1.symm.trans (mem_slots_from.mp hs').1)

theorem chain_slots_append (l : List ℕ) (z : ℕ) :
    chain_slots v (l ++ [z]) = chain_slots v l ++ slots_from z 0 (slots_per_cluster v) := by
  simp [chain_slots]

/-- When `create_entry` has returned 0, the directory has received the entry. -/
theorem Volume.Sane.create_entry_fills (hv : v.Sane) (hnext : NextInRange v d) {c : ℕ} (hl : Cells v d c l) {attr : UInt8}
    {fc : ℕ} (h : Returns (fun fuel => create_entry fuel v d c name attr fc 0) (0, d')) :
    ∃ l' front back s, Cells v d' c l' ∧ Grows v (fun _ => False) d d' l l' ∧
      Fills v d d' l l' front back s (made_entry (standardize_base name) (standardize_ext name) attr fc 0) ∧
      ∀ x, v.InRange x → x ∉ l' → ∀ j < v.bpb.sectors_per_cluster, d' (data_sector v x j) = d (data_sector v x j) := by
  obtain ⟨fuel, hfuel, hlen⟩ := (h.and (Filter.eventually_gt_atTop (l.length + 1))).exists
  change create_entry fuel v d c name attr fc 0 = some (0, d') at hfuel
  have hnodup := Chain.nodup (not_inRange_eoc (v := v)) hl
  have hfilled : ∀ {d : Disk} {k x j i : ℕ}, v.InRange k → j < v.bpb.sectors_per_cluster → v.InRange x → x ≠ k →
      ∀ j' < v.bpb.sectors_per_cluster,
        fill_slot v d (k, j, i) name attr fc 0 (data_sector v x j') = d (data_sector v x j') := by
    intro d k x j i hk hj hx hne j' hj'
    exact Function.update_of_ne (fun heq => hne (data_sector_inj hx.1 hk.1 hj' hj heq).1) _ _
  rcases hv.create_entry_cases (fun _ => hnext) hl hlen name attr fc 0 with ⟨⟨k, j, i⟩, hhit, heq⟩ | ⟨_, _, heq⟩ |
    ⟨x, hx, hfull, hlast, hzero, hin, hfree, heq⟩
  · obtain rfl : fill_slot v d (k, j, i) name attr fc 0 = d' := by
      rw [heq] at hfuel
      exact (Prod.mk.inj (Option.some.inj hfuel)).2
    obtain ⟨hk, hj, hi, -, -⟩ := free_hit_some hhit
    have hword : ∀ x, v.InTable x → fat_word v (fill_slot v d (k, j, i) name attr fc 0) x = fat_word v d x :=
      fun x hx => fat_word_fill hv hx
    rw [free_hit_eq_find] at hhit
    obtain ⟨s, hfind, hpos⟩ := Option.map_eq_some_iff.mp hhit
    obtain rfl : s = (k, 16 * j + i) := by
      obtain ⟨rfl, hrest⟩ := Prod.mk.inj hpos
      obtain ⟨rfl, rfl⟩ := Prod.mk.inj hrest
      exact Prod.ext rfl (Nat.div_add_mod s.2 16).symm
    obtain ⟨hvacant, front, back, hslots, hfront⟩ := List.find?_eq_some_iff_append.mp hfind
    refine ⟨l, front, back, _, hl.congr_words hv fun z hz => hword z (hl.inRange hz).inTable, .same fun x hx _ => hword x hx, ⟨hslots,
      hslots ▸ chain_slots_nodup hnodup, .inl ⟨hslots, of_decide_eq_true hvacant⟩, fun t ht => ?_,
      slot_fill_same hi (by decide), fun t ht hne => ?_⟩, fun x hx hout =>
        hfilled (hl.inRange hk) hj hx fun heq => hout (heq ▸ hk)⟩
    · simpa using hfront t ht
    · obtain ⟨hk', hi'⟩ := mem_chain_slots.mp ht
      exact slot_fill_other (hl.inRange hk).1 (hl.inRange hk').1 hj hi' hne
  · rw [heq] at hfuel
    cases hfuel
  · generalize find_free_cluster v d = z at hzero hin hfree heq
    obtain rfl : fill_slot v (append_cluster v d x z) (z, 0, 0) name attr fc 0 = d' := by
      rw [heq] at hfuel
      exact (Prod.mk.inj (Option.some.inj hfuel)).2
    have hxin := hl.inRange hx
    have hout : z ∉ l := fun hmem => hl.not_free hv hmem hfree
    obtain ⟨hlink, hend, hlinks⟩ := hv.append_links hxin hin (fun heq => hout (heq ▸ hx)) d
    have hgrown : Cells v (append_cluster v d x z) c (l ++ [z]) :=
      hl.extend (not_inRange_eoc (v := v)) hx hlast hin hlink hend fun w hw hwx =>
        hlinks w (hl.inRange hw) hwx fun heq => hout (heq ▸ hw)
    have hslots : chain_slots v (l ++ [z]) = chain_slots v l ++ (z, 0) :: slots_from z 1 (slots_per_cluster v - 1) := by
      have hpos := slot_index_lt (v := v) (i := 0) hv.cluster_pos (by omega)
      rw [chain_slots_append, ← slots_from_succ, Nat.sub_add_cancel (by omega)]
    have hother : ∀ k', v.InRange k' → ∀ i' < slots_per_cluster v, (k', i') ≠ (z, 0) →
        slot v (fill_slot v (append_cluster v d x z) (z, 0, 0) name attr fc 0) k' i' =
          slot v (append_cluster v d x z) k' i' :=
      fun k' hk' i' hi' hne => slot_fill_other hin.1 hk'.1 hv.cluster_pos hi' hne
    refine ⟨l ++ [z], _, _, (z, 0), hgrown.congr_words hv fun w hw => fat_word_fill hv (hgrown.inRange hw).inTable,
      .more x z hx hlast hin hfree not_false fun w hw _ hwx hwz => ?_, ⟨hslots, hslots ▸ chain_slots_nodup ?_,
      .inr ⟨rfl, fun t ht => ?_⟩, fun t ht hvacant => ?_, slot_fill_same (by omega) (by decide), fun t ht _ => ?_⟩,
      fun y hy hyout j hj => ?_⟩
    · rw [fat_word_fill hv hw, hv.fat_word_append hxin hin hw, if_neg hwz, if_neg hwx]
    · exact List.nodup_append.mpr ⟨hnodup, List.nodup_singleton z, fun a ha b hb heq =>
        hout (List.mem_singleton.mp hb ▸ heq ▸ ha)⟩
    · obtain ⟨k', i'⟩ := t
      obtain ⟨rfl, hlo, hhi⟩ := mem_slots_from.mp ht
      have hi' : i' < slots_per_cluster v := by
        simp only at hlo hhi
        omega
      rw [Marked, hother k' hin i' hi' (by simp at hlo ⊢; omega), slot, hv.append_cluster_cleared hin (sector_of_slot hi')]
      exact dir_entry_zero_name0 _
    · rw [free_hit_eq_find, Option.map_eq_none_iff] at hfull
      simpa [hvacant] using List.find?_eq_none.mp hfull t ht
    · obtain ⟨hk', hi'⟩ := mem_chain_slots.mp ht
      have hne : t.1 ≠ z := fun heq => hout (heq ▸ hk')
      rw [hother t.1 (hl.inRange hk') t.2 hi' fun heq => hne (Prod.mk.inj heq).1]
      exact slot_congr (hv.append_cluster_data hxin hin (hl.inRange hk') hne (sector_of_slot hi'))
    · have hne : y ≠ z := fun heq => hyout (List.mem_append_right l (List.mem_singleton.mpr heq))
      rw [hfilled hin hv.cluster_pos hy hne j hj, hv.append_cluster_data hxin hin hy hne hj]

end os_dev.fat32
