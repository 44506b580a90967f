import OsDev.Fat32.SlotList

open os_dev.ata os_dev.libc link_chain

namespace os_dev.fat32

variable {v : Volume} {d d' : Disk} {k : ℕ} {l l' : List ℕ} {s t : ℕ × ℕ} {e : fat32_dir_entry_t} {skip_lfn : Bool} {name : CStr}

instance (v : Volume) (d : Disk) (k j i : ℕ) : Decidable (Visible v d k j i) :=
  inferInstanceAs (Decidable (∀ i' ≤ i, (slot v d k (16 * j + i')).name0 ≠ 0))

/-- A slot at which the search for a name stops, with whatever stands behind the end marks. -/
def Seen (v : Volume) (d : Disk) (skip_lfn : Bool) (name : CStr) (s : ℕ × ℕ) : Prop :=
  Visible v d s.1 (s.2 / 16) (s.2 % 16) ∧ matches_name skip_lfn (standardize_name name) (slot v d s.1 s.2) = true

instance (v : Volume) (d : Disk) (skip_lfn : Bool) (name : CStr) (s : ℕ × ℕ) : Decidable (Seen v d skip_lfn name s) :=
  inferInstanceAs (Decidable (_ ∧ _))

theorem scan_entries_eq_seen {j n i : ℕ} (hsum : i + n = 16) (hbefore : ∀ i' < i, (slot v d k (16 * j + i')).name0 ≠ 0) :
    scan_entries (matches_name skip_lfn (standardize_name name)) (d (data_sector v k j)) n i =
      ((slots_from k (16 * j + i) n).find? fun s => decide (Seen v d skip_lfn name s)).map fun s => s.2 % 16 := by
  induction n generalizing i with
  | zero => rfl
  | succ n ih =>
    have hslot : dir_entry (d (data_sector v k j)) i = slot v d k (16 * j + i) := (slot_eq_dir_entry (by omega)).symm
    rw [scan_entries, hslot]
    by_cases hmark : (slot v d k (16 * j + i)).name0 = 0
    · -- the mark hides the rest of the sector
      rw [if_pos hmark, List.find?_eq_none.mpr]
      · rfl
      · rintro ⟨k', x⟩ hs
        obtain ⟨rfl, hlo, hhi⟩ := mem_slots_from.mp hs
        simp only at hlo hhi
        refine mt of_decide_eq_true fun hseen => hseen.1 i (by simp only; omega) ?_
        rwa [show x / 16 = j by omega]
    · have hvisible : Visible v d k j i := fun i' hle => by
        rcases Nat.lt_or_eq_of_le hle with hlt | rfl
        · exact hbefore i' hlt
        · exact hmark
      have hseen : Seen v d skip_lfn name (k, 16 * j + i) ↔
          matches_name skip_lfn (standardize_name name) (slot v d k (16 * j + i)) = true := by
        rw [Seen, show (16 * j + i) / 16 = j by omega, show (16 * j + i) % 16 = i by omega]
        exact and_iff_right hvisible
      rw [if_neg hmark, slots_from_succ, List.find?_cons]
      by_cases hmatch : matches_name skip_lfn (standardize_name name) (slot v d k (16 * j + i)) = true
      · simp [hmatch, hseen.mpr hmatch, show (16 * j + i) % 16 = i by omega]
      · rw [if_neg hmatch, decide_eq_false (mt hseen.mp hmatch)]
        exact ih (by omega) fun i' hlt => hvisible i' (by omega)

/-- A search finds the first slot that is seen. -/
theorem lookup_eq_find_seen (name : CStr) : lookup v d skip_lfn l name =
    ((chain_slots v l).find? fun s => decide (Seen v d skip_lfn name s)).map position :=
  chain_hit_eq_find fun _ _ _ _ => scan_entries_eq_seen (i := 0) rfl fun _ h => absurd h (Nat.not_lt_zero _)

/-- A search that also takes long names stops no later. -/
theorem lookup_of_skip {pos : ℕ × ℕ × ℕ} (h : lookup v d true l name = some pos) : ∃ pos, lookup v d false l name = some pos := by
  rw [lookup_eq_find_seen, Option.map_eq_some_iff] at h
  obtain ⟨t, ht, -⟩ := h
  obtain ⟨hvisible, hmatch⟩ : Seen v d true name t := by simpa using List.find?_some ht
  obtain ⟨hmark, -, hname⟩ := matches_name_iff.mp hmatch
  have hseen : Seen v d false name t := ⟨hvisible, matches_name_iff.mpr ⟨hmark, nofun, hname⟩⟩
  rw [← Option.isSome_iff_exists, lookup_eq_find_seen, Option.isSome_map, List.find?_isSome]
  exact ⟨t, List.mem_of_find?_eq_some ht, decide_eq_true hseen⟩

theorem chain_slots_ordered (h : l.Nodup) : (chain_slots v l).Pairwise fun s t => s.1 = t.1 → s.2 < t.2 := by
  refine List.pairwise_flatMap.mpr ⟨fun k _ => ?_, h.imp fun hne s hs t ht heq => ?_⟩
  · have hlt : (List.range' 0 (slots_per_cluster v)).Pairwise (· < ·) := List.pairwise_lt_range' 1 Nat.one_pos
    refine List.pairwise_map.mpr (hlt.imp ?_)
    exact fun h _ => h
  · exact absurd ((mem_slots_from.mp hs).1.symm.trans (heq.trans (mem_slots_from.mp ht).1)) hne

theorem takeWhile_ne {front rest : List (ℕ × ℕ)} (h : t ∉ front) :
    (front ++ rest).takeWhile (· ≠ t) = front ++ rest.takeWhile (· ≠ t) := by
  refine List.takeWhile_append_of_pos fun x hx => decide_eq_true ?_
  rintro rfl
  exact h hx

section Front

variable {front rest : List (ℕ × ℕ)} (hslots : chain_slots v l = front ++ rest) (hnodup : l.Nodup)

include hslots hnodup

theorem mem_front_of_lt {i : ℕ} (ht : t ∈ front) (hlt : i < t.2) : (t.1, i) ∈ front := by
  obtain ⟨hk, hi⟩ := mem_chain_slots.mp (hslots ▸ List.mem_append_left rest ht)
  have hmem : (t.1, i) ∈ front ++ rest := hslots ▸ mem_chain_slots.mpr ⟨hk, by simp only; omega⟩
  rcases List.mem_append.mp hmem with hfront | hrest
  · exact hfront
  · have hordered := chain_slots_ordered (v := v) hnodup
    rw [hslots] at hordered
    have hgt := (List.pairwise_append.mp hordered).2.2 t ht _ hrest rfl
    exact absurd hgt (by simp only; omega)

/-- In front of the first vacant slot there is no end mark, so every match is seen. -/
theorem seen_front (hused : ∀ t ∈ front, ¬ Reusable v d t) (ht : t ∈ front) :
    Seen v d skip_lfn name t ↔ matches_name skip_lfn (standardize_name name) (slot v d t.1 t.2) = true := by
  refine and_iff_right fun i hle hzero => ?_
  have hmem : (t.1, 16 * (t.2 / 16) + i) ∈ front := by
    rcases Nat.lt_or_eq_of_le (show 16 * (t.2 / 16) + i ≤ t.2 by omega) with hlt | heq
    · exact mem_front_of_lt hslots hnodup ht hlt
    · rwa [heq]
  exact hused _ hmem (.inl hzero)

end Front

/-- In the order of the directory a vacant slot stands in front of slot `t`. -/
def FreeBefore (v : Volume) (d : Disk) (l : List ℕ) (t : ℕ × ℕ) : Prop :=
  ∃ s ∈ (chain_slots v l).takeWhile (· ≠ t), Reusable v d s

instance (v : Volume) (d : Disk) (l : List ℕ) (t : ℕ × ℕ) : Decidable (FreeBefore v d l t) :=
  inferInstanceAs (Decidable (∃ s ∈ _, _))

/-- What a search stops at is in use. -/
theorem Seen.not_reusable (h : Seen v d skip_lfn name t) : ¬ Reusable v d t := by
  rintro (hzero | hdeleted)
  · refine h.1 _ le_rfl ?_
    rwa [Nat.div_add_mod]
  · exact (matches_name_iff.mp h.2).1 hdeleted

section Fills

variable {front back : List (ℕ × ℕ)} (h : Fills v d d' l l' front back s e) (hnodup : l.Nodup) (hnodup' : l'.Nodup)

include h

theorem Fills.front_used : ∀ t ∈ front, ¬ Reusable v d' t := by
  intro t ht
  rw [Reusable, h.front_same t ht]
  exact h.used t ht

theorem Fills.split : ∃ rest, chain_slots v l = front ++ rest ∧ (rest = [] ∨ rest = s :: back ∧ Reusable v d s) := by
  rcases h.before with ⟨hslots, hvacant⟩ | ⟨hslots, -⟩
  · exact ⟨_, hslots, .inr ⟨rfl, hvacant⟩⟩
  · exact ⟨[], hslots.trans (List.append_nil _).symm, .inl rfl⟩

/-- An entry that a search found stays as it is. -/
theorem Fills.slot_of_seen (hmem : t ∈ chain_slots v l) (hseen : Seen v d skip_lfn name t) :
    slot v d' t.1 t.2 = slot v d t.1 t.2 := by
  refine h.same t hmem ?_
  rintro rfl
  rcases h.before with ⟨-, hvacant⟩ | ⟨hslots, -⟩
  · exact hseen.not_reusable hvacant
  · exact (List.nodup_append.mp h.nodup).2.2 t (hslots ▸ hmem) t List.mem_cons_self rfl

include hnodup'

theorem Fills.seen_new (hname : e.name0 ≠ 0) (hmatch : matches_name skip_lfn (standardize_name name) e = true) :
    Seen v d' skip_lfn name s := by
  refine ⟨fun i hle => ?_, by rwa [h.entry]⟩
  rcases Nat.lt_or_eq_of_le (show 16 * (s.2 / 16) + i ≤ s.2 by omega) with hlt | heq
  · have hslots : chain_slots v l' = (front ++ [s]) ++ back := by
      rw [h.after, List.append_assoc, List.singleton_append]
    have hmem := mem_front_of_lt hslots hnodup' (List.mem_append_right front (List.mem_singleton_self s)) hlt
    rcases List.mem_append.mp hmem with hfront | hself
    · exact fun hzero => h.front_used _ hfront (.inl hzero)
    · exact absurd (congrArg Prod.snd (List.mem_singleton.mp hself)) (by simp only; omega)
  · rwa [heq, h.entry]

/-- A search for a name that the new entry has finds the new entry, unless one in front of it has it too. -/
theorem Fills.lookup_matching (hname : e.name0 ≠ 0) (hmatch : matches_name skip_lfn (standardize_name name) e = true) :
    fat32.lookup v d' skip_lfn l' name = some (position
      ((front.find? fun t => matches_name skip_lfn (standardize_name name) (slot v d t.1 t.2)).getD s)) := by
  have hfront : (front.find? fun t => decide (Seen v d' skip_lfn name t)) =
      front.find? fun t => matches_name skip_lfn (standardize_name name) (slot v d t.1 t.2) := by
    rw [← List.head?_filter, ← List.head?_filter, List.filter_congr fun t ht => ?_]
    rw [Bool.eq_iff_iff, decide_eq_true_iff, seen_front h.after hnodup' h.front_used ht, h.front_same t ht]
  rw [lookup_eq_find_seen, h.after, List.find?_append, hfront, List.find?_cons,
    decide_eq_true (h.seen_new hnodup' hname hmatch)]
  cases front.find? fun t => matches_name skip_lfn (standardize_name name) (slot v d t.1 t.2) with
  | none => rfl
  | some t => rfl

include hnodup

theorem Fills.lookup_of_none (hname : e.name0 ≠ 0) (hmatch : matches_name skip_lfn (standardize_name name) e = true)
    (hnone : fat32.lookup v d skip_lfn l name = none) : fat32.lookup v d' skip_lfn l' name = some (position s) := by
  obtain ⟨rest, hslots, -⟩ := h.split
  rw [lookup_eq_find_seen, Option.map_eq_none_iff, hslots, List.find?_append, Option.or_eq_none_iff] at hnone
  rw [h.lookup_matching hnodup' hname hmatch, List.find?_eq_none.mpr]
  · rfl
  · intro t ht hhit
    exact List.find?_eq_none.mp hnone.1 t ht (decide_eq_true ((seen_front hslots hnodup h.used ht).mpr hhit))

/-- An entry of the name that was there before stays the one found, if no vacant slot was in front of it. -/
theorem Fills.lookup_of_some (hname : e.name0 ≠ 0) (hmatch : matches_name skip_lfn (standardize_name name) e = true)
    (hsome : (chain_slots v l).find? (fun t => decide (Seen v d skip_lfn name t)) = some t) :
    fat32.lookup v d' skip_lfn l' name = some (position (if FreeBefore v d l t then s else t)) := by
  obtain ⟨rest, hslots, hrest⟩ := h.split
  have hfront : (front.find? fun t => decide (Seen v d skip_lfn name t)) =
      front.find? fun t => matches_name skip_lfn (standardize_name name) (slot v d t.1 t.2) := by
    rw [← List.head?_filter, ← List.head?_filter, List.filter_congr fun t ht => ?_]
    rw [Bool.eq_iff_iff, decide_eq_true_iff, seen_front hslots hnodup h.used ht]
  have hseen : Seen v d skip_lfn name t := by simpa using List.find?_some hsome
  rw [hslots, List.find?_append, hfront] at hsome
  rw [h.lookup_matching hnodup' hname hmatch]
  cases hfound : front.find? fun t => matches_name skip_lfn (standardize_name name) (slot v d t.1 t.2) with
  | some u =>
    rw [hfound] at hsome
    obtain rfl : u = t := Option.some.inj hsome
    obtain ⟨before, after, hsplit, hout⟩ := List.eq_append_cons_of_mem (List.mem_of_find?_eq_some hfound)
    rw [Option.getD_some, if_neg]
    rintro ⟨x, hx, hvacant⟩
    rw [hslots, hsplit, List.append_assoc, List.cons_append, takeWhile_ne hout, List.takeWhile_cons_of_neg (by simp),
      List.append_nil] at hx
    exact h.used x (hsplit ▸ List.mem_append_left _ hx) hvacant
  | none =>
    rw [hfound, Option.none_or] at hsome
    obtain rfl | ⟨rfl, hvacant⟩ := hrest
    · cases hsome
    · have ht := List.mem_of_find?_eq_some hsome
      have hne : s ≠ t := fun heq => hseen.not_reusable (heq ▸ hvacant)
      have hout : t ∉ front := fun hmem => (List.nodup_append.mp h.nodup).2.2 t hmem t ht rfl
      rw [Option.getD_none, if_pos]
      refine ⟨s, ?_, hvacant⟩
      rw [hslots, takeWhile_ne hout, List.takeWhile_cons_of_pos (by simpa using hne)]
      exact List.mem_append_right _ List.mem_cons_self

end Fills

end os_dev.fat32
