import OsDev.Fat32.FlatDir

open os_dev.ata os_dev.libc little_endian forest link_chain fuel

namespace os_dev.fat32

variable {v : Volume} {d : Disk} {c k : ℕ} {l : List ℕ}

/-- The taken slots among `count` slots of cluster `k` from slot `start` on. -/
def taken_from (v : Volume) (d : Disk) (k start count : ℕ) : List (ℕ × ℕ) :=
  ((List.range' start count).map (Prod.mk k)).filter fun s => (slot v d s.1 s.2).Occupied

/-- The taken slots of a directory in the order of its chain. -/
def taken_slots (v : Volume) (d : Disk) (l : List ℕ) : List (ℕ × ℕ) :=
  l.flatMap fun k => taken_from v d k 0 (slots_per_cluster v)

/-- The reports for a list of slots. -/
def reports (v : Volume) (d : Disk) (slots : List (ℕ × ℕ)) : List Report :=
  slots.map fun s => report (slot v d s.1 s.2)

theorem mem_taken_slots {s : ℕ × ℕ} : s ∈ taken_slots v d l ↔ Taken v d l s := by
  obtain ⟨k, i⟩ := s
  simp only [taken_slots, taken_from, List.mem_flatMap, List.mem_filter, List.mem_map, List.mem_range'_1,
    Prod.mk.injEq, decide_eq_true_eq, Taken]
  constructor
  · rintro ⟨k', hk', ⟨i', ⟨_, hi'⟩, rfl, rfl⟩, hocc⟩
    exact ⟨hk', by omega, hocc⟩
  · rintro ⟨hk, hi, hocc⟩
    exact ⟨k, hk, ⟨i, ⟨by omega, by omega⟩, rfl, rfl⟩, hocc⟩

theorem taken_slots_nodup (h : l.Nodup) : (taken_slots v d l).Nodup := by
  refine List.nodup_flatMap.mpr ⟨fun k _ => ?_, ?_⟩
  · refine List.Nodup.filter _ (List.Nodup.map ?_ (List.nodup_range' 1))
    exact fun i i' heq => (Prod.mk.inj heq).2
  · refine h.imp fun hne => ?_
    intro s hs hs'
    simp only [taken_from, List.mem_filter, List.mem_map] at hs hs'
    obtain ⟨⟨_, _, rfl⟩, _⟩ := hs
    obtain ⟨⟨_, _, heq⟩, _⟩ := hs'
    exact hne (Prod.mk.inj heq).1.symm

/-- `count` slots of cluster `k` from slot `start` on. -/
def slots_from (k start count : ℕ) : List (ℕ × ℕ) := (List.range' start count).map (Prod.mk k)

/-- The slots of a directory in the order of its chain. -/
def chain_slots (v : Volume) (l : List ℕ) : List (ℕ × ℕ) := l.flatMap fun k => slots_from k 0 (slots_per_cluster v)

/-- A slot with an end mark. -/
def Marked (v : Volume) (d : Disk) (s : ℕ × ℕ) : Prop := (slot v d s.1 s.2).name0 = 0

instance (v : Volume) (d : Disk) (s : ℕ × ℕ) : Decidable (Marked v d s) := inferInstanceAs (Decidable (_ = _))

/-- One of the slots has an end mark. -/
def HasMark (v : Volume) (d : Disk) (slots : List (ℕ × ℕ)) : Prop := ∃ s ∈ slots, Marked v d s

instance (v : Volume) (d : Disk) (slots : List (ℕ × ℕ)) : Decidable (HasMark v d slots) :=
  inferInstanceAs (Decidable (∃ s ∈ slots, Marked v d s))

/-- The taken slots in front of the first end mark. -/
def listed (v : Volume) (d : Disk) (slots : List (ℕ × ℕ)) : List (ℕ × ℕ) :=
  (slots.takeWhile fun s => ¬ Marked v d s).filter fun s => (slot v d s.1 s.2).Occupied

theorem slots_from_succ (k start count : ℕ) :
    slots_from k start (count + 1) = (k, start) :: slots_from k (start + 1) count := by
  rw [slots_from, List.range'_succ]
  rfl

theorem slots_from_add (k start m n : ℕ) :
    slots_from k start (m + n) = slots_from k start m ++ slots_from k (start + m) n := by
  simp only [slots_from, ← List.range'_append_1, List.map_append]

theorem listed_cons (s : ℕ × ℕ) (slots : List (ℕ × ℕ)) : listed v d (s :: slots) =
    if Marked v d s then [] else if (slot v d s.1 s.2).Occupied then s :: listed v d slots else listed v d slots := by
  by_cases hmark : Marked v d s
  · simp [listed, hmark]
  · simp [listed, hmark, List.filter_cons]

theorem hasMark_cons {s : ℕ × ℕ} {slots : List (ℕ × ℕ)} : HasMark v d (s :: slots) ↔ Marked v d s ∨ HasMark v d slots := by
  simp [HasMark]

theorem hasMark_append {slots slots' : List (ℕ × ℕ)} : HasMark v d (slots ++ slots') ↔ HasMark v d slots ∨ HasMark v d slots' := by
  simp only [HasMark, List.mem_append]
  constructor
  · rintro ⟨s, hs | hs, hmark⟩
    · exact .inl ⟨s, hs, hmark⟩
    · exact .inr ⟨s, hs, hmark⟩
  · rintro (⟨s, hs, hmark⟩ | ⟨s, hs, hmark⟩)
    · exact ⟨s, .inl hs, hmark⟩
    · exact ⟨s, .inr hs, hmark⟩

theorem listed_append (slots slots' : List (ℕ × ℕ)) : listed v d (slots ++ slots') =
    if HasMark v d slots then listed v d slots else listed v d slots ++ listed v d slots' := by
  induction slots with
  | nil => simp [listed, HasMark]
  | cons s slots ih =>
    rw [List.cons_append, listed_cons, listed_cons, ih]
    by_cases hmark : Marked v d s
    · simp [hmark, hasMark_cons]
    · by_cases hrest : HasMark v d slots
      · simp [hmark, hrest, hasMark_cons]
      · by_cases hocc : (slot v d s.1 s.2).Occupied
        · simp [hmark, hrest, hocc, hasMark_cons]
        · simp [hmark, hrest, hocc, hasMark_cons]

/-- Without anything behind the end mark all taken slots are listed. -/
theorem listed_of_clean {slots : List (ℕ × ℕ)} (h : slots.Pairwise fun s t => Marked v d s → Marked v d t) :
    listed v d slots = slots.filter fun s => (slot v d s.1 s.2).Occupied := by
  induction slots with
  | nil => rfl
  | cons s slots ih =>
    obtain ⟨hfirst, hrest⟩ := List.pairwise_cons.mp h
    rw [listed_cons, ih hrest, List.filter_cons]
    by_cases hmark : Marked v d s
    · have hempty : slots.filter (fun s => (slot v d s.1 s.2).Occupied) = [] :=
        List.filter_eq_nil_iff.mpr fun t ht => by simpa using fun hocc => absurd (hfirst t ht hmark) hocc.1
      have hvacant : ¬ (slot v d s.1 s.2).Occupied := fun hocc => hocc.1 hmark
      simp [hmark, hvacant, hempty]
    · simp [hmark]

/-- The entry loop reports what the rest of a sector lists. -/
theorem list_entries_eq {k j n i : ℕ} (hsum : i + n = 16) :
    list_entries (d (data_sector v k j)) n i =
      (reports v d (listed v d (slots_from k (16 * j + i) n)), decide (HasMark v d (slots_from k (16 * j + i) n))) := by
  induction n generalizing i with
  | zero => simp [list_entries, slots_from, listed, reports, HasMark]
  | succ n ih =>
    have hslot : dir_entry (d (data_sector v k j)) i = slot v d k (16 * j + i) := (slot_eq_dir_entry (by omega)).symm
    have hrest := ih (show i + 1 + n = 16 by omega)
    rw [show 16 * j + (i + 1) = 16 * j + i + 1 by omega] at hrest
    simp only [list_entries, hslot, hrest, slots_from_succ, listed_cons]
    by_cases hzero : (slot v d k (16 * j + i)).name0 = 0
    · have hmark : Marked v d (k, 16 * j + i) := hzero
      simp [hzero, hmark, reports, hasMark_cons]
    · have hmark : ¬ Marked v d (k, 16 * j + i) := hzero
      have hocc : (slot v d k (16 * j + i)).Occupied ↔
          ¬ ((slot v d k (16 * j + i)).name0 = 0xE5 ∨ (slot v d k (16 * j + i)).attributes = FAT_ATTR_LFN) := by
        rw [not_or]
        exact ⟨fun h => h.2, fun h => ⟨hzero, h⟩⟩
      by_cases hskip : (slot v d k (16 * j + i)).name0 = 0xE5 ∨ (slot v d k (16 * j + i)).attributes = FAT_ATTR_LFN
      · have hvacant : ¬ (slot v d k (16 * j + i)).Occupied := fun h => hocc.mp h hskip
        simp [hzero, hmark, hskip, hvacant, hasMark_cons]
      · simp [hzero, hmark, hskip, hocc.mpr hskip, reports, hasMark_cons]

/-- The sector loop reports what the rest of a cluster lists, and ends the listing if it
    has seen an end mark. -/
theorem Volume.Sane.list_sectors_eq (hv : v.Sane) (hk : v.InRange k) (n s : ℕ) (buf : Sector)
    (hs : s + n = v.bpb.sectors_per_cluster) :
    (list_sectors v d (cluster_to_lba v k) n s buf).1 = reports v d (listed v d (slots_from k (16 * s) (16 * n))) ∧
      (list_sectors v d (cluster_to_lba v k) n s buf).2.1 =
        if HasMark v d (slots_from k (16 * s) (16 * n)) then some 0 else none := by
  induction n generalizing s buf with
  | zero => simp [list_sectors, slots_from, listed, reports, HasMark]
  | succ n ih =>
    have hentries := list_entries_eq (v := v) (d := d) (k := k) (j := s) (show 0 + 16 = 16 by rfl)
    obtain ⟨hcalls, hended⟩ := ih (s + 1) (d (data_sector v k s)) (by omega)
    rw [show 16 * (s + 1) = 16 * s + 16 by omega] at hcalls hended
    rw [Nat.add_zero] at hentries
    simp only [list_sectors, hv.read_sector hk (show s < v.bpb.sectors_per_cluster by omega), hentries]
    rw [show 16 * (n + 1) = 16 + 16 * n by omega, slots_from_add, listed_append]
    by_cases hmark : HasMark v d (slots_from k (16 * s) 16)
    · rw [if_pos hmark, if_pos (hasMark_append.mpr (.inl hmark)), decide_eq_true hmark]
      exact ⟨rfl, rfl⟩
    · rw [if_neg hmark, decide_eq_false hmark]
      simp only [ne_eq, not_true_eq_false, if_false, hcalls, hended, hasMark_append, hmark, false_or, reports, List.map_append,
        and_self]

/-- One round of the listing loop, with the buffer that it leaves behind. -/
theorem Volume.Sane.list_loop_round (hv : v.Sane) (hk : v.InRange k) (fuel : ℕ) (buf : Sector) :
    ∃ buf', list_loop v d (fuel + 1) k buf =
      if HasMark v d (slots_from k 0 (slots_per_cluster v)) then
        some (0, reports v d (listed v d (slots_from k 0 (slots_per_cluster v))))
      else (list_loop v d fuel (get_next_cluster v d k) buf').map fun rest =>
        (rest.1, reports v d (listed v d (slots_from k 0 (slots_per_cluster v))) ++ rest.2) := by
  obtain ⟨hcalls, hended⟩ := hv.list_sectors_eq (d := d) hk v.bpb.sectors_per_cluster 0 buf (by omega)
  rw [Nat.mul_zero] at hcalls hended
  unfold slots_per_cluster
  simp only [list_loop, hk.ne_eoc, hk.ne_bad, ne_eq, not_false_eq_true, and_self, if_true]
  cases hlist : list_sectors v d (cluster_to_lba v k) v.bpb.sectors_per_cluster 0 buf with
  | mk calls rest =>
    obtain ⟨rc, buf'⟩ := rest
    rw [hlist] at hcalls hended
    simp only at hcalls hended
    refine ⟨buf', ?_⟩
    split at hended
    case isTrue hmark =>
      rw [if_pos hmark, hended, hcalls]
    case isFalse hmark =>
      rw [if_neg hmark, hended, hcalls]
      simp only
      cases list_loop v d fuel (get_next_cluster v d k) buf' with
      | none => rfl
      | some r => rfl

theorem list_loop_end {fuel : ℕ} (hfuel : 0 < fuel) (buf : Sector) :
    list_loop v d fuel FAT32_EOC buf = some (0, []) := by
  obtain ⟨fuel, rfl⟩ := Nat.exists_eq_succ_of_ne_zero hfuel.ne'
  simp [list_loop]

/-- Along a chain the listing reports the taken slots in front of the first end mark,
    each once and in order. -/
theorem Volume.Sane.list_loop_listed (hv : v.Sane) (hl : Cells v d c l) {fuel : ℕ} (hfuel : l.length < fuel) (buf : Sector) :
    list_loop v d fuel c buf = some (0, reports v d (listed v d (chain_slots v l))) := by
  induction hl generalizing fuel buf with
  | @last c hok hnext =>
    obtain ⟨fuel, rfl⟩ := Nat.exists_eq_add_of_lt hfuel
    have hend : get_next_cluster v d c = FAT32_EOC := hnext
    obtain ⟨buf', hround⟩ := hv.list_loop_round (d := d) hok ([c].length + fuel) buf
    rw [hround, hend, list_loop_end (by simp)]
    simp [chain_slots]
  | @step c b l hok hnext tail ih =>
    obtain ⟨fuel, rfl⟩ := Nat.exists_eq_add_of_lt hfuel
    have hlink : get_next_cluster v d c = b := hnext
    obtain ⟨buf', hround⟩ := hv.list_loop_round (d := d) hok ((c :: l).length + fuel) buf
    have hrest := ih (show l.length < (c :: l).length + fuel by simp; omega) buf'
    have hslots : chain_slots v (c :: l) = slots_from c 0 (slots_per_cluster v) ++ chain_slots v l := List.flatMap_cons
    rw [hround, hlink, hrest, hslots, listed_append]
    split
    case isTrue => rfl
    case isFalse => simp [reports]

theorem mem_slots_from {s : ℕ × ℕ} {start count : ℕ} : s ∈ slots_from k start count ↔ s.1 = k ∧ start ≤ s.2 ∧ s.2 < start + count := by
  obtain ⟨k', i⟩ := s
  simp only [slots_from, List.mem_map, List.mem_range'_1, Prod.mk.injEq]
  constructor
  · rintro ⟨i', hi', rfl, rfl⟩
    exact ⟨rfl, hi'⟩
  · rintro ⟨rfl, hi⟩
    exact ⟨i, hi, rfl, rfl⟩

theorem mem_chain_slots {s : ℕ × ℕ} : s ∈ chain_slots v l ↔ s.1 ∈ l ∧ s.2 < slots_per_cluster v := by
  simp only [chain_slots, List.mem_flatMap, mem_slots_from]
  constructor
  · rintro ⟨k, hk, rfl, _, hi⟩
    exact ⟨hk, by omega⟩
  · rintro ⟨hk, hi⟩
    exact ⟨s.1, hk, rfl, by omega, by omega⟩

theorem CleanTail.pairwise (h : CleanTail v d l) : (chain_slots v l).Pairwise fun s t => Marked v d s → Marked v d t := by
  refine List.pairwise_flatMap.mpr ⟨fun k hk => ?_, ?_⟩
  · refine List.pairwise_map.mpr ((List.pairwise_lt_range' 1).imp_of_mem fun hi hi' hlt => ?_)
    refine h.within k hk _ _ hlt ?_
    have := (List.mem_range'_1.mp hi').2
    omega
  · refine h.across.imp fun hacross s hs t ht => ?_
    obtain ⟨rfl, _, hi⟩ := mem_slots_from.mp hs
    obtain ⟨rfl, _, hi'⟩ := mem_slots_from.mp ht
    exact hacross s.2 (by omega) t.2 (by omega)

/-- On a clean chain these are all taken slots. -/
theorem Volume.Sane.list_loop_eq (hv : v.Sane) (hl : Cells v d c l) (htail : CleanTail v d l) {fuel : ℕ}
    (hfuel : l.length < fuel) (buf : Sector) : list_loop v d fuel c buf = some (0, reports v d (taken_slots v d l)) := by
  have hall : listed v d (chain_slots v l) = taken_slots v d l := by
    rw [listed_of_clean htail.pairwise, chain_slots, List.filter_flatMap]
    rfl
  rw [hv.list_loop_listed hl hfuel, hall]

end os_dev.fat32
