import OsDev.Fat32.Slots
import Mathlib.Data.Finset.Card

open os_dev.ata os_dev.libc little_endian

namespace os_dev.fat32

variable {v : Volume} {d d' : Disk}

/-- Cluster `c` is marked free in the table. -/
def IsFree (v : Volume) (d : Disk) (c : ℕ) : Prop := (fat_word v d c &&& 0x0FFFFFFF) = 0

instance (v : Volume) (d : Disk) (c : ℕ) : Decidable (IsFree v d c) := inferInstanceAs (Decidable (_ = _))

theorem free_in_sector_some {buf : Sector} {s i : ℕ} (h : free_in_sector buf s = some i) :
    i < 128 ∧ (le32 buf.byte (4 * i) &&& 0x0FFFFFFF) = 0 ∧ 2 ≤ u32 (s * 128 + i) ∧
      ∀ j < i, ¬ ((le32 buf.byte (4 * j) &&& 0x0FFFFFFF) = 0 ∧ 2 ≤ u32 (s * 128 + j)) := by
  unfold free_in_sector at h
  obtain ⟨hi, n, hn, hget, hbefore⟩ := List.find?_eq_some_iff_getElem.mp h
  simp only [decide_eq_true_eq] at hi
  simp only [List.getElem_range] at hget
  subst hget
  refine ⟨by simpa using hn, hi.1, hi.2, fun j hj => ?_⟩
  have hnot := hbefore j hj
  simp only [List.getElem_range, Bool.not_eq_true', decide_eq_false_iff_not] at hnot
  exact hnot

theorem free_in_sector_none {buf : Sector} {s j : ℕ} (h : free_in_sector buf s = none) (hj : j < 128) :
    ¬ ((le32 buf.byte (4 * j) &&& 0x0FFFFFFF) = 0 ∧ 2 ≤ u32 (s * 128 + j)) := by
  unfold free_in_sector at h
  have hnot := List.find?_eq_none.mp h j (List.mem_range.mpr hj)
  simp only [decide_eq_true_eq] at hnot
  exact hnot

/-- The search stops at word `i`: it is free, and its number as a cluster is not below 2. -/
def Hit (v : Volume) (d : Disk) (i : ℕ) : Prop := IsFree v d i ∧ 2 ≤ u32 i

/-- Every sector of the allocation table can be read. -/
def Volume.TableReadable (v : Volume) : Prop :=
  ∀ s < v.bpb.fat_size_32, v.drive.Holds (v.fat_lba + s) ∧ v.fat_lba + s < 2 ^ 32

/-- The scan from sector `s` on stops at the first hit in the rest of the table. -/
theorem Volume.TableReadable.find_free_from_spec (hv : v.TableReadable) (n s : ℕ) (buf : Sector)
    (hsum : s + n = v.bpb.fat_size_32) :
    (find_free_from v d n s buf = 0 ∧ ∀ i, 128 * s ≤ i → v.InTable i → ¬ Hit v d i) ∨
      ∃ i, find_free_from v d n s buf = u32 i ∧ v.InTable i ∧ Hit v d i ∧ ∀ j, 128 * s ≤ j → j < i → ¬ Hit v d j := by
  induction n generalizing s buf with
  | zero =>
    refine .inl ⟨rfl, fun i hs hi => ?_⟩
    unfold Volume.InTable at hi
    omega
  | succ n ih =>
    obtain ⟨hholds, hbound⟩ := hv s (by omega)
    -- word `i` of the sector is the word of cluster `s * 128 + i`
    have hword : ∀ i < 128, le32 (d (v.fat_lba + s)).byte (4 * i) = fat_word v d (s * 128 + i) := by
      intro i hi
      unfold fat_word
      rw [show (s * 128 + i) / 128 = s by omega, show (s * 128 + i) % 128 = i by omega]
    have hlocal : ∀ i, 128 * s ≤ i → i < 128 * (s + 1) → i = s * 128 + (i - s * 128) ∧ i - s * 128 < 128 := by
      intro i _ _
      omega
    simp only [find_free_from, u32_of_lt hbound, read_of_holds hholds]
    cases hfound : free_in_sector (d (v.fat_lba + s)) s with
    | some i =>
      obtain ⟨hi, hzero, htwo, hfirst⟩ := free_in_sector_some hfound
      refine .inr ⟨s * 128 + i, rfl, ?_, ⟨?_, htwo⟩, fun j hs hlt hhit => ?_⟩
      · unfold Volume.InTable
        omega
      · rwa [hword i hi] at hzero
      · obtain ⟨heq, hj⟩ := hlocal j hs (by omega)
        apply hfirst (j - s * 128) (by omega)
        rw [hword _ hj, ← heq]
        exact hhit
    | none =>
      have hsector : ∀ i, 128 * s ≤ i → ¬ 128 * (s + 1) ≤ i → ¬ Hit v d i := by
        intro i hs hlt hhit
        obtain ⟨heq, hj⟩ := hlocal i hs (by omega)
        apply free_in_sector_none hfound hj
        rw [hword _ hj, ← heq]
        exact hhit
      obtain ⟨hzero, hnone⟩ | ⟨i, hres, hin, hhit, hfirst⟩ := ih (s + 1) (d (v.fat_lba + s)) (by omega)
      · refine .inl ⟨hzero, fun i hs hin => ?_⟩
        by_cases hle : 128 * (s + 1) ≤ i
        · exact hnone i hle hin
        · exact hsector i hs hle
      · refine .inr ⟨i, hres, hin, hhit, fun j hs hlt => ?_⟩
        by_cases hle : 128 * (s + 1) ≤ j
        · exact hfirst j hle hlt
        · exact hsector j hs hle

theorem Volume.TableReadable.find_free_cluster_spec (hv : v.TableReadable) (d : Disk) :
    (find_free_cluster v d = 0 ∧ ∀ i, v.InTable i → ¬ Hit v d i) ∨
      ∃ i, find_free_cluster v d = u32 i ∧ v.InTable i ∧ Hit v d i ∧ ∀ j < i, ¬ Hit v d j := by
  obtain ⟨hzero, hnone⟩ | ⟨i, hres, hin, hhit, hfirst⟩ :=
    hv.find_free_from_spec (d := d) v.bpb.fat_size_32 0 v.uninit (by omega)
  · exact .inl ⟨hzero, fun i hin => hnone i (by omega) hin⟩
  · exact .inr ⟨i, hres, hin, hhit, fun j hlt => hfirst j (by omega) hlt⟩

theorem Volume.Sane.table_readable (hv : v.Sane) : v.TableReadable := by
  intro s hs
  have hbefore := hv.table_before_data
  have hdrive := hv.table_on_drive
  have haddr := hv.addressable
  exact ⟨⟨hv.present, by omega⟩, by omega⟩

/-- The free-cluster search returns the lowest free cluster of the table, or 0
    when the table has none. -/
theorem Volume.Sane.find_free_cluster_spec (hv : v.Sane) (d : Disk) :
    (find_free_cluster v d = 0 ∧ ∀ c, 2 ≤ c → v.InTable c → ¬ IsFree v d c) ∨
      (2 ≤ find_free_cluster v d ∧ v.InTable (find_free_cluster v d) ∧
        IsFree v d (find_free_cluster v d) ∧
        ∀ c, 2 ≤ c → c < find_free_cluster v d → ¬ IsFree v d c) := by
  have hsmall := hv.table_small
  have hnum : ∀ c, v.InTable c → u32 c = c := by
    intro c hc
    unfold Volume.InTable at hc
    exact u32_of_lt (by omega)
  obtain ⟨hzero, hnone⟩ | ⟨c, hres, hin, ⟨hfree, htwo⟩, hfirst⟩ := hv.table_readable.find_free_cluster_spec d
  · exact .inl ⟨hzero, fun c htwo hin hfree => hnone c hin ⟨hfree, by rwa [hnum c hin]⟩⟩
  · rw [hnum c hin] at hres htwo
    rw [hres]
    refine .inr ⟨htwo, hin, hfree, fun c' htwo' hlt hfree' => hfirst c' hlt ⟨hfree', ?_⟩⟩
    rwa [hnum c' (lt_trans hlt hin)]

/-- The cluster that the search hands out next, if any, is a cluster of the drive. -/
def NextInRange (v : Volume) (d : Disk) : Prop :=
  find_free_cluster v d ≠ 0 → v.InRange (find_free_cluster v d)

theorem Volume.Sane.find_free_isFree (hv : v.Sane) (hne : find_free_cluster v d ≠ 0) :
    IsFree v d (find_free_cluster v d) := by
  rcases hv.find_free_cluster_spec d with ⟨h0, _⟩ | ⟨_, _, hisfree, _⟩
  · exact absurd h0 hne
  · exact hisfree

/-- The clusters of the drive come first, so with one of them free the search finds one. -/
theorem Volume.Sane.find_free_of_inRange (hv : v.Sane) {c : ℕ} (hc : v.InRange c) (hfree : IsFree v d c) :
    find_free_cluster v d ≠ 0 ∧ v.InRange (find_free_cluster v d) ∧ IsFree v d (find_free_cluster v d) := by
  rcases hv.find_free_cluster_spec d with ⟨_, hnone⟩ | ⟨htwo, _, hisfree, hfirst⟩
  · exact absurd hfree (hnone c hc.1 hc.inTable)
  · have hle : find_free_cluster v d ≤ c := Nat.le_of_not_lt fun hlt => hfirst c hc.1 hlt hfree
    exact ⟨by omega, hc.of_le htwo hle, hisfree⟩

theorem isFree_congr {c : ℕ} (h : fat_word v d' c = fat_word v d c) : IsFree v d' c ↔ IsFree v d c := by
  unfold IsFree
  rw [h]

/-- The free clusters in range. -/
def spare (v : Volume) (d : Disk) : Finset ℕ :=
  (Finset.range (128 * v.bpb.fat_size_32)).filter fun x => v.InRange x ∧ IsFree v d x

theorem mem_spare {x : ℕ} : x ∈ spare v d ↔ v.InRange x ∧ IsFree v d x := by
  rw [spare, Finset.mem_filter, Finset.mem_range]
  exact and_iff_right_of_imp fun h => h.1.inTable

/-- While a free cluster is in range, the search finds one: it takes the lowest. -/
theorem Volume.Sane.find_free_of_spare (hv : v.Sane) (h : 0 < (spare v d).card) :
    find_free_cluster v d ≠ 0 ∧ v.InRange (find_free_cluster v d) ∧ IsFree v d (find_free_cluster v d) := by
  obtain ⟨x, hx⟩ := Finset.card_pos.mp h
  obtain ⟨hin, hfree⟩ := mem_spare.mp hx
  exact hv.find_free_of_inRange hin hfree

theorem two_le_card_spare {a b : ℕ} (hab : a ≠ b) (ha : v.InRange a ∧ IsFree v d a) (hb : v.InRange b ∧ IsFree v d b) :
    2 ≤ (spare v d).card := by
  have hsub : ({a, b} : Finset ℕ) ⊆ spare v d := by
    intro x hx
    obtain rfl | rfl : x = a ∨ x = b := by simpa using hx
    · exact mem_spare.mpr ha
    · exact mem_spare.mpr hb
  rw [← Finset.card_pair hab]
  exact Finset.card_le_card hsub

theorem card_spare_le (y : ℕ) (h : ∀ x, v.InRange x → x ≠ y → IsFree v d x → IsFree v d' x) :
    (spare v d).card ≤ (spare v d').card + 1 := by
  have hsub : spare v d ⊆ insert y (spare v d') := by
    intro x hx
    obtain ⟨hin, hfree⟩ := mem_spare.mp hx
    by_cases hxy : x = y
    · exact Finset.mem_insert.mpr (.inl hxy)
    · exact Finset.mem_insert_of_mem (mem_spare.mpr ⟨hin, h x hin hxy hfree⟩)
  exact (Finset.card_le_card hsub).trans (Finset.card_insert_le _ _)

/-- The next `n` clusters that the search hands out, as far as it finds any, are clusters
    of the drive. These come first in the table, so either as many of them are free or
    no word behind them is. -/
def TakesInRange (v : Volume) (d : Disk) (n : ℕ) : Prop :=
  n ≤ (spare v d).card ∨ ∀ c, 2 ≤ c → v.InTable c → IsFree v d c → v.InRange c

theorem TakesInRange.mono {m n : ℕ} (h : TakesInRange v d n) (hle : m ≤ n) : TakesInRange v d m :=
  h.imp_left hle.trans

theorem takesInRange_one (hv : v.Sane) : TakesInRange v d 1 ↔ NextInRange v d := by
  constructor
  · rintro (hspare | hall) hne
    · exact (hv.find_free_of_spare hspare).2.1
    · rcases hv.find_free_cluster_spec d with ⟨h0, _⟩ | ⟨htwo, hin, hisfree, _⟩
      · exact absurd h0 hne
      · exact hall _ htwo hin hisfree
  · intro hnext
    rcases hv.find_free_cluster_spec d with ⟨_, hnone⟩ | ⟨htwo, _, hisfree, _⟩
    · exact .inr fun c htwo hin hc => absurd hc (hnone c htwo hin)
    · exact .inl (Finset.card_pos.mpr ⟨_, mem_spare.mpr ⟨hnext (by omega), hisfree⟩⟩)

theorem TakesInRange.next {n : ℕ} (hv : v.Sane) (h : TakesInRange v d n) (hn : 0 < n) : NextInRange v d :=
  (takesInRange_one hv).mp (h.mono hn)

/-- What is left for later searches when one cluster has been taken. -/
theorem TakesInRange.take {n y : ℕ} (h : TakesInRange v d (n + 1))
    (hspare : ∀ c, v.InRange c → c ≠ y → IsFree v d c → IsFree v d' c)
    (hfree : ∀ c, v.InTable c → IsFree v d' c → IsFree v d c ∨ v.InRange c) : TakesInRange v d' n := by
  rcases h with hcard | hall
  · have hle := card_spare_le y hspare
    exact .inl (by omega)
  · exact .inr fun c htwo hin hc => (hfree c hin hc).elim (hall c htwo hin) id

theorem takesInRange_congr {n : ℕ} (hword : ∀ c, v.InTable c → fat_word v d' c = fat_word v d c) :
    TakesInRange v d' n ↔ TakesInRange v d n := by
  have hfree : ∀ c, v.InTable c → (IsFree v d' c ↔ IsFree v d c) := fun c hc => isFree_congr (hword c hc)
  have hspare : spare v d' = spare v d := by
    ext x
    rw [mem_spare, mem_spare]
    exact and_congr_right fun hx => hfree x hx.inTable
  unfold TakesInRange
  rw [hspare]
  exact or_congr_right (forall_congr' fun c => imp_congr_right fun _ => imp_congr_right fun hc => by rw [hfree c hc])

/-- A free cluster is no cell of any chain. -/
theorem Volume.Sane.link_of_free (hv : v.Sane) {c : ℕ} (hc : v.InTable c) (h : IsFree v d c) :
    get_next_cluster v d c = 0 := by
  rw [hv.get_next_cluster_eq hc]
  unfold IsFree at h
  simp [link_of_word, h]

end os_dev.fat32
