import OsDev.Fat32.Effects
import OsDev.Fat32.Ops
import OsDev.Lib.Fuel

open os_dev.ata os_dev.libc little_endian forest link_chain fuel

namespace os_dev.fat32

variable {v : Volume} {d d₁ d₂ d₃ : Disk} {all : Prop} {S T : ℕ → Prop}

/-- The data area is the same on both devices, and so are the table words of the
    clusters in `S`. -/
structure SameOn (v : Volume) (S : ℕ → Prop) (d d' : Disk) : Prop where
  data : ∀ lba, v.data_lba ≤ lba → d' lba = d lba
  word : ∀ x, v.InTable x → S x → fat_word v d' x = fat_word v d x

theorem SameOn.refl {S : ℕ → Prop} : SameOn v S d d := ⟨fun _ _ => rfl, fun _ _ _ => rfl⟩

theorem SameOn.trans {S : ℕ → Prop} (h₁ : SameOn v S d d₁) (h₂ : SameOn v S d₁ d₂) : SameOn v S d d₂ :=
  ⟨fun lba hlba => (h₂.data lba hlba).trans (h₁.data lba hlba),
    fun x hx hS => (h₂.word x hx hS).trans (h₁.word x hx hS)⟩

theorem SameOn.mono {S T : ℕ → Prop} (h : SameOn v S d d₁) (hsub : ∀ x, T x → S x) : SameOn v T d d₁ :=
  ⟨h.data, fun x hx hT => h.word x hx (hsub x hT)⟩

theorem SameOn.slot {S : ℕ → Prop} (h : SameOn v S d d₁) (k i : ℕ) : slot v d₁ k i = slot v d k i :=
  slot_congr (h.data _ (data_lba_le_data_sector _ _))

theorem SameOn.cells (hv : v.Sane) {S : ℕ → Prop} (h : SameOn v S d d₁) {c : ℕ} {l : List ℕ}
    (hl : Cells v d c l) (hsub : ∀ x ∈ l, S x) : Cells v d₁ c l :=
  hl.congr_words hv fun x hx => h.word x (hl.inRange hx).inTable (hsub x hx)

/-- Freeing one cluster. -/
theorem Volume.Sane.sameOn_free (hv : v.Sane) {c : ℕ} (hc : v.InTable c) (d : Disk) :
    SameOn v (· ≠ c) d (set_next_cluster v d c FAT32_FREE) := by
  refine ⟨fun lba hlba => hv.set_next_cluster_data hc d _ hlba, fun x _ hne => ?_⟩
  rw [hv.fat_word_set_next hc (by decide), if_neg hne]

/-- Only table words of the clusters in `S` differ on the second device, and if `all` holds these are cleared there. -/
structure Clears (v : Volume) (all : Prop) (S : ℕ → Prop) (d d' : Disk) : Prop where
  data : ∀ lba, v.data_lba ≤ lba → d' lba = d lba
  kept : ∀ x, v.InTable x → ¬ S x → fat_word v d' x = fat_word v d x
  cleared : all → ∀ x, v.InTable x → S x → fat_word v d' x = 0

theorem Clears.nothing (hS : all → ∀ x, ¬ S x) : Clears v all S d d :=
  ⟨fun _ _ => rfl, fun _ _ _ => rfl, fun hall x _ hx => absurd hx (hS hall x)⟩

theorem Clears.congr (h : Clears v all S d d₁) (hiff : ∀ x, S x ↔ T x) : Clears v all T d d₁ :=
  ⟨h.data, fun x hx hT => h.kept x hx (mt (hiff x).mp hT), fun hall x hx hT => h.cleared hall x hx ((hiff x).mpr hT)⟩

theorem Clears.sameOn (h : Clears v all S d d₁) : SameOn v (¬ S ·) d d₁ := ⟨h.data, h.kept⟩

theorem Clears.trans (h₁ : Clears v all S d d₁) (h₂ : Clears v all T d₁ d₂) : Clears v all (fun x => S x ∨ T x) d d₂ := by
  refine ⟨fun lba hlba => (h₂.data lba hlba).trans (h₁.data lba hlba), fun x hx hST => ?_, fun hall x hx hST => ?_⟩
  · obtain ⟨hS, hT⟩ := not_or.mp hST
    exact (h₂.kept x hx hT).trans (h₁.kept x hx hS)
  · by_cases hT : T x
    · exact h₂.cleared hall x hx hT
    · exact (h₂.kept x hx hT).trans (h₁.cleared hall x hx (hST.resolve_right hT))

theorem Volume.Sane.clears_set_next (hv : v.Sane) {c : ℕ} (hc : v.InTable c) (d : Disk) :
    Clears v all (· = c) d (set_next_cluster v d c FAT32_FREE) := by
  have hsame := hv.sameOn_free hc d
  refine ⟨hsame.data, hsame.word, fun _ x hx heq => ?_⟩
  rw [hv.fat_word_set_next hc (by decide), if_pos heq]
  rfl

theorem Cells.length_le {c : ℕ} {l : List ℕ} (h : Cells v d c l) : l.length ≤ FAT32_BAD := by
  have hnodup := Chain.nodup (not_inRange_eoc (v := v)) h
  have hsub : l.toFinset ⊆ Finset.range FAT32_BAD := by
    intro x hx
    exact inRange_finite x (h.inRange (List.mem_toFinset.mp hx))
  have hcard := Finset.card_le_card hsub
  rwa [List.toFinset_card_of_nodup hnodup, Finset.card_range] at hcard

theorem free_chain_stop {fuel : ℕ} (hfuel : 0 < fuel) {c : ℕ} (hc : c = 0 ∨ c = FAT32_EOC) :
    free_chain v fuel d c = some d := by
  obtain ⟨fuel, rfl⟩ := Nat.exists_eq_succ_of_ne_zero hfuel.ne'
  rw [free_chain, if_neg]
  rcases hc with rfl | rfl <;> simp [FAT32_EOC]

/-- The freeing loop ends on a chain: it clears the words of the chain and
    nothing else. -/
theorem Volume.Sane.free_chain_spec (hv : v.Sane) {c : ℕ} {l : List ℕ} (hl : Cells v d c l) {fuel : ℕ}
    (hfuel : l.length < fuel) :
    ∃ d', free_chain v fuel d c = some d' ∧ SameOn v (· ∉ l) d d' ∧ ∀ x ∈ l, fat_word v d' x = 0 := by
  induction l generalizing c d fuel with
  | nil => cases hl
  | cons a l ih =>
    have hnodup := Chain.nodup (not_inRange_eoc (v := v)) hl
    have hok : v.InRange a := hl.inRange (by simp)
    obtain rfl : c = a := by cases hl <;> rfl
    obtain ⟨fuel, rfl⟩ := Nat.exists_eq_succ_of_ne_zero (Nat.zero_lt_of_lt hfuel).ne'
    have hcond : c ≠ 0 ∧ c < 0x0FFFFFF8 := ⟨hok.ne_zero, hok.lt_eoc⟩
    have hfree := hv.sameOn_free hok.inTable d
    have hzero : fat_word v (set_next_cluster v d c FAT32_FREE) c = 0 := by
      rw [hv.fat_word_set_next hok.inTable (by decide), if_pos rfl]
      rfl
    rw [free_chain, if_pos hcond]
    cases hl with
    | last _ hnext =>
      have hlink : get_next_cluster v d c = FAT32_EOC := hnext
      simp only [List.length_cons, List.length_nil] at hfuel
      rw [hlink, free_chain_stop (by omega) (.inr rfl)]
      exact ⟨_, rfl, hfree.mono (by simp), by simpa using hzero⟩
    | @step _ b _ _ hnext tail =>
      have hlink : get_next_cluster v d c = b := hnext
      simp only [List.length_cons] at hfuel
      have hout : ∀ x ∈ l, x ≠ c := by
        rintro x hx rfl
        exact (List.nodup_cons.mp hnodup).1 hx
      have htail : Cells v (set_next_cluster v d c FAT32_FREE) b l := hfree.cells hv tail hout
      obtain ⟨d', heq, hsame, hclear⟩ := ih htail (show l.length < fuel by omega)
      refine ⟨d', by rw [hlink]; exact heq, ?_, ?_⟩
      · exact (hfree.mono (by simp +contextual)).trans (hsame.mono (by simp +contextual))
      · intro x hx
        rcases List.mem_cons.mp hx with rfl | hx
        · exact (hsame.word x hok.inTable fun hmem => hout x hmem rfl).trans hzero
        · exact hclear x hx

/-- The clusters of the subtree that slot `t` names. -/
abbrev BelowCell (v : Volume) (d : Disk) (t : ℕ × ℕ) (x : ℕ) : Prop :=
  (view v d).BelowCell (LiveDir v d) t x

/-- The clusters of the directory `y` and of everything below it. -/
def TreeCell (v : Volume) (d : Disk) (y x : ℕ) : Prop :=
  (∃ l, Cells v d y l ∧ x ∈ l) ∨ ∃ t b c, Lists v d y t.1 t.2 b c ∧ BelowCell v d t x

/-- What the removal of the directory `y` still relies on: the clusters `rest` of
    its own chain and the subtrees of the slots in `todo`. -/
def Pending (v : Volume) (d : Disk) (y : ℕ) (rest : List ℕ) (todo : ℕ × ℕ → Prop) (x : ℕ) : Prop :=
  x ∈ rest ∨ ∃ t b c, todo t ∧ Lists v d y t.1 t.2 b c ∧ BelowCell v d t x

/-- The slots from slot `j` of cluster `k` on, and those of the clusters behind it. -/
def SlotsFrom (k j : ℕ) (behind : List ℕ) (t : ℕ × ℕ) : Prop := t.1 ∈ behind ∨ t.1 = k ∧ j ≤ t.2

theorem Pending.mono {y : ℕ} {rest rest' : List ℕ} {todo todo' : ℕ × ℕ → Prop}
    (hrest : ∀ x ∈ rest', x ∈ rest) (htodo : ∀ t, todo' t → todo t) {x : ℕ}
    (h : Pending v d y rest' todo' x) : Pending v d y rest todo x := by
  rcases h with hx | ⟨t, b, c, ht, hrest'⟩
  · exact .inl (hrest x hx)
  · exact .inr ⟨t, b, c, htodo t ht, hrest'⟩

theorem Pending.treeCell {y x : ℕ} {l rest : List ℕ} {todo : ℕ × ℕ → Prop} (hl : Cells v d y l)
    (hrest : ∀ x ∈ rest, x ∈ l) (h : Pending v d y rest todo x) : TreeCell v d y x := by
  rcases h with hx | ⟨t, b, c, _, hlists, hx⟩
  · exact .inl ⟨l, hl, hrest x hx⟩
  · exact .inr ⟨t, b, c, hlists, hx⟩

/-- The subtree of a directory lies below the slot that names it. -/
theorem Lists.below_of_treeCell {p y x : ℕ} {t : ℕ × ℕ} (h : Lists v d p t.1 t.2 true y)
    (hx : TreeCell v d y x) : BelowCell v d t x := by
  rcases hx with ⟨l, hl, hx⟩ | ⟨t', b, c, hlists, hbelow⟩
  · exact h.belowCell_self hl hx
  · exact h.belowCell_of_child hlists hbelow

/-- The specification of a procedure `rm` that removes the directory `z`. -/
def Removes (v : Volume) (d : Disk) (rm : Disk → ℕ → Option Disk) (z : ℕ) : Prop :=
  ∀ d₁, SameOn v (TreeCell v d z) d d₁ → ∃ d₂, rm d₁ z = some d₂ ∧ SameOn v (¬ TreeCell v d z ·) d₁ d₂

/-- The same with what becomes of the table words of the subtree. -/
def ClearsTree (v : Volume) (d : Disk) (all : Prop) (rm : Disk → ℕ → Option Disk) (z : ℕ) : Prop :=
  ∀ d₁, SameOn v (TreeCell v d z) d d₁ → ∃ d₂, rm d₁ z = some d₂ ∧ Clears v all (TreeCell v d z) d₁ d₂

theorem ClearsTree.removes {rm : Disk → ℕ → Option Disk} {z : ℕ} (h : ClearsTree v d all rm z) : Removes v d rm z := by
  intro d₁ hsame
  obtain ⟨d₂, heq, hclears⟩ := h d₁ hsame
  exact ⟨d₂, heq, hclears.sameOn⟩

/-- In no cluster of `l` an entry stands behind an end mark. -/
def EndsAtMark (v : Volume) (d : Disk) (l : List ℕ) : Prop :=
  ∀ k ∈ l, ∀ i i', i < i' → i' < slots_per_cluster v → (slot v d k i).name0 = 0 → (slot v d k i').name0 = 0

theorem live_lists {y k i : ℕ} {l : List ℕ} (hy : LiveDir v d y) (hl : Cells v d y l) (hk : k ∈ l)
    (hi : i < slots_per_cluster v) (hlive : (slot v d k i).isLive = true)
    (hne : (slot v d k i).first_cluster ≠ 0) :
    Lists v d y k i (slot v d k i).isDirectory (slot v d k i).first_cluster := by
  refine ⟨hy, ⟨l, hl, hk⟩, ?_⟩
  rw [view_ent_of_lt hi, named_object, if_pos ⟨hlive, hne⟩]

/-- A slot of a directory with something below it names an object. -/
theorem BelowCell.lists {y k i x : ℕ} {l : List ℕ} (h : BelowCell v d (k, i) x) (hy : LiveDir v d y)
    (hl : Cells v d y l) (hk : k ∈ l) : ∃ b c, Lists v d y k i b c := by
  obtain ⟨o, c, l', hbelow, hown, _, _⟩ := h
  rcases hbelow with rfl | ⟨z, _, _, _, hent, _, _⟩
  · obtain ⟨p, b, _, _, hent⟩ := hown
    exact ⟨b, c, hy, ⟨l, hl, hk⟩, hent⟩
  · exact ⟨true, z, hy, ⟨l, hl, hk⟩, hent⟩

/-- The subtree below a slot that names a directory is that of the directory. -/
theorem BelowCell.treeCell {p y x : ℕ} {t : ℕ × ℕ} (h : BelowCell v d t x) (hlists : Lists v d p t.1 t.2 true y) :
    TreeCell v d y x := by
  obtain ⟨o, c, l, hbelow, hown, hl, hx⟩ := h
  have hy : LiveDir v d y := LiveEntry.liveDir ⟨p, hlists⟩
  rcases hbelow with rfl | ⟨y', c', b, z, hent, hunder, hsub⟩
  · obtain ⟨p', b, _, _, hent⟩ := hown
    cases hlists.2.2.symm.trans hent
    exact .inl ⟨l, hl, hx⟩
  · cases hlists.2.2.symm.trans hent
    rcases hunder.head with rfl | ⟨k, ly, i, y', hly, hk, hent', hunder'⟩
    · exact .inr ⟨o, b, z, hsub, o, c, l, .inl rfl, hown, hl, hx⟩
    · exact .inr ⟨(k, i), true, y', ⟨hy, ⟨ly, hly, hk⟩, hent'⟩, o, c, l,
        .inr ⟨y', c', b, z, hent', hunder', hsub⟩, hown, hl, hx⟩

theorem Lists.belowCell_iff {p y x : ℕ} {t : ℕ × ℕ} (h : Lists v d p t.1 t.2 true y) :
    BelowCell v d t x ↔ TreeCell v d y x :=
  ⟨fun hx => hx.treeCell h, fun hx => h.below_of_treeCell hx⟩

/-- Below a slot that names a file lie the clusters of the file only. -/
theorem Lists.belowCell_file_iff {p y x : ℕ} {t : ℕ × ℕ} {l : List ℕ} (h : Lists v d p t.1 t.2 false y)
    (hl : Cells v d y l) : BelowCell v d t x ↔ x ∈ l := by
  refine ⟨?_, fun hx => h.belowCell_self hl hx⟩
  rintro ⟨o, c, l', hbelow, hown, hl', hx⟩
  rcases hbelow with rfl | ⟨y', _, _, _, hent, _, _⟩
  · obtain ⟨p', b, _, _, hent⟩ := hown
    cases h.2.2.symm.trans hent
    rwa [hl.unique hl']
  · cases h.2.2.symm.trans hent

/-- The clusters below those slots of cluster `k` that are in `P`. -/
def SlotCells (v : Volume) (d : Disk) (k : ℕ) (P : ℕ → Prop) (x : ℕ) : Prop :=
  ∃ i, P i ∧ BelowCell v d (k, i) x

/-- What touches only the subtree of slot `j` of cluster `k` leaves alone what the
    removal still relies on behind that slot. -/
theorem Pending.sameOn_below (h : WellFormed v d) {y k j : ℕ} {l behind : List ℕ} (hy : LiveDir v d y)
    (hl : Cells v d y l) (hrest : ∀ x ∈ k :: behind, x ∈ l) (hk : k ∉ behind)
    (hsame : SameOn v (Pending v d y (k :: behind) (SlotsFrom k (j + 1) behind)) d d₁)
    (hkeep : SameOn v (¬ BelowCell v d (k, j) ·) d₁ d₂) :
    SameOn v (Pending v d y (k :: behind) (SlotsFrom k (j + 1) behind)) d d₂ := by
  obtain ⟨depth, hforest⟩ := h.exists_forest
  refine hsame.trans (hkeep.mono ?_)
  rintro x (hx | ⟨t, b, c, ht, hother, hx⟩) hbelow
  · obtain ⟨b, c, hsub⟩ := hbelow.lists hy hl (hrest k (by simp))
    exact hforest.not_belowCell_of_dir hsub hl (hrest x hx) hbelow
  · obtain ⟨b', c', hsub⟩ := hbelow.lists hy hl (hrest k (by simp))
    refine hforest.belowCell_disjoint hother hsub ?_ hx hbelow
    rintro rfl
    rcases ht with ht | ⟨_, ht⟩
    · exact hk ht
    · simp only at ht
      omega

/-- Freeing the cluster `k` of the directory touches nothing that the rest of the
    removal relies on. -/
theorem Pending.sameOn_free (h : WellFormed v d) {y k : ℕ} {l behind : List ℕ} (hl : Cells v d y l)
    (hk : k ∈ l) (hbehind : k ∉ behind)
    (hsame : SameOn v (Pending v d y (k :: behind) (fun t => t.1 ∈ behind)) d d₁) :
    SameOn v (Pending v d y behind (fun t => t.1 ∈ behind)) d (set_next_cluster v d₁ k FAT32_FREE) := by
  obtain ⟨depth, hforest⟩ := h.exists_forest
  refine (hsame.mono fun x hx => hx.mono (by simp +contextual) fun t ht => ht).trans
    ((h.sane.sameOn_free (hl.inRange hk).inTable d₁).mono ?_)
  rintro x (hx | ⟨t, b, c, _, hlists, hx⟩) rfl
  · exact hbehind hx
  · exact hforest.not_belowCell_of_dir hlists hl hk hx

section Remove

variable (h : WellFormed v d) {y : ℕ} {l : List ℕ} (hy : LiveDir v d y) (hl : Cells v d y l)
  {fuel : ℕ} (hfuel : FAT32_BAD < fuel) {rm : Disk → ℕ → Option Disk}
  (hzero : ∀ d₁, rm d₁ 0 = some d₁)
  (hrm : ∀ k i z, Lists v d y k i true z → ClearsTree v d all rm z)

include h hy hl hfuel hzero hrm

/-- One live entry: the clusters of its subtree are freed, and no others. -/
theorem rm_entry_spec {k i : ℕ} (hk : k ∈ l) (hi : i < slots_per_cluster v)
    (hlive : (slot v d k i).isLive = true) (hsame : SameOn v (BelowCell v d (k, i)) d d₁) :
    ∃ d₂, rm_entry v fuel rm d₁ (slot v d k i) = some d₂ ∧ Clears v all (BelowCell v d (k, i)) d₁ d₂ := by
  unfold rm_entry
  by_cases hne : (slot v d k i).first_cluster = 0
  · rw [hne]
    refine ⟨d₁, ?_, Clears.nothing fun _ x hx => ?_⟩
    · split
      · exact hzero d₁
      · exact free_chain_stop (by omega) (.inl rfl)
    · obtain ⟨b, c, _, _, hent⟩ := hx.lists hy hl hk
      exact (named_object_some (view_ent_some hent).2).2.1 hne
  · have hlists := live_lists hy hl hk hi hlive hne
    cases hdir : (slot v d k i).isDirectory with
    | true =>
      rw [hdir] at hlists
      obtain ⟨d₂, heq, hclears⟩ := hrm k i _ hlists d₁ (hsame.mono fun x hx => hlists.below_of_treeCell hx)
      exact ⟨d₂, by simpa using heq, hclears.congr fun x => (Lists.belowCell_iff hlists).symm⟩
    | false =>
      rw [hdir] at hlists
      obtain ⟨lf, hlf⟩ := h.tidy.2.chain hlists.owns
      have hcells : Cells v d₁ (slot v d k i).first_cluster lf :=
        hsame.cells h.sane hlf fun x hx => hlists.belowCell_self hlf hx
      have hlen := hcells.length_le
      obtain ⟨d₂, heq, hkeep, hcleared⟩ := h.sane.free_chain_spec hcells (show lf.length < fuel by omega)
      refine ⟨d₂, by simpa using heq, ?_⟩
      exact Clears.congr ⟨hkeep.data, hkeep.word, fun _ x _ hx => hcleared x hx⟩
        fun x => (Lists.belowCell_file_iff hlists hlf).symm

variable (hends : all → EndsAtMark v d l)

include hends

/-- The entry loop frees the subtrees of the slots from entry `i` of the sector on. -/
theorem rm_entries_spec {k s : ℕ} {behind : List ℕ} (hrest : ∀ x ∈ k :: behind, x ∈ l)
    (hk : k ∉ behind) (hs : s < v.bpb.sectors_per_cluster) (n i : ℕ) (hn : i + n = 16) (d₁ : Disk)
    (hsame : SameOn v (Pending v d y (k :: behind) (SlotsFrom k (16 * s + i) behind)) d d₁) :
    ∃ d₂, rm_entries v fuel rm (d (data_sector v k s)) n i d₁ = some d₂ ∧
      SameOn v (Pending v d y (k :: behind) (SlotsFrom k (16 * s + 16) behind)) d d₂ ∧
      Clears v all (SlotCells v d k fun j => 16 * s + i ≤ j ∧ j < 16 * s + 16) d₁ d₂ := by
  have hmem : k ∈ l := hrest k (by simp)
  have hskip : ∀ {j j' : ℕ}, j ≤ j' → ∀ {x}, Pending v d y (k :: behind) (SlotsFrom k j' behind) x →
      Pending v d y (k :: behind) (SlotsFrom k j behind) x := by
    intro j j' hle x
    refine Pending.mono (fun _ hx => hx) ?_
    rintro t (ht | ⟨ht, hj⟩)
    · exact .inl ht
    · exact .inr ⟨ht, hle.trans hj⟩
  induction n generalizing i d₁ with
  | zero =>
    obtain rfl : i = 16 := by omega
    refine ⟨d₁, rfl, hsame, Clears.nothing fun _ => ?_⟩
    rintro x ⟨j, hj, -⟩
    omega
  | succ n ih =>
    have hi : 16 * s + i < slots_per_cluster v := slot_index_lt hs (by omega)
    have hentry := slot_eq_dir_entry (v := v) (d := d) (k := k) (j := s) (show i < 16 by omega)
    have hnext : SameOn v (Pending v d y (k :: behind) (SlotsFrom k (16 * s + (i + 1)) behind)) d d₁ :=
      hsame.mono fun x hx => hskip (by omega) hx
    have hsplit : ∀ x, (BelowCell v d (k, 16 * s + i) x ∨
        SlotCells v d k (fun j => 16 * s + (i + 1) ≤ j ∧ j < 16 * s + 16) x) ↔
        SlotCells v d k (fun j => 16 * s + i ≤ j ∧ j < 16 * s + 16) x := by
      intro x
      constructor
      · rintro (hx | ⟨j, hj, hx⟩)
        · exact ⟨_, by omega, hx⟩
        · exact ⟨j, by omega, hx⟩
      · rintro ⟨j, hj, hx⟩
        rcases Nat.eq_or_lt_of_le hj.1 with rfl | hlt
        · exact .inl hx
        · exact .inr ⟨j, by omega, hx⟩
    simp only [rm_entries, ← hentry]
    split
    case isTrue hmark =>
      refine ⟨d₁, rfl, hsame.mono fun x hx => hskip (by omega) hx, Clears.nothing fun hall => ?_⟩
      rintro x ⟨j, hj, hx⟩
      obtain ⟨b, c, _, _, hent⟩ := hx.lists hy hl hmem
      obtain ⟨hjlt, hobj⟩ := view_ent_some hent
      have hname : (slot v d k j).name0 = 0 := by
        rcases Nat.eq_or_lt_of_le hj.1 with rfl | hlt
        · exact hmark
        · exact hends hall k hmem _ _ hlt hjlt hmark
      rw [named_object_of_free (.inl hname)] at hobj
      cases hobj
    case isFalse hmark =>
      split
      case isTrue hskipped =>
        obtain ⟨d₂, heq, hpending, hclears⟩ := ih (i + 1) (by omega) d₁ hnext
        refine ⟨d₂, heq, hpending, hclears.congr fun x => ?_⟩
        rw [← hsplit x, or_iff_right]
        intro hx
        obtain ⟨b, c, _, _, hent⟩ := hx.lists hy hl hmem
        have hlive := (named_object_some (view_ent_some hent).2).1
        simp only [fat32_dir_entry_t.isLive, Bool.and_eq_true, bne_iff_ne] at hlive
        rcases hskipped with h1 | h1 | h1
        · exact hlive.1.1.2 h1
        · exact hlive.1.2 h1
        · exact hlive.2 h1
      case isFalse hlive =>
        obtain ⟨h1, h2, h3⟩ := not_or.mp hlive |>.imp id not_or.mp
        have hlive : (slot v d k (16 * s + i)).isLive = true := by
          simp [fat32_dir_entry_t.isLive, hmark, h1, h2, h3]
        obtain ⟨d₂, heq, hclears⟩ := rm_entry_spec h hy hl hfuel hzero hrm hmem hi hlive
          (hsame.mono fun x hx => by
            obtain ⟨b, c, hsub⟩ := hx.lists hy hl hmem
            exact .inr ⟨_, b, c, .inr ⟨rfl, le_rfl⟩, hsub, hx⟩)
        rw [heq]
        -- the subtrees of the other slots and the chain of the directory are disjoint from this one
        have hpending := Pending.sameOn_below h hy hl hrest hk hnext hclears.sameOn
        obtain ⟨d₃, heq₃, hpending₃, hclears₃⟩ := ih (i + 1) (by omega) d₂ hpending
        exact ⟨d₃, heq₃, hpending₃, (hclears.trans hclears₃).congr hsplit⟩

/-- The sector loop frees the subtrees of the slots from sector `s` of the cluster on. -/
theorem rm_sectors_spec {k : ℕ} {behind : List ℕ} (hrest : ∀ x ∈ k :: behind, x ∈ l) (hk : k ∉ behind)
    (n s : ℕ) (hn : s + n = v.bpb.sectors_per_cluster) (buf : Sector) (d₁ : Disk)
    (hsame : SameOn v (Pending v d y (k :: behind) (SlotsFrom k (16 * s) behind)) d d₁) :
    ∃ buf' d₂, rm_sectors v fuel rm (cluster_to_lba v k) n s buf d₁ = some (buf', d₂) ∧
      SameOn v (Pending v d y (k :: behind) (fun t => t.1 ∈ behind)) d d₂ ∧
      Clears v all (SlotCells v d k (16 * s ≤ ·)) d₁ d₂ := by
  have hmem : k ∈ l := hrest k (by simp)
  induction n generalizing s buf d₁ with
  | zero =>
    refine ⟨buf, d₁, rfl, hsame.mono fun x hx => ?_, Clears.nothing fun _ => ?_⟩
    · exact Pending.mono (fun _ hx => hx) (fun t ht => .inl ht) hx
    · rintro x ⟨j, hj, hx⟩
      obtain ⟨b, c, _, _, hent⟩ := hx.lists hy hl hmem
      have hjlt := (view_ent_some hent).1
      unfold slots_per_cluster at hjlt
      omega
  | succ n ih =>
    have hs : s < v.bpb.sectors_per_cluster := by omega
    obtain ⟨d₂, heq, hpending, hclears⟩ := rm_entries_spec h hy hl hfuel hzero hrm hends hrest hk hs 16 0 rfl d₁
      (by simpa using hsame)
    obtain ⟨buf', d₃, heq₃, hpending₃, hclears₃⟩ := ih (s + 1) (by omega) (d (data_sector v k s)) d₂
      (by simpa [Nat.mul_succ] using hpending)
    refine ⟨buf', d₃, ?_, hpending₃, (hclears.trans hclears₃).congr fun x => ?_⟩
    · simp only [rm_sectors, h.sane.read_sector (hl.inRange hmem) hs, hsame.data _ (data_lba_le_data_sector k s), heq]
      exact heq₃
    · constructor
      · rintro (⟨j, hj, hx⟩ | ⟨j, hj, hx⟩)
        · exact ⟨j, by omega, hx⟩
        · exact ⟨j, by omega, hx⟩
      · rintro ⟨j, hj, hx⟩
        rcases Nat.lt_or_ge j (16 * s + 16) with hlt | hge
        · exact .inl ⟨j, by omega, hx⟩
        · exact .inr ⟨j, by omega, hx⟩

end Remove

theorem rm_loop_stop {fuel : ℕ} (hfuel : 0 < fuel) {c : ℕ} (hc : c = 0 ∨ c = FAT32_EOC) (buf : Sector) :
    rm_loop v fuel d c buf = some d := by
  obtain ⟨fuel, rfl⟩ := Nat.exists_eq_succ_of_ne_zero hfuel.ne'
  rw [rm_loop, if_neg]
  rcases hc with rfl | rfl <;> simp

/-- A cluster of the directory leaves the subtrees of its slots and itself, and then what lies behind it. -/
theorem Pending.cons_iff {y k x : ℕ} {l behind : List ℕ} (hy : LiveDir v d y) (hl : Cells v d y l) (hk : k ∈ l) :
    ((SlotCells v d k (16 * 0 ≤ ·) x ∨ x = k) ∨ Pending v d y behind (fun t => t.1 ∈ behind) x) ↔
      Pending v d y (k :: behind) (fun t => t.1 ∈ k :: behind) x := by
  constructor
  · rintro ((⟨i, _, hx⟩ | rfl) | hx)
    · obtain ⟨b, c, hlists⟩ := hx.lists hy hl hk
      exact .inr ⟨(k, i), b, c, by simp, hlists, hx⟩
    · exact .inl (by simp)
    · exact hx.mono (by simp +contextual) (by simp +contextual)
  · rintro (hx | ⟨⟨k', i⟩, b, c, ht, hlists, hx⟩)
    · rcases List.mem_cons.mp hx with rfl | hx
      · exact .inl (.inr rfl)
      · exact .inr (.inl hx)
    · rcases List.mem_cons.mp ht with rfl | ht
      · exact .inl (.inl ⟨i, Nat.zero_le _, hx⟩)
      · exact .inr (.inr ⟨(k', i), b, c, ht, hlists, hx⟩)

/-- The cluster loop over the part `rest` of the directory's chain, when the
    recursive calls for its subdirectories meet their specification. -/
theorem rm_loop_chain (h : WellFormed v d) {y : ℕ} {l : List ℕ} (hy : LiveDir v d y) (hl : Cells v d y l)
    {n : ℕ} (hn : FAT32_BAD < n)
    (hrm : ∀ fuel ≥ n, ∀ k i z, Lists v d y k i true z → ClearsTree v d all (fun d c => rm_loop v fuel d c v.uninit) z)
    (hends : all → EndsAtMark v d l) {k : ℕ} {rest : List ℕ} (hrest : Cells v d k rest) (hsub : ∀ x ∈ rest, x ∈ l) {fuel : ℕ}
    (hfuel : n + rest.length < fuel) (buf : Sector) (d₁ : Disk)
    (hsame : SameOn v (Pending v d y rest (fun t => t.1 ∈ rest)) d d₁) :
    ∃ d₂, rm_loop v fuel d₁ k buf = some d₂ ∧ Clears v all (Pending v d y rest (fun t => t.1 ∈ rest)) d₁ d₂ := by
  induction rest generalizing k fuel buf d₁ with
  | nil => cases hrest
  | cons a behind ih =>
    have hnodup := Chain.nodup (not_inRange_eoc (v := v)) hrest
    have hok : v.InRange a := hrest.inRange (by simp)
    have hbehind : a ∉ behind := (List.nodup_cons.mp hnodup).1
    have hmem : a ∈ l := hsub a (by simp)
    obtain rfl : k = a := by cases hrest <;> rfl
    obtain ⟨fuel, rfl⟩ := Nat.exists_eq_succ_of_ne_zero (Nat.zero_lt_of_lt hfuel).ne'
    simp only [List.length_cons] at hfuel
    obtain ⟨buf₂, d₂, heq₂, hpending₂, hclears₂⟩ := rm_sectors_spec h hy hl (show FAT32_BAD < fuel by omega)
      (fun d₁ => rm_loop_stop (show 0 < fuel by omega) (.inl rfl) v.uninit) (hrm fuel (by omega)) hends hsub hbehind
      v.bpb.sectors_per_cluster 0 (Nat.zero_add _) buf d₁ (hsame.mono fun x hx => by
        refine hx.mono (fun _ hx => hx) ?_
        rintro t (ht | ⟨ht, _⟩) <;> simp [ht])
    have hlink : get_next_cluster v d₂ k = get_next_cluster v d k :=
      h.sane.link_congr hok.inTable (hpending₂.word k hok.inTable (.inl (by simp)))
    have hcond : k ≠ FAT32_EOC ∧ k ≠ FAT32_BAD ∧ k ≠ 0 := ⟨hok.ne_eoc, hok.ne_bad, hok.ne_zero⟩
    have hpending₃ := Pending.sameOn_free h hl hmem hbehind hpending₂
    have hclears₃ := hclears₂.trans (h.sane.clears_set_next hok.inTable d₂)
    rw [rm_loop, if_pos hcond, heq₂]
    cases hrest with
    | last _ hnext =>
      have hend : get_next_cluster v d₂ k = FAT32_EOC := hlink.trans hnext
      refine ⟨_, ?_, hclears₃.congr fun x => ?_⟩
      · simp only [Option.bind_eq_bind, Option.bind_some, hend]
        exact rm_loop_stop (by omega) (.inr rfl) buf₂
      · refine (or_iff_left ?_).symm.trans (Pending.cons_iff hy hl hmem)
        rintro (hx | ⟨t, b, c, ht, _⟩)
        · cases hx
        · cases ht
    | @step _ b _ _ hnext tail =>
      have hb : get_next_cluster v d₂ k = b := hlink.trans hnext
      obtain ⟨d₄, heq₄, hclears₄⟩ := ih tail (fun x hx => hsub x (by simp [hx])) (show n + behind.length < fuel by omega)
        buf₂ _ hpending₃
      refine ⟨d₄, ?_, (hclears₃.trans hclears₄).congr fun x => Pending.cons_iff hy hl hmem⟩
      simp only [Option.bind_eq_bind, Option.bind_some, hb]
      exact heq₄

/-- Everything the whole chain of the directory leads to is its subtree. -/
theorem Pending.chain_iff {y x : ℕ} {l : List ℕ} (hl : Cells v d y l) :
    Pending v d y l (fun t => t.1 ∈ l) x ↔ TreeCell v d y x := by
  refine ⟨fun hx => hx.treeCell hl fun _ hx => hx, ?_⟩
  rintro (⟨l', hl', hx⟩ | ⟨t, b, c, hlists, hx⟩)
  · rw [hl'.unique hl] at hx
    exact .inl hx
  · obtain ⟨hy, ⟨l', hl', hk⟩, hent⟩ := hlists
    rw [Cells.unique hl' hl] at hk
    exact .inr ⟨t, b, c, hk, ⟨hy, ⟨l, hl, hk⟩, hent⟩, hx⟩

/-- `recursive_rm` ends on every directory of a well-formed volume and touches only the table words of its
    subtree; it clears them all if nothing in there stands behind an end mark. -/
theorem WellFormed.rm_loop_spec (h : WellFormed v d) {depth : ℕ → ℕ}
    (hforest : (view v d).Forest (LiveDir v d) depth) {B : ℕ} (hB : ∀ c, LiveDir v d c → depth c ≤ B)
    (n y : ℕ) (hy : LiveDir v d y) (hends : all → ∀ c l, (view v d).Under y c → Cells v d c l → EndsAtMark v d l)
    (hn : B ≤ depth y + n) (fuel : ℕ) (hfuel : (n + 1) * (2 * FAT32_BAD + 2) ≤ fuel) (buf : Sector) :
    ClearsTree v d all (fun d c => rm_loop v fuel d c buf) y := by
  induction n generalizing y fuel buf with
  | zero =>
    intro d₁ hsame
    obtain ⟨l, hl⟩ := h.dir_cells hy
    have hlen := hl.length_le
    -- a directory of maximal depth has no subdirectories
    have hrm : ∀ fuel ≥ FAT32_BAD + 1, ∀ k i z, Lists v d y k i true z → ClearsTree v d all (fun d c => rm_loop v fuel d c v.uninit) z := by
      intro fuel' _ k i z hlists
      obtain ⟨hz, hdepth⟩ := hforest.sub hlists
      have := hB z hz
      omega
    obtain ⟨d₂, heq, hclears⟩ := rm_loop_chain h hy hl (Nat.lt_succ_self _) hrm (fun hall => hends hall y l .self hl) hl
      (fun _ hx => hx) (show FAT32_BAD + 1 + l.length < fuel by omega) buf d₁ (hsame.mono fun x hx => (Pending.chain_iff hl).mp hx)
    exact ⟨d₂, heq, hclears.congr fun x => Pending.chain_iff hl⟩
  | succ n ih =>
    intro d₁ hsame
    obtain ⟨l, hl⟩ := h.dir_cells hy
    have hlen := hl.length_le
    rw [Nat.succ_mul] at hfuel
    have hbig : FAT32_BAD < (n + 1) * (2 * FAT32_BAD + 2) := by
      rw [Nat.succ_mul]
      omega
    have hrm : ∀ fuel ≥ (n + 1) * (2 * FAT32_BAD + 2), ∀ k i z, Lists v d y k i true z →
        ClearsTree v d all (fun d c => rm_loop v fuel d c v.uninit) z := by
      intro fuel' hfuel' k i z hlists
      obtain ⟨hz, hdepth⟩ := hforest.sub hlists
      obtain ⟨_, ⟨ly, hly, hk⟩, hent⟩ := hlists
      exact ih z hz (fun hall c l hunder => hends hall c l ((View.Under.self.sub hly hk hent).trans hunder)) (by omega) fuel'
        hfuel' v.uninit
    obtain ⟨d₂, heq, hclears⟩ := rm_loop_chain h hy hl hbig hrm (fun hall => hends hall y l .self hl) hl (fun _ hx => hx)
      (show (n + 1) * (2 * FAT32_BAD + 2) + l.length < fuel by omega) buf d₁ (hsame.mono fun x hx => (Pending.chain_iff hl).mp hx)
    exact ⟨d₂, heq, hclears.congr fun x => Pending.chain_iff hl⟩

theorem free_chain_mono {n m c : ℕ} (hle : n ≤ m) (h : free_chain v n d c = some d₁) :
    free_chain v m d c = some d₁ := by
  induction n generalizing m d c with
  | zero => cases h
  | succ n ih =>
    obtain ⟨m, rfl⟩ := Nat.exists_eq_add_of_le' (show 1 ≤ m by omega)
    simp only [free_chain] at h ⊢
    split
    case isTrue hcond =>
      rw [if_pos hcond] at h
      exact ih (by omega) h
    case isFalse hcond =>
      rw [if_neg hcond] at h
      exact h

section Mono

variable {n m : ℕ} {rm rm' : Disk → ℕ → Option Disk} (hle : n ≤ m)
  (hrm : ∀ d c d', rm d c = some d' → rm' d c = some d')

include hle hrm

theorem rm_entries_mono {buf : Sector} {e i : ℕ} (h : rm_entries v n rm buf e i d = some d₁) :
    rm_entries v m rm' buf e i d = some d₁ := by
  induction e generalizing i d with
  | zero => exact h
  | succ e ih =>
    simp only [rm_entries] at h ⊢
    split
    case isTrue hmark =>
      rw [if_pos hmark] at h
      exact h
    case isFalse hmark =>
      rw [if_neg hmark] at h
      split
      case isTrue hskip =>
        rw [if_pos hskip] at h
        exact ih h
      case isFalse hskip =>
        rw [if_neg hskip] at h
        obtain ⟨d₂, hentry, hrest⟩ := Option.bind_eq_some_iff.mp h
        have hentry' : rm_entry v m rm' d (dir_entry buf i) = some d₂ := by
          unfold rm_entry at hentry ⊢
          split
          case isTrue hdir =>
            rw [if_pos hdir] at hentry
            exact hrm _ _ _ hentry
          case isFalse hdir =>
            rw [if_neg hdir] at hentry
            exact free_chain_mono hle hentry
        rw [hentry']
        exact ih hrest

theorem rm_sectors_mono {lba e s : ℕ} {buf : Sector} {res : Sector × Disk}
    (h : rm_sectors v n rm lba e s buf d = some res) : rm_sectors v m rm' lba e s buf d = some res := by
  induction e generalizing s buf d with
  | zero => exact h
  | succ e ih =>
    simp only [rm_sectors] at h ⊢
    obtain ⟨d₂, hentries, hrest⟩ := Option.bind_eq_some_iff.mp h
    rw [rm_entries_mono hle hrm hentries]
    exact ih hrest

end Mono

/-- More fuel does not change what the removal does. -/
theorem rm_loop_mono {n m c : ℕ} {buf : Sector} (hle : n ≤ m) (h : rm_loop v n d c buf = some d₁) :
    rm_loop v m d c buf = some d₁ := by
  induction n generalizing m d c buf d₁ with
  | zero => cases h
  | succ n ih =>
    obtain ⟨m, rfl⟩ := Nat.exists_eq_add_of_le' (show 1 ≤ m by omega)
    simp only [rm_loop] at h ⊢
    split
    case isTrue hcond =>
      rw [if_pos hcond] at h
      obtain ⟨⟨buf₂, d₂⟩, hsectors, hrest⟩ := Option.bind_eq_some_iff.mp h
      rw [rm_sectors_mono (show n ≤ m by omega) (fun d c d' hd => ih (show n ≤ m by omega) hd) hsectors]
      exact ih (by omega) hrest
    case isFalse hcond =>
      rw [if_neg hcond] at h
      exact h

theorem WellFormed.exists_clearsTree (h : WellFormed v d) {y : ℕ} (hy : LiveDir v d y)
    (hends : all → ∀ c l, (view v d).Under y c → Cells v d c l → EndsAtMark v d l) :
    ∃ fuel, ClearsTree v d all (fun d c => rm_loop v fuel d c v.uninit) y := by
  obtain ⟨depth, hforest⟩ := h.exists_forest
  obtain ⟨B, hB⟩ := hforest.bounded
  exact ⟨_, h.rm_loop_spec hforest hB B y hy hends (by omega) _ le_rfl v.uninit⟩

/-- `recursive_rm` of a live directory returns, and clears no table word outside
    the directory's subtree. -/
theorem WellFormed.recursive_rm_returns (h : WellFormed v d) {y : ℕ} (hy : LiveDir v d y) :
    ∃ d', Returns (fun fuel => recursive_rm fuel v d y) d' ∧ SameOn v (¬ TreeCell v d y ·) d d' := by
  obtain ⟨fuel, hclears⟩ := h.exists_clearsTree hy (False.elim : False → _)
  obtain ⟨d', heq, hout⟩ := hclears.removes d .refl
  exact ⟨d', Stable.returns (fun _ _ _ hle hm => rm_loop_mono hle hm) heq, hout⟩

/-- Slot `i` of cluster `k` has been marked deleted and whatever it named is gone;
    nothing else has changed. -/
structure Removed (v : Volume) (d d' : Disk) (k i : ℕ) : Prop where
  wf : WellFormed v d'
  dirs : ∀ c, LiveDir v d' c ↔
    LiveDir v d c ∧ ∀ y, (view v d).ent k i = some (true, y) → ¬ (view v d).Under y c
  lists : ∀ p' k' i' b c, Lists v d' p' k' i' b c ↔
    Lists v d p' k' i' b c ∧ ¬ (view v d).Below (LiveDir v d) (k, i) (k', i')
  cells : ∀ o c l, Owns v d o c → Cells v d c l →
    (∀ s, o = some s → ¬ (view v d).Below (LiveDir v d) (k, i) s) → Cells v d' c l
  dir_cells : ∀ c l, LiveDir v d' c → (Cells v d' c l ↔ Cells v d c l)
  deleted : (slot v d' k i).name0 = 0xE5
  slots : ∀ k', v.InRange k' → ∀ i' < slots_per_cluster v, (k', i') ≠ (k, i) →
    slot v d' k' i' = slot v d k' i'

theorem WellFormed.removed (h : WellFormed v d) {d' : Disk} {p k i : ℕ} {l : List ℕ} (hp : LiveDir v d p)
    (hl : Cells v d p l) (hk : k ∈ l) (hi : i < slots_per_cluster v)
    (hdeleted : (slot v d' k i).name0 = 0xE5)
    (hslots : ∀ k', v.InRange k' → ∀ i' < slots_per_cluster v, (k', i') ≠ (k, i) →
      slot v d' k' i' = slot v d k' i')
    (hword : ∀ x, v.InTable x → ¬ BelowCell v d (k, i) x → fat_word v d' x = fat_word v d x) :
    Removed v d d' k i := by
  have hnone := named_object_of_free (.inr hdeleted)
  have hdirSlots : ∀ k', DirCluster v d k' → ∀ i' < slots_per_cluster v, (k', i') ≠ (k, i) →
      slot v d' k' i' = slot v d k' i' :=
    fun k' hk' => hslots k' (h.inUse_of_dirCluster hk').inRange
  cases hent : (view v d).ent k i with
  | none =>
    -- the slot named nothing, so there is no subtree
    have hempty : ∀ x, ¬ BelowCell v d (k, i) x := by
      intro x hx
      obtain ⟨b, c, _, _, hsome⟩ := hx.lists hp hl hk
      rw [hent] at hsome
      cases hsome
    have hkeep : Keeps v d d' := by
      refine ⟨fun x hx => hword x hx.inRange.inTable (hempty x), fun k' hk' i' hi' => ?_⟩
      by_cases heq : (k', i') = (k, i)
      · cases heq
        rw [hnone, ← view_ent_of_lt hi, hent]
      · rw [hdirSlots k' hk' i' hi' heq]
    have hbelow : ∀ p' k' i' b c, Lists v d p' k' i' b c →
        ¬ (view v d).Below (LiveDir v d) (k, i) (k', i') := by
      rintro p' k' i' b c hlists (heq | ⟨y, _, _, _, hsome, _⟩)
      · cases heq
        have hsome := hlists.2.2
        rw [hent] at hsome
        cases hsome
      · rw [hent] at hsome
        cases hsome
    obtain ⟨hwf, hdirs⟩ := hkeep.shape h
    exact {
      wf := hwf
      dirs := by simpa [hent] using hdirs
      lists := fun p' k' i' b c => (hkeep.lists_iff h p' k' i' b c).trans
        ⟨fun hlists => ⟨hlists, hbelow p' k' i' b c hlists⟩, And.left⟩
      cells := fun o c l ho hl _ => hkeep.cells h ho hl
      dir_cells := fun c l hc => hkeep.dir_cells h ((hdirs c).mp hc)
      deleted := hdeleted
      slots := hslots }
  | some obj =>
    obtain ⟨isDir, y⟩ := obj
    have hlists : Lists v d p k i isDir y := ⟨hp, ⟨l, hl, hk⟩, hent⟩
    have hwords : ∀ x, InUse v d x → ¬ BelowCell v d (k, i) x → fat_word v d' x = fat_word v d x :=
      fun x hx => hword x hx.inRange.inTable
    obtain ⟨hwf, hdirs⟩ := remove_shape h hlists hnone hdirSlots hwords
    exact {
      wf := hwf
      dirs := by
        intro c
        rw [hdirs c]
        simp [hent]
      lists := remove_lists_iff h hlists hnone hdirSlots hwords
      cells := fun o c l ho hl hout => remove_cells h hwords ho hl hout
      dir_cells := fun c l hc => (remove_dir_cells h hlists hnone hdirSlots hwords hc).2
      deleted := hdeleted
      slots := hslots }

/-- Marking an entry deleted. -/
theorem Volume.Sane.delete_found_eq (hv : v.Sane) {k j i : ℕ} (hk : v.InRange k)
    (hj : j < v.bpb.sectors_per_cluster) (d : Disk) :
    delete_found v d (found_at v d (k, j, i)) =
      Function.update d (data_sector v k j) (mark_deleted (d (data_sector v k j)) i) := by
  simp only [delete_found, found_at, hv.write_sector hk hj]

theorem slot_delete_same {k j i : ℕ} (hi : i < 16) :
    (slot v (Function.update d (data_sector v k j) (mark_deleted (d (data_sector v k j)) i)) k
      (16 * j + i)).name0 = 0xE5 := by
  rw [slot_eq_dir_entry hi, Function.update_self]
  exact mark_deleted_name0 hi

theorem slot_delete_other {k k' j i i' : ℕ} (hk : 2 ≤ k) (hk' : 2 ≤ k') (hj : j < v.bpb.sectors_per_cluster)
    (hi' : i' < slots_per_cluster v) (hne : (k', i') ≠ (k, 16 * j + i)) :
    slot v (Function.update d (data_sector v k j) (mark_deleted (d (data_sector v k j)) i)) k' i' =
      slot v d k' i' :=
  slot_update_other hk hk' hj hi' hne fun _ hn hother => dir_entry_mark_deleted_other hn hother

end os_dev.fat32
