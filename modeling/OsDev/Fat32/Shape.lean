import OsDev.Fat32.CreateEntry

open os_dev.ata os_dev.libc little_endian forest link_chain

namespace os_dev.fat32

variable {v : Volume} {d d' : Disk}

/-- Cluster `x` belongs to the root or to a live entry. -/
def InUse (v : Volume) (d : Disk) (x : ℕ) : Prop := (view v d).Owned (LiveDir v d) x

/-- Cluster `k` belongs to a directory. -/
def DirCluster (v : Volume) (d : Disk) (k : ℕ) : Prop := (view v d).DirCell (LiveDir v d) k

theorem LiveEntry.slot_lt {k i c : ℕ} {isDir : Bool} (h : LiveEntry v d k i isDir c) :
    i < slots_per_cluster v := by
  obtain ⟨_, _, _, hent⟩ := h
  exact (view_ent_some hent).1

theorem LiveEntry.owns {k i c : ℕ} {isDir : Bool} (h : LiveEntry v d k i isDir c) :
    (view v d).Owns (LiveDir v d) (some (k, i)) c := by
  obtain ⟨parent, hlists⟩ := h
  exact hlists.owns

theorem LiveEntry.dirCluster {k i c : ℕ} {isDir : Bool} (h : LiveEntry v d k i isDir c) :
    DirCluster v d k := by
  obtain ⟨parent, hlists⟩ := h
  exact hlists.dirCell

theorem WellFormed.entry_cells (h : WellFormed v d) {k i c : ℕ} {isDir : Bool}
    (he : LiveEntry v d k i isDir c) : ∃ l, Cells v d c l := h.tidy.2.chain he.owns

theorem WellFormed.dir_cells (h : WellFormed v d) {c : ℕ} (hc : LiveDir v d c) : ∃ l, Cells v d c l := by
  obtain ⟨depth, hforest⟩ := h.exists_forest
  exact hforest.dir_chain hc

theorem liveDir_root : LiveDir v d v.bpb.root_cluster := ⟨0, .root⟩

theorem LiveEntry.liveDir {k i c : ℕ} (h : LiveEntry v d k i true c) : LiveDir v d c := by
  obtain ⟨parent, ⟨n, hreach⟩, ⟨l, hl, hk⟩, hent⟩ := h
  exact ⟨n + 1, .sub hreach hl hk hent⟩

theorem InUse.inRange {x : ℕ} (h : InUse v d x) : v.InRange x := View.Owned.ok h

theorem WellFormed.inUse_of_dirCluster (h : WellFormed v d) {k : ℕ} (hk : DirCluster v d k) : InUse v d k := by
  obtain ⟨depth, hforest⟩ := h.exists_forest
  exact hforest.owned_of_dirCell hk

/-- Clusters in use are not free. -/
theorem WellFormed.not_free (h : WellFormed v d) {x : ℕ} (hx : InUse v d x) : ¬ IsFree v d x := by
  obtain ⟨o, c, l, _, hl, hmem⟩ := hx
  exact Cells.not_free h.sane hl hmem

theorem WellFormed.not_inUse_of_free (h : WellFormed v d) {x : ℕ} (hx : IsFree v d x) : ¬ InUse v d x :=
  fun huse => h.not_free huse hx

/-- A forest over the slots of a device shows that the device is well formed,
    with the directories of the forest as its live directories. -/
theorem wellFormed_of_forest (hv : v.Sane) {D : ℕ → Prop} {depth : ℕ → ℕ}
    (h : (view v d).Forest D depth) : WellFormed v d ∧ ∀ c, LiveDir v d c ↔ D c := by
  refine ⟨⟨hv, h.wellFormed⟩, fun c => ?_⟩
  rw [h.eq_reachable]
  rfl

/-- Nothing changes in the table words of the clusters in use, nor in what the
    directory slots name. -/
structure Keeps (v : Volume) (d d' : Disk) : Prop where
  word : ∀ x, InUse v d x → fat_word v d' x = fat_word v d x
  slots : ∀ k, DirCluster v d k → ∀ i < slots_per_cluster v,
    named_object (slot v d' k i) = named_object (slot v d k i)

theorem InUse.of_cells {o : Option (ℕ × ℕ)} {c x : ℕ} {l : List ℕ}
    (ho : (view v d).Owns (LiveDir v d) o c) (hl : Cells v d c l) (hx : x ∈ l) : InUse v d x :=
  ⟨o, c, l, ho, hl, hx⟩

/-- Slot `i` of cluster `k` lies in the directory `p` and names an object at `c`. -/
abbrev Lists (v : Volume) (d : Disk) (p k i : ℕ) (isDir : Bool) (c : ℕ) : Prop :=
  (view v d).Lists (LiveDir v d) p k i isDir c

/-- The owners of the clusters: the root and the live entries. -/
abbrev Owns (v : Volume) (d : Disk) (o : Option (ℕ × ℕ)) (c : ℕ) : Prop :=
  (view v d).Owns (LiveDir v d) o c

/-- What two devices list determines what they own. -/
theorem owns_congr (hlists : ∀ p k i isDir c, Lists v d' p k i isDir c ↔ Lists v d p k i isDir c)
    (o : Option (ℕ × ℕ)) (c : ℕ) : Owns v d' o c ↔ Owns v d o c := by
  cases o with
  | none => exact Iff.rfl
  | some slot =>
    refine exists_congr fun p => exists_congr fun isDir => ?_
    exact hlists p slot.1 slot.2 isDir c

theorem WellFormed.dir_owner (h : WellFormed v d) {c : ℕ} (hc : LiveDir v d c) : ∃ o, Owns v d o c := by
  obtain ⟨depth, hforest⟩ := h.exists_forest
  obtain ⟨o, ho, _⟩ := hforest.owner hc
  exact ⟨o, ho⟩

theorem Cells.unique {c : ℕ} {l l' : List ℕ} (h : Cells v d c l) (h' : Cells v d c l') : l = l' :=
  Chain.unique (not_inRange_eoc (v := v)) h h'

theorem Keeps.ent (hkeep : Keeps v d d') {k : ℕ} (hk : DirCluster v d k) (i : ℕ) :
    (view v d').ent k i = (view v d).ent k i := by
  simp only [view]
  split
  case isTrue hi => exact hkeep.slots k hk i hi
  case isFalse => rfl

section Keeps

variable (h : WellFormed v d) (hkeep : Keeps v d d')

include h hkeep

theorem Keeps.cells {o : Option (ℕ × ℕ)} {c : ℕ} {l : List ℕ} (ho : Owns v d o c) (hl : Cells v d c l) :
    Cells v d' c l :=
  hl.congr_words h.sane fun x hx => hkeep.word x (.of_cells ho hl hx)

/-- Changes outside the clusters in use and the directory slots keep a volume
    well formed, with the same directories. -/
theorem Keeps.shape : WellFormed v d' ∧ ∀ c, LiveDir v d' c ↔ LiveDir v d c := by
  obtain ⟨depth, hforest⟩ := h.exists_forest
  have hnew : (view v d').Forest (LiveDir v d) depth := by
    rw [view_eq_update v d d']
    exact hforest.congr (fun x hx => h.sane.link_congr hx.ok.inTable (hkeep.word x hx))
      fun k i hk => hkeep.ent hk i
  exact wellFormed_of_forest h.sane hnew

theorem Keeps.dir_cells {c : ℕ} {l : List ℕ} (hc : LiveDir v d c) : Cells v d' c l ↔ Cells v d c l := by
  obtain ⟨o, ho⟩ := h.dir_owner hc
  obtain ⟨l₀, hl₀⟩ := h.dir_cells hc
  have hl₀' := hkeep.cells h ho hl₀
  constructor
  · intro hl
    rwa [hl.unique hl₀']
  · intro hl
    rwa [hl.unique hl₀]

theorem Keeps.lists_iff (p k i : ℕ) (isDir : Bool) (c : ℕ) :
    Lists v d' p k i isDir c ↔ Lists v d p k i isDir c := by
  have hdirs := (hkeep.shape h).2
  constructor
  · rintro ⟨hp, ⟨l, hl, hk⟩, hent⟩
    have hp' := (hdirs p).mp hp
    have hl' := (hkeep.dir_cells h hp').mp hl
    exact ⟨hp', ⟨l, hl', hk⟩, (hkeep.ent ⟨p, l, hp', hl', hk⟩ i).symm.trans hent⟩
  · rintro ⟨hp, ⟨l, hl, hk⟩, hent⟩
    exact ⟨(hdirs p).mpr hp, ⟨l, (hkeep.dir_cells h hp).mpr hl, hk⟩,
      (hkeep.ent ⟨p, l, hp, hl, hk⟩ i).trans hent⟩

theorem Keeps.inUse_iff (x : ℕ) : InUse v d' x ↔ InUse v d x := by
  have howns := owns_congr (hkeep.lists_iff h)
  constructor
  · rintro ⟨o, c, l, ho, hl, hx⟩
    have ho' := (howns o c).mp ho
    obtain ⟨l₀, hl₀⟩ := h.tidy.2.chain ho'
    rw [Cells.unique hl (hkeep.cells h ho' hl₀)] at hx
    exact ⟨o, c, l₀, ho', hl₀, hx⟩
  · rintro ⟨o, c, l, ho, hl, hx⟩
    exact ⟨o, c, l, (howns o c).mpr ho, hkeep.cells h ho hl, hx⟩

end Keeps

end os_dev.fat32
