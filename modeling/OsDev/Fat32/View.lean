import OsDev.Lib.Subtree
import OsDev.Fat32.Alloc

open os_dev.ata os_dev.libc little_endian forest link_chain

namespace os_dev.fat32

/-- An entry in use: neither an end mark nor deleted, no long-name part, and not
    one of the dot entries of a subdirectory. -/
def fat32_dir_entry_t.isLive (e : fat32_dir_entry_t) : Bool :=
  e.name0 != 0 && e.name0 != 0xE5 && e.name0 != dot && e.attributes != FAT_ATTR_LFN

/-- What a slot contributes to the shape of the volume: an entry in use with
    clusters of its own. -/
def named_object (e : fat32_dir_entry_t) : Option (Bool × ℕ) :=
  if e.isLive = true ∧ e.first_cluster ≠ 0 then some (e.isDirectory, e.first_cluster) else none

/-- The clusters of a volume, their links, and what the directory slots name. -/
def view (v : Volume) (d : Disk) : View ℕ ℕ where
  root := v.bpb.root_cluster
  stop := FAT32_EOC
  ok := v.InRange
  link := get_next_cluster v d
  ent := fun k i => if i < slots_per_cluster v then named_object (slot v d k i) else none

/-- The clusters of the file or directory that starts at `c`. -/
abbrev Cells (v : Volume) (d : Disk) (c : ℕ) (l : List ℕ) : Prop := (view v d).Cells c l

/-- A well-formed volume: every entry in use that is reachable from the root and
    has a first cluster heads a finite chain of clusters in range up to an
    end-of-chain mark, as does the root, and no two of these chains share a cluster. -/
structure WellFormed (v : Volume) (d : Disk) : Prop where
  sane : v.Sane
  tidy : (view v d).WellFormed

/-- Slot `i` of cluster `k` is an entry in use of a directory reachable from the
    root, and `c` is its first cluster. -/
def LiveEntry (v : Volume) (d : Disk) (k i : ℕ) (isDir : Bool) (c : ℕ) : Prop :=
  ∃ parent, (view v d).Lists (view v d).Reachable parent k i isDir c

/-- `c` is the root or the first cluster of a directory reachable from it. -/
def LiveDir (v : Volume) (d : Disk) (c : ℕ) : Prop := (view v d).Reachable c

variable {v : Volume} {d d' : Disk}

theorem view_eq_update (v : Volume) (d d' : Disk) :
    view v d' = (view v d).update (get_next_cluster v d') (view v d').ent := rfl

theorem named_object_some {e : fat32_dir_entry_t} {isDir : Bool} {c : ℕ}
    (h : named_object e = some (isDir, c)) :
    e.isLive = true ∧ e.first_cluster ≠ 0 ∧ e.isDirectory = isDir ∧ e.first_cluster = c := by
  unfold named_object at h
  split at h
  case isTrue hlive =>
    cases h
    exact ⟨hlive.1, hlive.2, rfl, rfl⟩
  case isFalse => cases h

theorem view_ent_some {k i c : ℕ} {isDir : Bool} (h : (view v d).ent k i = some (isDir, c)) :
    i < slots_per_cluster v ∧ named_object (slot v d k i) = some (isDir, c) := by
  simp only [view] at h
  split at h
  case isTrue hi => exact ⟨hi, h⟩
  case isFalse => cases h

theorem view_ent_of_lt {k i : ℕ} (hi : i < slots_per_cluster v) :
    (view v d).ent k i = named_object (slot v d k i) := by
  simp [view, hi]

theorem view_ent_congr {k i : ℕ} (h : i < slots_per_cluster v → slot v d' k i = slot v d k i) :
    (view v d').ent k i = (view v d).ent k i := by
  simp only [view]
  split
  case isTrue hi => rw [h hi]
  case isFalse => rfl

theorem named_object_of_free {e : fat32_dir_entry_t} (h : e.name0 = 0 ∨ e.name0 = 0xE5) :
    named_object e = none := by
  unfold named_object fat32_dir_entry_t.isLive
  rcases h with h | h <;> simp [h]

theorem named_object_with_size (e : fat32_dir_entry_t) (size : ℕ) :
    named_object { e with file_size := size } = named_object e := rfl

theorem named_object_of_dot {e : fat32_dir_entry_t} (h : e.name0 = dot) : named_object e = none := by
  unfold named_object fat32_dir_entry_t.isLive
  simp [h]

/-- The clusters in range form a finite set. -/
theorem inRange_finite (c : ℕ) (h : v.InRange c) : c ∈ Finset.range FAT32_BAD :=
  Finset.mem_range.mpr h.2.1

theorem WellFormed.exists_forest (h : WellFormed v d) :
    ∃ depth, (view v d).Forest (LiveDir v d) depth :=
  h.tidy.exists_forest fun c hc => inRange_finite c hc

theorem Cells.inRange {c x : ℕ} {l : List ℕ} (h : Cells v d c l) (hx : x ∈ l) : v.InRange x :=
  h.ok_of_mem hx

/-- No cluster of a chain is marked free. -/
theorem Cells.not_free (hv : v.Sane) {c x : ℕ} {l : List ℕ} (h : Cells v d c l) (hx : x ∈ l) :
    ¬ IsFree v d x := by
  intro hfree
  have hlink : (view v d).link x = 0 := hv.link_of_free (h.inRange hx).inTable hfree
  exact h.next_ne hx (not_inRange_zero (v := v)) (by simp [view, FAT32_EOC]) hlink

/-- Agreement of the table on a chain keeps the chain. -/
theorem Cells.congr_words (hv : v.Sane) {c : ℕ} {l : List ℕ} (h : Cells v d c l)
    (hsame : ∀ x ∈ l, fat_word v d' x = fat_word v d x) : Cells v d' c l :=
  h.congr fun x hx => hv.link_congr (h.inRange hx).inTable (hsame x hx)

end os_dev.fat32
