import Mathlib.Data.List.Infix

namespace common_prefix

variable {α β : Type} {key : α → β} {a : α} {b : β} {first second : List α} {l : List (List α)} {p q : List β}

/-- What all the strings start with. -/
structure IsLongestCommonPrefix (S : List β → Prop) (p : List β) : Prop where
  common : ∀ s, S s → p <+: s
  longest : ∀ q, (∀ s, S s → q <+: s) → q <+: p

/-- A longest common prefix depends on the strings only. -/
theorem IsLongestCommonPrefix.unique {S : List β → Prop} (hp : IsLongestCommonPrefix S p) (hq : IsLongestCommonPrefix S q) :
    p = q := by
  have hpq := hq.longest p hp.common
  have hqp := hp.longest q hq.common
  exact hpq.eq_of_length_le hqp.length_le

/-- The common part of two strings that are compared by their keys, spelled as in the first. -/
def common [DecidableEq β] (key : α → β) : List α → List α → List α
  | a :: first, b :: second => if key a = key b then a :: common key first second else []
  | _, _ => []

variable [DecidableEq β]

theorem common_prefix_first (key : α → β) (first second : List α) : common key first second <+: first := by
  induction first generalizing second with
  | nil => exact List.prefix_refl []
  | cons a first ih =>
    cases second with
    | nil => exact List.nil_prefix
    | cons b second =>
      rw [common]
      split
      · exact List.cons_prefix_cons.mpr ⟨rfl, ih second⟩
      · exact List.nil_prefix

/-- A string of keys starts the common part exactly if it starts both. -/
theorem prefix_common_iff : q <+: (common key first second).map key ↔ q <+: first.map key ∧ q <+: second.map key := by
  induction first generalizing second q with
  | nil =>
    refine ⟨fun h => ⟨h, ?_⟩, And.left⟩
    rw [List.prefix_nil.mp h]
    exact List.nil_prefix
  | cons a first ih =>
    cases second with
    | nil =>
      refine ⟨fun h => ⟨?_, h⟩, And.right⟩
      rw [List.prefix_nil.mp h]
      exact List.nil_prefix
    | cons b second =>
      cases q with
      | nil => exact iff_of_true List.nil_prefix ⟨List.nil_prefix, List.nil_prefix⟩
      | cons c q =>
        rw [common]
        split
        · rename_i hkey
          simp only [List.map_cons, List.cons_prefix_cons, ih, ← hkey]
          exact ⟨fun h => ⟨⟨h.1, h.2.1⟩, h.1, h.2.2⟩, fun h => ⟨h.1.1, h.1.2, h.2.2⟩⟩
        · rename_i hkey
          simp only [List.map_cons, List.map_nil, List.cons_prefix_cons, List.prefix_nil, reduceCtorEq, false_iff]
          exact fun h => hkey (h.1.1.symm.trans h.2.1)

/-- The same for a string that is cut down by others, one after the other. -/
theorem prefix_foldl_common_iff :
    q <+: (l.foldl (common key) first).map key ↔ q <+: first.map key ∧ ∀ s ∈ l, q <+: s.map key := by
  induction l generalizing first with
  | nil => simp
  | cons second l ih =>
    rw [List.foldl_cons, ih, prefix_common_iff, List.forall_mem_cons, and_assoc]

theorem foldl_common_prefix_first (key : α → β) (first : List α) (l : List (List α)) : l.foldl (common key) first <+: first := by
  induction l generalizing first with
  | nil => exact List.prefix_refl first
  | cons second l ih => exact (ih (common key first second)).trans (common_prefix_first key first second)

/-- Cut down by all the others, a string is their longest common prefix. -/
theorem foldl_common_longest (first : List α) (l : List (List α)) :
    IsLongestCommonPrefix (fun s => ∃ name ∈ first :: l, name.map key = s) ((l.foldl (common key) first).map key) := by
  constructor
  · rintro s ⟨name, hname, rfl⟩
    have hboth := prefix_foldl_common_iff.mp (List.prefix_refl ((l.foldl (common key) first).map key))
    rcases List.mem_cons.mp hname with rfl | hname
    · exact hboth.1
    · exact hboth.2 name hname
  · intro q hq
    refine prefix_foldl_common_iff.mpr ⟨hq _ ⟨first, List.mem_cons_self, rfl⟩, fun s hs => ?_⟩
    exact hq _ ⟨s, List.mem_cons_of_mem first hs, rfl⟩

end common_prefix
