import Mathlib.Data.List.Nodup
import Mathlib.Logic.Relation

namespace link_chain

variable {α : Type} {ok : α → Prop} {next next' : α → α} {stop : α}

/-- The cells visited from a head along `next` until the stop value, all of
    them acceptable. -/
inductive Chain (ok : α → Prop) (next : α → α) (stop : α) : α → List α → Prop where
  | last {a : α} (hok : ok a) (hnext : next a = stop) : Chain ok next stop a [a]
  | step {a b : α} {l : List α} (hok : ok a) (hnext : next a = b)
      (tail : Chain ok next stop b l) : Chain ok next stop a (a :: l)

theorem Chain.head_mem {a : α} {l : List α} (h : Chain ok next stop a l) : a ∈ l := by
  cases h <;> simp

theorem Chain.ok_of_mem {a x : α} {l : List α} (h : Chain ok next stop a l) (hx : x ∈ l) : ok x := by
  induction h with
  | last hok _ =>
    obtain rfl := List.mem_singleton.mp hx
    exact hok
  | step hok _ _ ih =>
    rcases List.mem_cons.mp hx with rfl | hx
    · exact hok
    · exact ih hx

theorem Chain.ok_head {a : α} {l : List α} (h : Chain ok next stop a l) : ok a :=
  h.ok_of_mem h.head_mem

/-- A head determines its chain. -/
theorem Chain.unique (hstop : ¬ ok stop) {a : α} {l l' : List α}
    (h : Chain ok next stop a l) (h' : Chain ok next stop a l') : l = l' := by
  induction h generalizing l' with
  | last _ hnext =>
    cases h' with
    | last => rfl
    | step _ hnext' tail => exact absurd (hnext.symm.trans hnext' ▸ tail.ok_head) hstop
  | step _ hnext tail ih =>
    cases h' with
    | last _ hnext' => exact absurd (hnext'.symm.trans hnext ▸ tail.ok_head) hstop
    | step _ hnext' tail' =>
      subst hnext hnext'
      rw [ih tail']

/-- A chain survives every change of the links outside it. -/
theorem Chain.congr {a : α} {l : List α} (h : Chain ok next stop a l)
    (hsame : ∀ x ∈ l, next' x = next x) : Chain ok next' stop a l := by
  induction h with
  | last hok hnext => exact .last hok ((hsame _ (by simp)).trans hnext)
  | step hok hnext _ ih =>
    exact .step hok ((hsame _ (by simp)).trans hnext) (ih fun x hx => hsame x (by simp [hx]))

/-- Every cell of a chain heads the rest of it. -/
theorem Chain.split {a x : α} {l : List α} (h : Chain ok next stop a l) (hx : x ∈ l) :
    ∃ front back, l = front ++ back ∧ Chain ok next stop x back := by
  induction h with
  | last hok hnext =>
    obtain rfl := List.mem_singleton.mp hx
    exact ⟨[], _, rfl, .last hok hnext⟩
  | step hok hnext tail ih =>
    rcases List.mem_cons.mp hx with rfl | hx
    · exact ⟨[], _, rfl, .step hok hnext tail⟩
    · obtain ⟨front, back, rfl, hback⟩ := ih hx
      exact ⟨_ :: front, back, rfl, hback⟩

/-- No chain visits a cell twice, for the second visit would never end. -/
theorem Chain.nodup (hstop : ¬ ok stop) {a : α} {l : List α} (h : Chain ok next stop a l) : l.Nodup := by
  induction h with
  | last => simp
  | step hok hnext tail ih =>
    refine List.nodup_cons.mpr ⟨fun hmem => ?_, ih⟩
    obtain ⟨front, back, rfl, hback⟩ := tail.split hmem
    have hlen := congrArg List.length (hback.unique hstop (.step hok hnext tail))
    simp only [List.length_cons, List.length_append] at hlen
    omega

/-- The link of a cell leads to the stop value or to another cell of the chain. -/
theorem Chain.next_mem {a x : α} {l : List α} (h : Chain ok next stop a l) (hx : x ∈ l) :
    next x = stop ∨ next x ∈ l := by
  obtain ⟨front, back, rfl, hback⟩ := h.split hx
  cases hback with
  | last _ hnext => exact .inl hnext
  | step _ hnext tail =>
    subst hnext
    exact .inr (by simp [tail.head_mem])

theorem Chain.next_ne {a x y : α} {l : List α} (h : Chain ok next stop a l) (hx : x ∈ l)
    (hy : ¬ ok y) (hne : y ≠ stop) : next x ≠ y := by
  rcases h.next_mem hx with hstop | hmem
  · exact fun heq => hne (heq.symm.trans hstop)
  · exact fun heq => hy (heq ▸ h.ok_of_mem hmem)

/-- Linking a new last cell behind the cell that ended the chain. -/
theorem Chain.extend (hstop : ¬ ok stop) {a x y : α} {l : List α} (h : Chain ok next stop a l)
    (hx : x ∈ l) (hlast : next x = stop) (hy : ok y)
    (hlink : next' x = y) (hend : next' y = stop)
    (hsame : ∀ z ∈ l, z ≠ x → next' z = next z) : Chain ok next' stop a (l ++ [y]) := by
  induction h with
  | last hok _ =>
    obtain rfl := List.mem_singleton.mp hx
    exact .step hok hlink (.last hy hend)
  | @step b c l hok hnext tail ih =>
    have hne : b ≠ x := by
      rintro rfl
      exact hstop (hlast.symm.trans hnext ▸ tail.ok_head)
    have hxl : x ∈ l := (List.mem_cons.mp hx).resolve_left hne.symm
    exact .step hok ((hsame b (by simp) hne).trans hnext)
      (ih hxl fun z hz hzx => hsame z (by simp [hz]) hzx)

/-- Every chain has a cell that leads to the stop value. -/
theorem Chain.exists_last {a : α} {l : List α} (h : Chain ok next stop a l) :
    ∃ x ∈ l, next x = stop := by
  induction h with
  | last _ hnext => exact ⟨_, by simp, hnext⟩
  | step _ _ _ ih =>
    obtain ⟨x, hx, hlast⟩ := ih
    exact ⟨x, by simp [hx], hlast⟩

/-- The last cell of a chain is unique. -/
theorem Chain.last_unique (hstop : ¬ ok stop) {a x y : α} {l : List α} (h : Chain ok next stop a l)
    (hx : x ∈ l) (hxlast : next x = stop) (hy : y ∈ l) (hylast : next y = stop) : x = y := by
  induction h with
  | last => exact (List.mem_singleton.mp hx).trans (List.mem_singleton.mp hy).symm
  | @step b _ _ _ hnext tail ih =>
    have hne : ∀ {z}, z = b → next z = stop → False := by
      rintro z rfl hz
      exact hstop (hz.symm.trans hnext ▸ tail.ok_head)
    have hxl := (List.mem_cons.mp hx).resolve_left fun heq => hne heq hxlast
    have hyl := (List.mem_cons.mp hy).resolve_left fun heq => hne heq hylast
    exact ih hxl hyl

/-- The links of a chain, by position; behind the last cell stands the stop value. -/
theorem Chain.next_getD {a : α} {l : List α} (h : Chain ok next stop a l) {q : ℕ} (hq : q < l.length) :
    next (l.getD q stop) = l.getD (q + 1) stop := by
  induction h generalizing q with
  | last _ hnext =>
    obtain rfl : q = 0 := by simpa using hq
    exact hnext
  | @step _ b l _ hnext tail ih =>
    cases q with
    | zero =>
      rw [List.getD_cons_zero, List.getD_cons_succ, hnext]
      cases tail <;> rfl
    | succ q => exact ih (by simpa using hq)

theorem Chain.getD_zero {a : α} {l : List α} (h : Chain ok next stop a l) : l.getD 0 stop = a := by
  cases h <;> rfl

theorem Chain.mono {ok' : α → Prop} {a : α} {l : List α} (h : Chain ok next stop a l)
    (hok : ∀ x, ok x → ok' x) : Chain ok' next stop a l := by
  induction h with
  | last ha hnext => exact .last (hok _ ha) hnext
  | step ha hnext _ ih => exact .step (hok _ ha) hnext ih

/-- A link to an acceptable cell. The links need not form a chain: they may run in circles and into each other. -/
def Leads (ok : α → Prop) (next : α → α) (a b : α) : Prop := next a = b ∧ ok b

/-- The cells that the links lead to from a cell, the cell itself among them. -/
def Reaches (ok : α → Prop) (next : α → α) : α → α → Prop := Relation.ReflTransGen (Leads ok next)

theorem reaches_of_end {a x : α} (hend : ¬ ok (next a)) : Reaches ok next a x ↔ x = a := by
  constructor
  · intro h
    obtain heq | ⟨b, ⟨rfl, hok⟩, -⟩ := Relation.ReflTransGen.cases_head_iff.mp h
    · exact heq.symm
    · exact absurd hok hend
  · rintro rfl
    exact .refl

theorem Reaches.acceptable {a x : α} (ha : ok a) (h : Reaches ok next a x) : ok x := by
  induction h with
  | refl => exact ha
  | tail _ hlink _ => exact hlink.2

section Cut

variable {a b x : α} (hsame : ∀ c, ok c → c ≠ a → next' c = next c) (hb : ok b)

include hsame hb

/-- A path that comes back to `a` goes on from there as it did from the start. -/
theorem Reaches.cut (hnext : next a = b) (h : Reaches ok next b x) : Reaches ok next' b x ∨ x = a := by
  induction h with
  | refl => exact .inl .refl
  | @tail y z hpath hlink ih =>
    by_cases hy : y = a
    · subst hy
      rw [← hlink.1, hnext]
      exact .inl .refl
    · have hok : ok y := Reaches.acceptable hb hpath
      exact .inl ((ih.resolve_right hy).tail ⟨(hsame y hok hy).trans hlink.1, hlink.2⟩)

theorem Reaches.of_cut (hcut : ¬ ok (next' a)) (h : Reaches ok next' b x) : Reaches ok next b x := by
  induction h with
  | refl => exact .refl
  | @tail y z hpath hlink ih =>
    have hy : y ≠ a := by
      rintro rfl
      exact hcut (hlink.1 ▸ hlink.2)
    exact ih.tail ⟨(hsame y (Reaches.acceptable hb hpath) hy).symm.trans hlink.1, hlink.2⟩

/-- When the link of a cell is cut, what it reached is the cell and what its successor still reaches. -/
theorem reaches_cut (hcut : ¬ ok (next' a)) (hnext : next a = b) : Reaches ok next a x ↔ x = a ∨ Reaches ok next' b x := by
  constructor
  · intro h
    obtain heq | ⟨c, ⟨hlink, -⟩, hrest⟩ := Relation.ReflTransGen.cases_head_iff.mp h
    · exact .inl heq.symm
    · rw [← hlink, hnext] at hrest
      exact (Reaches.cut hsame hb hnext hrest).symm
  · rintro (rfl | h)
    · exact .refl
    · exact .head ⟨hnext, hb⟩ (h.of_cut hsame hb hcut)

end Cut

end link_chain
