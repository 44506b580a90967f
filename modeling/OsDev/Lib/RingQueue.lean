import Mathlib.Data.ZMod.Defs
import Mathlib.Data.List.Basic

namespace ring_queue

variable {n : ℕ} [NeZero n] {β : Type} {start i j : Fin n} {k : ℕ}

/-- The slot `k` places after `start`, around the ring. -/
def place (start : Fin n) (k : ℕ) : Fin n := start + Fin.ofNat n k

/-- How many places a slot is after `start`. -/
def dist (start i : Fin n) : ℕ := (i - start).val

omit [NeZero n] in
theorem dist_lt (start i : Fin n) : dist start i < n := (i - start).isLt

theorem dist_place (start : Fin n) (hk : k < n) : dist start (place start k) = k := by
  rw [dist, place, add_sub_cancel_left]
  exact Nat.mod_eq_of_lt hk

theorem place_dist (start i : Fin n) : place start (dist start i) = i := by
  rw [place, dist, Fin.ofNat_val_eq_self, add_sub_cancel]

theorem place_zero (start : Fin n) : place start 0 = start := by
  rw [place]
  exact add_zero start

theorem dist_self (start : Fin n) : dist start start = 0 := by
  rw [dist, sub_self]
  rfl

theorem place_succ (start : Fin n) (k : ℕ) : place start (k + 1) = place (start + 1) k := by
  rw [place, place, add_assoc]
  congr 1
  apply Fin.ext
  simp only [Fin.ofNat, Fin.val_add, Fin.val_one', Nat.add_mod_mod, Nat.mod_add_mod]
  rw [Nat.add_comm]

theorem place_add_one (start : Fin n) (k : ℕ) : place start k + 1 = place start (k + 1) := by
  rw [place_succ, place, place, add_right_comm]

theorem place_inj {m : ℕ} (hk : k < n) (hm : m < n) (h : place start k = place start m) : k = m := by
  rw [← dist_place start hk, h, dist_place start hm]

/-- A slot other than the start is one place nearer to the next slot. -/
theorem dist_succ (h : i ≠ start) : dist start i = dist (start + 1) i + 1 := by
  have hpos : dist start i ≠ 0 := by
    intro hzero
    rw [← place_dist start i, hzero, place_zero] at h
    exact h rfl
  obtain ⟨d, hd⟩ := Nat.exists_eq_succ_of_ne_zero hpos
  have hlt := dist_lt start i
  have hplace := place_dist start i
  rw [hd, place_succ] at hplace
  rw [hd, ← hplace, dist_place (start + 1) (by omega)]

theorem place_self (start : Fin n) : place start n = start := by
  have hzero : Fin.ofNat n n = 0 := Fin.ext (by simp [Fin.ofNat])
  rw [place, hzero, add_zero]

/-- The slot before the start is the farthest from it. -/
theorem dist_before (h : i + 1 = start) : dist start i = n - 1 := by
  have hlt := dist_lt start i
  have hplace := place_dist start i
  have hpos : 0 < n := Nat.pos_of_ne_zero (NeZero.ne n)
  have hend : place start (n - 1) = i := by
    refine add_right_cancel (b := 1) ?_
    rw [place_add_one, Nat.sub_add_cancel hpos, place_self, h]
  rw [← hend, dist_place start (by omega)]

/-- Every other slot is one place nearer than the next one. -/
theorem dist_add_one (h : i + 1 ≠ start) : dist start (i + 1) = dist start i + 1 := by
  have hlt := dist_lt start i
  have hnext : place start (dist start i + 1) = i + 1 := by
    rw [← place_add_one, place_dist]
  have hroom : dist start i + 1 < n := by
    refine lt_of_le_of_ne hlt fun hfull => h ?_
    rw [← hnext, hfull, place_self]
  rw [← hnext, dist_place start hroom]

/-- The slots from `start` on that come before `stop`. -/
def span (start stop : Fin n) : List (Fin n) := (List.range (dist start stop)).map (place start)

theorem length_span (start stop : Fin n) : (span start stop).length = dist start stop := by
  rw [span, List.length_map, List.length_range]

theorem span_eq_nil_iff {stop : Fin n} : span start stop = [] ↔ start = stop := by
  constructor
  · intro h
    have hlen := length_span start stop
    have hplace := place_dist start stop
    rw [← hlen, h, List.length_nil, place_zero] at hplace
    exact hplace
  · rintro rfl
    rw [span, dist_self, List.range_zero, List.map_nil]

theorem not_mem_span (start stop : Fin n) : stop ∉ span start stop := by
  intro hmem
  obtain ⟨k, hk, heq⟩ := List.mem_map.mp hmem
  rw [List.mem_range] at hk
  have hlt := dist_lt start stop
  have hdist := dist_place start (show k < n by omega)
  rw [heq] at hdist
  omega

theorem span_add_one {stop : Fin n} (h : stop + 1 ≠ start) : span start (stop + 1) = span start stop ++ [stop] := by
  rw [span, dist_add_one h, List.range_succ, List.map_append, List.map_singleton, place_dist]
  rfl

theorem span_of_ne {stop : Fin n} (h : stop ≠ start) : span start stop = start :: span (start + 1) stop := by
  rw [span, dist_succ h, List.range_succ_eq_map, List.map_cons, place_zero, List.map_map]
  congr 1
  exact List.map_congr_left fun k _ => place_succ start k

/-- The marked slots are a run from `start` on, which holds the queue `q` in order. -/
structure Window (marked : Fin n → Prop) (holds : Fin n → β → Prop) (start : Fin n) (q : List β) : Prop where
  fits : q.length ≤ n
  marked_iff : ∀ i, marked i ↔ dist start i < q.length
  holds_at : ∀ k x, q[k]? = some x → holds (place start k) x

variable {marked marked' : Fin n → Prop} {holds holds' : Fin n → β → Prop} {q : List β} {x : β}

theorem Window.empty (hnone : ∀ i, ¬ marked i) (start : Fin n) : Window marked holds start [] :=
  ⟨Nat.zero_le n, fun i => iff_of_false (hnone i) (Nat.not_lt_zero _), fun _ _ h => by cases h⟩

/-- The slot behind the run is free unless the ring is full. -/
theorem Window.not_full_iff (h : Window marked holds start q) : ¬ marked (place start q.length) ↔ q.length < n := by
  rw [h.marked_iff]
  constructor
  · intro hfree
    refine lt_of_le_of_ne h.fits fun hfull => hfree ?_
    rw [hfull]
    exact dist_lt start _
  · intro hlt
    rw [dist_place start hlt]
    exact Nat.lt_irrefl _

/-- The run starts at `start` unless it is empty. -/
theorem Window.marked_start_iff (h : Window marked holds start q) : marked start ↔ q ≠ [] := by
  rw [h.marked_iff, dist_self]
  exact List.length_pos_iff

theorem Window.head (h : Window marked holds start (x :: q)) : holds start x := by
  have hhead := h.holds_at 0 x rfl
  rwa [place_zero] at hhead

/-- Marks and contents may change outside of the run. -/
theorem Window.congr (h : Window marked holds start q) (hmarked : ∀ i, marked' i ↔ marked i)
    (hholds : ∀ i y, marked i → holds i y → holds' i y) : Window marked' holds' start q := by
  refine ⟨h.fits, fun i => (hmarked i).trans (h.marked_iff i), fun k y hk => ?_⟩
  have hlt := (List.getElem?_eq_some_iff.mp hk).1
  have hfits := h.fits
  refine hholds _ y ((h.marked_iff _).mpr ?_) (h.holds_at k y hk)
  rwa [dist_place start (by omega)]

/-- Take the first element out. -/
theorem Window.pop (h : Window marked holds start (x :: q)) (hmarked : ∀ i, marked' i ↔ marked i ∧ i ≠ start)
    (hholds : ∀ i y, i ≠ start → holds i y → holds' i y) : Window marked' holds' (start + 1) q := by
  have hfits := h.fits
  rw [List.length_cons] at hfits
  refine ⟨by omega, fun i => ?_, fun k y hk => ?_⟩
  · rw [hmarked, h.marked_iff, List.length_cons]
    by_cases hi : i = start
    · subst hi
      refine iff_of_false (fun hand => hand.2 rfl) ?_
      -- the start has moved to the far end
      have hend : dist (i + 1) i = n - 1 := dist_before rfl
      omega
    · have hsucc := dist_succ hi
      rw [and_iff_left hi]
      omega
  · have hlt := (List.getElem?_eq_some_iff.mp hk).1
    have hat := h.holds_at (k + 1) y hk
    rw [place_succ] at hat
    refine hholds _ y ?_ hat
    intro hstart
    rw [← place_succ] at hstart
    have hzero : place start (k + 1) = place start 0 := hstart.trans (place_zero start).symm
    have := place_inj (by omega) (by omega) hzero
    omega

/-- Put an element behind the last one. -/
theorem Window.push (h : Window marked holds start q) (hroom : q.length < n) {slot : Fin n}
    (hslot : slot = place start q.length) (hmarked : ∀ i, marked' i ↔ marked i ∨ i = slot)
    (hholds : ∀ i y, i ≠ slot → holds i y → holds' i y) (hnew : holds' slot x) :
    Window marked' holds' start (q ++ [x]) := by
  subst hslot
  refine ⟨by rw [List.length_append]; exact hroom, fun i => ?_, fun k y hk => ?_⟩
  · rw [hmarked, h.marked_iff, List.length_append, List.length_singleton]
    constructor
    · rintro (hlt | rfl)
      · omega
      · rw [dist_place start hroom]
        omega
    · intro hlt
      obtain hlt | heq := Nat.lt_succ_iff_lt_or_eq.mp hlt
      · exact .inl hlt
      · refine .inr ?_
        rw [← heq, place_dist]
  · by_cases hlast : k < q.length
    · rw [List.getElem?_append_left hlast] at hk
      refine hholds _ y (fun heq => ?_) (h.holds_at k y hk)
      have := place_inj (by omega) hroom heq
      omega
    · rw [List.getElem?_append_right (by omega)] at hk
      obtain ⟨hlen, heq⟩ := List.getElem?_eq_some_iff.mp hk
      rw [List.length_singleton] at hlen
      obtain rfl : k = q.length := by omega
      simp only [Nat.sub_self, List.getElem_cons_zero] at heq
      rwa [← heq]

/-- The queue can be read off the ring. -/
theorem Window.read_off [DecidablePred marked] (h : Window marked holds start q) {f : Fin n → β}
    (hf : ∀ i y, holds i y → f i = y) :
    (((List.range n).map (place start)).takeWhile fun i => decide (marked i)).map f = q := by
  have hfits := h.fits
  have hsplit : (List.range n).map (place start) =
      (List.range q.length).map (place start) ++ (List.range' q.length (n - q.length)).map (place start) := by
    have hrange := List.range'_append_1 (s := 0) (m := q.length) (n := n - q.length)
    rw [Nat.zero_add, Nat.add_sub_cancel' hfits] at hrange
    rw [← List.map_append, List.range_eq_range', List.range_eq_range', hrange]
  have hfront : ∀ i ∈ (List.range q.length).map (place start), decide (marked i) = true := by
    intro i hi
    obtain ⟨k, hk, rfl⟩ := List.mem_map.mp hi
    rw [List.mem_range] at hk
    rw [decide_eq_true_iff, h.marked_iff, dist_place start (by omega)]
    exact hk
  have hback : ((List.range' q.length (n - q.length)).map (place start)).takeWhile (fun i => decide (marked i)) = [] := by
    cases hlen : n - q.length with
    | zero => rfl
    | succ m =>
      rw [List.range'_succ, List.map_cons, List.takeWhile_cons_of_neg]
      rw [decide_eq_true_iff]
      exact h.not_full_iff.mpr (by omega)
  rw [hsplit, List.takeWhile_append_of_pos hfront, hback, List.append_nil, List.map_map]
  refine List.ext_getElem (by simp) fun k hk hk' => ?_
  rw [List.getElem_map, List.getElem_range]
  exact hf _ _ (h.holds_at k _ (List.getElem?_eq_getElem hk'))

end ring_queue
