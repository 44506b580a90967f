import Mathlib.Data.List.Chain
import Mathlib.Data.List.Perm.Basic

namespace block_list

/-- A block of a heap: the number of bytes behind its header, and whether they are unused. -/
structure Block where
  size : ℕ
  free : Bool
  deriving DecidableEq

variable (header : ℕ)

/-- The bytes that consecutive blocks take, headers included. -/
def span : List Block → ℕ
  | [] => 0
  | b :: blocks => header + b.size + span blocks

/-- Address and size of the memory behind each used block, the first block being at `a`. -/
def payloads : ℕ → List Block → List (ℕ × ℕ)
  | _, [] => []
  | a, b :: blocks =>
    if b.free then payloads (a + header + b.size) blocks
    else (a + header, b.size) :: payloads (a + header + b.size) blocks

/-- The addresses of the blocks, the first being at `a`. -/
def addresses : ℕ → List Block → List ℕ
  | _, [] => []
  | a, b :: blocks => a :: addresses (a + header + b.size) blocks

/-- No two neighbours are both unused. -/
def Coalesced (blocks : List Block) : Prop := blocks.IsChain fun b c => ¬ (b.free ∧ c.free)

/-- What a request of `n` bytes makes of the unused block `b`: the rest becomes a
    block if it can hold a header and `least` bytes. -/
def carve (least n : ℕ) (b : Block) : List Block :=
  if n + header + least ≤ b.size then [⟨n, false⟩, ⟨b.size - n - header, true⟩] else [⟨b.size, false⟩]

/-- Release a block, merging it with the next one if that is unused. -/
def absorb (b : Block) : List Block → List Block
  | [] => [⟨b.size, true⟩]
  | c :: post => if c.free then ⟨b.size + header + c.size, true⟩ :: post else ⟨b.size, true⟩ :: c :: post

/-- Merge the first block of `rest` with the last block before it if that is unused. -/
def settle : List Block → List Block → List Block
  | [], rest => rest
  | [a], b :: post => if a.free then ⟨a.size + header + b.size, true⟩ :: post else a :: b :: post
  | a :: pre, rest => a :: settle pre rest

variable {header}

@[simp] theorem span_nil : span header [] = 0 := rfl

@[simp] theorem span_cons (b : Block) (blocks : List Block) :
    span header (b :: blocks) = header + b.size + span header blocks := rfl

@[simp] theorem span_append (xs ys : List Block) : span header (xs ++ ys) = span header xs + span header ys := by
  induction xs with
  | nil => simp
  | cons b xs ih => simp only [List.cons_append, span_cons, ih, Nat.add_assoc]

theorem payloads_append (a : ℕ) (xs ys : List Block) :
    payloads header a (xs ++ ys) = payloads header a xs ++ payloads header (a + span header xs) ys := by
  induction xs generalizing a with
  | nil => simp [payloads]
  | cons b xs ih =>
    have haddr : a + header + b.size + span header xs = a + span header (b :: xs) := by
      rw [span_cons]
      omega
    simp only [List.cons_append, payloads, ih, haddr]
    split <;> simp

theorem addresses_append (a : ℕ) (xs ys : List Block) :
    addresses header a (xs ++ ys) = addresses header a xs ++ addresses header (a + span header xs) ys := by
  induction xs generalizing a with
  | nil => simp [addresses]
  | cons b xs ih =>
    have haddr : a + header + b.size + span header xs = a + span header (b :: xs) := by
      rw [span_cons]
      omega
    simp only [List.cons_append, addresses, ih, haddr]

/-- A used block is behind one of the headers and lies inside the span. -/
theorem mem_payloads {a : ℕ} {blocks : List Block} {p : ℕ × ℕ} (hp : p ∈ payloads header a blocks) :
    ∃ pre b post, blocks = pre ++ b :: post ∧ b.free = false ∧ p = (a + span header pre + header, b.size) := by
  induction blocks generalizing a with
  | nil => simp [payloads] at hp
  | cons b blocks ih =>
    have htail : p ∈ payloads header (a + header + b.size) blocks →
        ∃ pre c post, b :: blocks = pre ++ c :: post ∧ c.free = false ∧
          p = (a + span header pre + header, c.size) := by
      intro hp
      obtain ⟨pre, c, post, rfl, hfree, rfl⟩ := ih hp
      refine ⟨b :: pre, c, post, rfl, hfree, ?_⟩
      rw [span_cons]
      congr 1
      omega
    rw [payloads] at hp
    split at hp
    · exact htail hp
    · obtain rfl | hp := List.mem_cons.mp hp
      · rename_i hfree
        exact ⟨[], b, blocks, rfl, by simpa using hfree, by simp⟩
      · exact htail hp

theorem mem_payloads_of_append (header a : ℕ) (pre post : List Block) {b : Block} (hused : b.free = false) :
    (a + span header pre + header, b.size) ∈ payloads header a (pre ++ b :: post) := by
  simp [payloads_append, payloads, hused]

theorem addresses_bounds {a : ℕ} {blocks : List Block} {x : ℕ} (hx : x ∈ addresses header a blocks) :
    a ≤ x ∧ x + header ≤ a + span header blocks := by
  induction blocks generalizing a with
  | nil => simp [addresses] at hx
  | cons b blocks ih =>
    rw [span_cons]
    obtain rfl | hx := List.mem_cons.mp hx
    · omega
    · have := ih hx
      omega

theorem payloads_bounds {a : ℕ} {blocks : List Block} {p : ℕ × ℕ} (hp : p ∈ payloads header a blocks) :
    a + header ≤ p.1 ∧ p.1 + p.2 ≤ a + span header blocks := by
  obtain ⟨pre, b, post, rfl, -, rfl⟩ := mem_payloads hp
  simp only [span_append, span_cons]
  omega

/-- No used memory overlaps a header. -/
theorem payload_apart_header {a : ℕ} {blocks : List Block} {p : ℕ × ℕ} {x : ℕ}
    (hp : p ∈ payloads header a blocks) (hx : x ∈ addresses header a blocks) :
    x + header ≤ p.1 ∨ p.1 + p.2 ≤ x := by
  obtain ⟨pre, b, post, rfl, -, rfl⟩ := mem_payloads hp
  rw [addresses_append, addresses] at hx
  obtain hx | hx := List.mem_append.mp hx
  · have := addresses_bounds hx
    left
    omega
  · obtain rfl | hx := List.mem_cons.mp hx
    · left
      omega
    · have := addresses_bounds hx
      right
      omega

/-- The used blocks lie one behind the other, with a header in between. -/
theorem payloads_pairwise (a : ℕ) (blocks : List Block) :
    (payloads header a blocks).Pairwise fun p q => p.1 + p.2 + header ≤ q.1 := by
  induction blocks generalizing a with
  | nil => simp [payloads]
  | cons b blocks ih =>
    rw [payloads]
    split
    · exact ih _
    · refine List.pairwise_cons.mpr ⟨fun q hq => ?_, ih _⟩
      have := payloads_bounds hq
      simp only
      omega

/-- With a header in front of each, two used blocks at one address are the same. -/
theorem payloads_fst_nodup (hpos : 0 < header) (a : ℕ) (blocks : List Block) :
    ((payloads header a blocks).map Prod.fst).Nodup := by
  rw [List.Nodup, List.pairwise_map]
  refine (payloads_pairwise a blocks).imp fun hpq => ?_
  omega

theorem span_carve (least n : ℕ) (b : Block) :
    span header (carve header least n b) = header + b.size := by
  unfold carve
  split
  · simp only [span_cons, span_nil]
    omega
  · simp

/-- The head of a carved block is used and at least as large as the request. -/
theorem carve_cases (header least : ℕ) {n : ℕ} {b : Block} (hfit : n ≤ b.size) :
    ∃ s rest, carve header least n b = ⟨s, false⟩ :: rest ∧ n ≤ s ∧
      (∀ a, payloads header a (carve header least n b) = [(a + header, s)]) := by
  unfold carve
  split
  · exact ⟨n, _, rfl, le_rfl, fun a => by simp [payloads]⟩
  · exact ⟨b.size, _, rfl, hfit, fun a => by simp [payloads]⟩

theorem Coalesced.carve {least n : ℕ} {pre post : List Block} {b : Block}
    (h : Coalesced (pre ++ b :: post)) (hfree : b.free = true) :
    Coalesced (pre ++ (carve header least n b ++ post)) := by
  unfold Coalesced at h ⊢
  obtain ⟨hpre, hrest, -⟩ := List.isChain_append.mp h
  have hpost : post.IsChain fun b c : Block => ¬ (b.free ∧ c.free) := hrest.tail
  have hhead : ∀ y ∈ post.head?, y.free = false := by
    intro y hy
    cases post with
    | nil => cases hy
    | cons c post =>
      obtain rfl : c = y := by simpa using hy
      simpa [hfree] using (List.isChain_cons_cons.mp hrest).1
  rw [block_list.carve]
  split
  · refine List.isChain_append.mpr ⟨hpre, ?_, by simp⟩
    refine List.isChain_append.mpr ⟨by simp, hpost, fun x hx y hy => ?_⟩
    simp [hhead y hy]
  · refine List.isChain_append.mpr ⟨hpre, ?_, by simp⟩
    refine List.isChain_append.mpr ⟨by simp, hpost, fun x hx y hy => ?_⟩
    simp [hhead y hy]

/-- What a release puts in the place of the block and its successors. -/
theorem absorb_cases (header : ℕ) (b : Block) (post : List Block) :
    ∃ s post', absorb header b post = ⟨s, true⟩ :: post' ∧
      header + s + span header post' = header + b.size + span header post ∧
      (∀ a, payloads header (a + header + s) post' = payloads header (a + header + b.size) post) ∧
      (Coalesced post → Coalesced (⟨s, true⟩ :: post')) := by
  cases post with
  | nil => exact ⟨b.size, [], rfl, rfl, fun a => rfl, fun _ => by simp [Coalesced]⟩
  | cons c post =>
    rw [absorb]
    split
    · rename_i hfree
      refine ⟨b.size + header + c.size, post, rfl, by rw [span_cons]; omega, fun a => ?_, fun h => ?_⟩
      · rw [payloads, if_pos hfree]
        congr 1
        omega
      · cases post with
        | nil => simp [Coalesced]
        | cons d post =>
          obtain ⟨hcd, hrest⟩ := List.isChain_cons_cons.mp h
          exact List.isChain_cons_cons.mpr ⟨by simpa [hfree] using hcd, hrest⟩
    · rename_i hfree
      refine ⟨b.size, c :: post, rfl, rfl, fun a => rfl, fun h => ?_⟩
      exact List.isChain_cons_cons.mpr ⟨by simpa using hfree, h⟩

theorem settle_append (pre : List Block) (a b : Block) (post : List Block) :
    settle header (pre ++ [a]) (b :: post) =
      pre ++ if a.free then ⟨a.size + header + b.size, true⟩ :: post else a :: b :: post := by
  induction pre with
  | nil => rfl
  | cons c pre ih =>
    have hcons : settle header (c :: (pre ++ [a])) (b :: post) = c :: settle header (pre ++ [a]) (b :: post) := by
      cases pre <;> rfl
    rw [List.cons_append, List.cons_append, hcons, ih]

/-- A whole release: the block `b` between `pre` and `post`. -/
def release (header : ℕ) (pre : List Block) (b : Block) (post : List Block) : List Block :=
  settle header pre (absorb header b post)

theorem settle_cases (header : ℕ) (pre : List Block) (s : ℕ) (post : List Block) :
    (settle header pre (⟨s, true⟩ :: post) = pre ++ ⟨s, true⟩ :: post ∧ ∀ a ∈ pre.getLast?, a.free = false) ∨
      ∃ pre' a, pre = pre' ++ [a] ∧ a.free = true ∧
        settle header pre (⟨s, true⟩ :: post) = pre' ++ ⟨a.size + header + s, true⟩ :: post := by
  obtain rfl | ⟨pre, a, rfl⟩ := List.eq_nil_or_concat' pre
  · exact .inl ⟨rfl, by simp⟩
  · rw [settle_append]
    cases hfree : a.free with
    | true => exact .inr ⟨pre, a, rfl, hfree, by simp⟩
    | false => exact .inl ⟨by simp, by simp [hfree]⟩

theorem release_ne_nil (pre : List Block) (b : Block) (post : List Block) : release header pre b post ≠ [] := by
  obtain ⟨s, post', habsorb, -⟩ := absorb_cases header b post
  rw [release, habsorb]
  obtain ⟨heq, -⟩ | ⟨pre', a, -, -, heq⟩ := settle_cases header pre s post' <;> simp [heq]

theorem span_release (pre : List Block) (b : Block) (post : List Block) :
    span header (release header pre b post) = span header (pre ++ b :: post) := by
  obtain ⟨s, post', habsorb, hspan, -⟩ := absorb_cases header b post
  rw [release, habsorb]
  obtain ⟨heq, -⟩ | ⟨pre', a, rfl, -, heq⟩ := settle_cases header pre s post'
  all_goals
    simp only [heq, span_append, span_cons, span_nil]
    omega

/-- A release takes away the block and leaves every other used block as it was. -/
theorem payloads_release (header : ℕ) {b : Block} (hused : b.free = false) (a : ℕ) (pre post : List Block) :
    (payloads header a (pre ++ b :: post)).Perm
      ((a + span header pre + header, b.size) :: payloads header a (release header pre b post)) := by
  obtain ⟨s, post', habsorb, -, hpayloads, -⟩ := absorb_cases header b post
  have hrelease : payloads header a (release header pre b post) =
      payloads header a pre ++ payloads header (a + span header pre + header + b.size) post := by
    rw [release, habsorb]
    obtain ⟨heq, -⟩ | ⟨pre', c, rfl, hfree, heq⟩ := settle_cases header pre s post'
    · rw [heq, payloads_append, payloads, if_pos rfl, hpayloads]
    · have haddr : a + span header pre' + header + (c.size + header + s) =
          a + span header (pre' ++ [c]) + header + s := by
        simp only [span_append, span_cons, span_nil]
        omega
      rw [heq, payloads_append, payloads, if_pos rfl, haddr, hpayloads, payloads_append]
      simp [payloads, hfree]
  rw [hrelease, payloads_append, payloads, if_neg (by simp [hused])]
  exact List.perm_middle

theorem Coalesced.release {pre post : List Block} {b : Block} (h : Coalesced (pre ++ b :: post)) :
    Coalesced (release header pre b post) := by
  obtain ⟨s, post', habsorb, -, -, hchain⟩ := absorb_cases header b post
  obtain ⟨hpre, hrest, -⟩ := List.isChain_append.mp h
  have hrest' : (⟨s, true⟩ :: post').IsChain fun b c : Block => ¬ (b.free ∧ c.free) := hchain hrest.tail
  rw [block_list.release, habsorb]
  obtain ⟨heq, hlast⟩ | ⟨pre', c, rfl, hfree, heq⟩ := settle_cases header pre s post'
  · rw [heq]
    refine List.isChain_append.mpr ⟨hpre, hrest', fun x hx y hy => ?_⟩
    simp [hlast x hx]
  · rw [heq]
    obtain ⟨hpre', -, hlast⟩ := List.isChain_append.mp hpre
    refine List.isChain_append.mpr ⟨hpre', ?_, fun x hx y hy => ?_⟩
    · cases post' with
      | nil => simp
      | cons d post' => exact List.isChain_cons_cons.mpr (List.isChain_cons_cons.mp hrest')
    · have hx := hlast x hx c (by simp)
      simp only [hfree, and_true] at hx
      simp [hx]

/-- Without used blocks a coalesced heap is one block. -/
theorem Coalesced.eq_singleton {blocks : List Block} (h : Coalesced blocks) (hne : blocks ≠ []) {a : ℕ}
    (hnone : payloads header a blocks = []) : ∃ s, blocks = [⟨s, true⟩] := by
  have hall : ∀ b ∈ blocks, b.free = true := by
    intro b hb
    by_contra hused
    obtain ⟨pre, post, rfl⟩ := List.append_of_mem hb
    have hmem := mem_payloads_of_append header a pre post (show b.free = false by simpa using hused)
    simp [hnone] at hmem
  match blocks, hne with
  | [b], _ => exact ⟨b.size, by rw [← hall b (by simp)]⟩
  | b :: c :: rest, _ =>
    have hbc := (List.isChain_cons_cons.mp h).1
    simp [hall b (by simp), hall c (by simp)] at hbc

/-- In a coalesced heap every run of unused blocks is one block. -/
theorem Coalesced.run_singleton {pre run post : List Block} (h : Coalesced (pre ++ run ++ post))
    (hne : run ≠ []) (hfree : ∀ b ∈ run, b.free = true) : ∃ b, run = [b] := by
  have hrun : Coalesced run := by
    obtain ⟨hleft, -, -⟩ := List.isChain_append.mp h
    exact (List.isChain_append.mp hleft).2.1
  match run, hne with
  | [b], _ => exact ⟨b, rfl⟩
  | b :: c :: rest, _ =>
    have hbc := (List.isChain_cons_cons.mp hrun).1
    simp [hfree b (by simp), hfree c (by simp)] at hbc

end block_list
