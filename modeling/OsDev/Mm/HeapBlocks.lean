import OsDev.Mm.Kmalloc

open little_endian fuel block_list

namespace os_dev.heap

/-- The header of a block of the list, with its link. -/
def header_of (b : Block) (next : ℕ) : block_header_t where
  size := b.size
  is_free := if b.free then 1 else 0
  next := next

/-- Blocks lie in memory one behind the other from address `a` on, each linked to
    the next one and the last one to `last`. -/
def Seg (mem : ℕ → UInt8) (last : ℕ) : ℕ → List Block → Prop
  | _, [] => True
  | a, b :: blocks =>
    header_at mem a = header_of b (if blocks = [] then last else a + HEADER_SIZE + b.size) ∧
      Seg mem last (a + HEADER_SIZE + b.size) blocks

variable {mem mem' : ℕ → UInt8} {last a : ℕ} {pre post blocks : List Block} {b : Block}

theorem seg_append (pre : List Block) {c : Block} :
    Seg mem last a (pre ++ c :: post) ↔
      Seg mem (a + span HEADER_SIZE pre) a pre ∧ Seg mem last (a + span HEADER_SIZE pre) (c :: post) := by
  induction pre generalizing a with
  | nil => simp [Seg]
  | cons b pre ih =>
    have haddr : a + span HEADER_SIZE (b :: pre) = a + HEADER_SIZE + b.size + span HEADER_SIZE pre := by
      rw [span_cons]
      omega
    have hlink : (if pre ++ c :: post = [] then last else a + HEADER_SIZE + b.size) =
        if pre = [] then a + HEADER_SIZE + b.size + span HEADER_SIZE pre else a + HEADER_SIZE + b.size := by
      cases pre <;> simp
    have hleft : Seg mem last a (b :: (pre ++ c :: post)) ↔
        header_at mem a = header_of b (if pre ++ c :: post = [] then last else a + HEADER_SIZE + b.size) ∧
          Seg mem last (a + HEADER_SIZE + b.size) (pre ++ c :: post) := Iff.rfl
    have hright (e : ℕ) : Seg mem e a (b :: pre) ↔
        header_at mem a = header_of b (if pre = [] then e else a + HEADER_SIZE + b.size) ∧
          Seg mem e (a + HEADER_SIZE + b.size) pre := Iff.rfl
    rw [List.cons_append, hleft, ih, hlink, hright, haddr, and_assoc]

/-- A segment is read from its headers only. -/
theorem Seg.congr (h : Seg mem last a blocks)
    (hsame : ∀ x ∈ addresses HEADER_SIZE a blocks, header_at mem' x = header_at mem x) : Seg mem' last a blocks := by
  induction blocks generalizing a with
  | nil => trivial
  | cons b blocks ih =>
    refine ⟨(hsame a (by simp [addresses])).trans h.1, ih h.2 fun x hx => hsame x ?_⟩
    simp [addresses, hx]

/-- Replace some blocks of a segment by others of the same extent. -/
theorem Seg.replace (old mid : List Block) (h : Seg mem last a (pre ++ (old ++ post))) (hold : old ≠ []) (hmid : mid ≠ [])
    (hspan : span HEADER_SIZE mid = span HEADER_SIZE old)
    (hout : ∀ y, y + HEADER_SIZE ≤ a + span HEADER_SIZE pre ∨
      a + span HEADER_SIZE pre + span HEADER_SIZE old ≤ y → header_at mem' y = header_at mem y)
    (hin : Seg mem' (if post = [] then last else a + span HEADER_SIZE pre + span HEADER_SIZE old)
      (a + span HEADER_SIZE pre) mid) : Seg mem' last a (pre ++ (mid ++ post)) := by
  obtain ⟨o, old, rfl⟩ := List.exists_cons_of_ne_nil hold
  obtain ⟨m, mid, rfl⟩ := List.exists_cons_of_ne_nil hmid
  obtain ⟨hpre, hrest⟩ := (seg_append pre).mp h
  refine (seg_append pre).mpr ⟨hpre.congr fun x hx => hout x (.inl (addresses_bounds hx).2), ?_⟩
  cases post with
  | nil => simpa using hin
  | cons p post =>
    obtain ⟨-, hpost⟩ := (seg_append (o :: old)).mp hrest
    refine (seg_append (m :: mid)).mpr ⟨by simpa [hspan] using hin, ?_⟩
    rw [hspan]
    exact hpost.congr fun x hx => hout x (.inr (addresses_bounds hx).1)

/-- The block list of a heap in memory: it starts at `heap_start` and its sizes and
    addresses fit their fields. -/
structure Represents (st : Heap) (blocks : List Block) : Prop where
  ne_nil : blocks ≠ []
  start_pos : 0 < st.heap_start
  seg : Seg st.mem 0 st.heap_start blocks
  small : span HEADER_SIZE blocks < 2 ^ 32 + HEADER_SIZE
  room : st.heap_start + span HEADER_SIZE blocks < 2 ^ 64

variable {st : Heap} {size x : ℕ}

/-- Where a search that has passed some blocks stands: at the next one, or at NULL. -/
def cursor (x : ℕ) (rest : List Block) : ℕ := if rest = [] then 0 else x

/-- The search of `kmalloc` over the blocks `rest`, the first of which is at `x`. -/
theorem kmalloc_loop_cases (size : ℕ) (hpos : 0 < x) {rest : List Block} (h : Seg mem 0 x rest) :
    ((∀ b ∈ rest, b.free = true → b.size < size) ∧
        ∀ fuel, rest.length < fuel → kmalloc_loop size mem fuel (cursor x rest) = some (0, mem)) ∨
      ∃ pre b post, rest = pre ++ b :: post ∧ (∀ c ∈ pre, c.free = true → c.size < size) ∧
        b.free = true ∧ size ≤ b.size ∧
        ∀ fuel, rest.length < fuel → kmalloc_loop size mem fuel (cursor x rest) =
          some (x + span HEADER_SIZE pre + HEADER_SIZE, take_block mem (x + span HEADER_SIZE pre) size) := by
  induction rest generalizing x with
  | nil =>
    refine .inl ⟨by simp, fun fuel hfuel => ?_⟩
    obtain ⟨fuel, rfl⟩ := Nat.exists_eq_succ_of_ne_zero (show fuel ≠ 0 by omega)
    simp [kmalloc_loop, cursor]
  | cons b rest ih =>
    have hround : ∀ fuel, kmalloc_loop size mem (fuel + 1) (cursor x (b :: rest)) =
        if b.free = true ∧ size ≤ b.size then some (x + HEADER_SIZE, take_block mem x size)
        else kmalloc_loop size mem fuel (cursor (x + HEADER_SIZE + b.size) rest) := by
      intro fuel
      rw [cursor, if_neg (List.cons_ne_nil b rest), kmalloc_loop, if_neg (by omega), h.1]
      simp only [header_of, cursor]
      by_cases hfree : b.free = true <;> simp [hfree]
    by_cases hfit : b.free = true ∧ size ≤ b.size
    · refine .inr ⟨[], b, rest, rfl, by simp, hfit.1, hfit.2, fun fuel hfuel => ?_⟩
      obtain ⟨fuel, rfl⟩ := Nat.exists_eq_succ_of_ne_zero (show fuel ≠ 0 by omega)
      rw [hround, if_pos hfit]
      rfl
    · have hskip : b.free = true → b.size < size := by
        intro hfree
        exact Nat.lt_of_not_le fun hle => hfit ⟨hfree, hle⟩
      obtain ⟨hnone, hloop⟩ | ⟨pre, c, post, rfl, hpre, hfree, hle, hloop⟩ := ih (by omega) h.2
      · refine .inl ⟨fun c hc => ?_, fun fuel hfuel => ?_⟩
        · obtain rfl | hc := List.mem_cons.mp hc
          · exact hskip
          · exact hnone c hc
        · obtain ⟨fuel, rfl⟩ := Nat.exists_eq_succ_of_ne_zero (show fuel ≠ 0 by omega)
          rw [hround, if_neg hfit]
          exact hloop fuel (by simpa using hfuel)
      · refine .inr ⟨b :: pre, c, post, rfl, fun d hd => ?_, hfree, hle, fun fuel hfuel => ?_⟩
        · obtain rfl | hd := List.mem_cons.mp hd
          · exact hskip
          · exact hpre d hd
        · obtain ⟨fuel, rfl⟩ := Nat.exists_eq_succ_of_ne_zero (show fuel ≠ 0 by omega)
          have haddr : x + span HEADER_SIZE (b :: pre) = x + HEADER_SIZE + b.size + span HEADER_SIZE pre := by
            rw [span_cons]
            omega
          rw [hround, if_neg hfit, haddr]
          exact hloop fuel (by simpa using hfuel)

/-- Where a block of the list lies and what its header holds. -/
theorem Seg.header (pre : List Block) (b : Block) (post : List Block) (h : Seg mem last a (pre ++ b :: post)) :
    header_at mem (a + span HEADER_SIZE pre) =
      header_of b (if post = [] then last else a + span HEADER_SIZE pre + HEADER_SIZE + b.size) :=
  ((seg_append pre).mp h).2.1

/-- The same for the block behind it. -/
theorem Seg.header_next (pre : List Block) (b c : Block) (post : List Block)
    (h : Seg mem last a (pre ++ b :: c :: post)) :
    header_at mem (a + span HEADER_SIZE pre + HEADER_SIZE + b.size) = header_of c
      (if post = [] then last else a + span HEADER_SIZE pre + HEADER_SIZE + b.size + HEADER_SIZE + c.size) :=
  ((seg_append pre).mp h).2.2.1

theorem Represents.bounds (h : Represents st (pre ++ b :: post)) :
    b.size < 2 ^ 32 ∧ st.heap_start + span HEADER_SIZE pre + HEADER_SIZE + b.size < 2 ^ 64 := by
  have hsmall := h.small
  have hroom := h.room
  simp only [span_append, span_cons] at hsmall hroom
  omega

theorem HEADER_SIZE_eq : HEADER_SIZE = 16 := rfl

/-- The headers after a block has been split and taken. -/
theorem take_block_split {s f n : ℕ} (h : header_at mem x = ⟨s, f, n⟩) (hs : s < 2 ^ 32) (hn : n < 2 ^ 64)
    (hx : x + HEADER_SIZE + s < 2 ^ 64) (hsplit : size + HEADER_SIZE + 16 ≤ s) :
    header_at (take_block mem x size) x = ⟨size, 0, x + HEADER_SIZE + size⟩ ∧
      header_at (take_block mem x size) (x + HEADER_SIZE + size) = ⟨s - size - HEADER_SIZE, 1, n⟩ ∧
      ∀ y, y + HEADER_SIZE ≤ x ∨ x + HEADER_SIZE + s ≤ y → header_at (take_block mem x size) y = header_at mem y := by
  have hH := HEADER_SIZE_eq
  have hxy : Apart x (x + HEADER_SIZE + size) := .inr (by omega)
  have hyx : Apart (x + HEADER_SIZE + size) x := .inl (by omega)
  -- the link of the block is read while only the new header has been written
  have hread : ∀ v, header_at (set_free (set_size mem (x + HEADER_SIZE + size) v) (x + HEADER_SIZE + size) 1) x =
      ⟨s, f, n⟩ := by
    intro v
    rw [header_set_free_apart hyx, header_set_size_apart hyx, h]
  have htake : take_block mem x size = set_free (set_next (set_size (set_next (set_free
      (set_size mem (x + HEADER_SIZE + size) (s - size - HEADER_SIZE)) (x + HEADER_SIZE + size) 1)
      (x + HEADER_SIZE + size) n) x size) x (x + HEADER_SIZE + size)) x 0 := by
    simp only [take_block, h, if_pos hsplit, hread]
  rw [htake]
  refine ⟨?_, ?_, fun y hy => ?_⟩
  · rw [header_set_free _ _ (by omega), header_set_next _ _ (by omega), header_set_size,
      Nat.mod_eq_of_lt (show size < 2 ^ 32 by omega)]
  · rw [header_set_free_apart hxy, header_set_next_apart hxy, header_set_size_apart hxy, header_set_next _ _ hn,
      header_set_free _ _ (by omega), header_set_size, Nat.mod_eq_of_lt (show s - size - HEADER_SIZE < 2 ^ 32 by omega)]
  · have hx' : Apart x y := hy.imp (by omega) (by omega)
    have hy' : Apart (x + HEADER_SIZE + size) y := hy.imp (by omega) (by omega)
    rw [header_set_free_apart hx', header_set_next_apart hx', header_set_size_apart hx', header_set_next_apart hy',
      header_set_free_apart hy', header_set_size_apart hy']

/-- Splitting and taking a free block in memory carves the list. -/
theorem take_block_seg (h : Represents st (pre ++ b :: post)) :
    Seg (take_block st.mem (st.heap_start + span HEADER_SIZE pre) size) 0 st.heap_start
      (pre ++ (carve HEADER_SIZE 16 size b ++ post)) := by
  have hH := HEADER_SIZE_eq
  obtain ⟨hsize, haddr⟩ := h.bounds
  have hheader := h.seg.header pre b post
  have hnext : (if post = [] then 0 else st.heap_start + span HEADER_SIZE pre + HEADER_SIZE + b.size) < 2 ^ 64 := by
    split <;> omega
  have hone : span HEADER_SIZE [b] = HEADER_SIZE + b.size := rfl
  refine h.seg.replace [b] _ (by simp) ?_ (by rw [span_carve, hone]) (fun y hy => ?_) ?_
  · unfold carve
    split <;> simp
  all_goals by_cases hsplit : size + HEADER_SIZE + 16 ≤ b.size
  · obtain ⟨-, -, hout⟩ := take_block_split hheader hsize hnext haddr hsplit
    exact hout y (by omega)
  · rw [take_block, hheader, header_of]
    simp only [if_neg hsplit]
    exact header_set_free_apart (hy.imp (by omega) (by omega))
  · obtain ⟨hfirst, hsecond, -⟩ := take_block_split hheader hsize hnext haddr hsplit
    rw [carve, if_pos hsplit]
    refine ⟨hfirst.trans rfl, hsecond.trans ?_, trivial⟩
    simp [header_of, hone, Nat.add_assoc]
  · rw [carve, if_neg hsplit, take_block, hheader, header_of]
    simp only [if_neg hsplit]
    refine ⟨?_, trivial⟩
    rw [header_set_free _ _ (by omega), hheader]
    simp [header_of, hone, Nat.add_assoc]

theorem carve_ne_nil (header least n : ℕ) (b : Block) : carve header least n b ≠ [] := by
  unfold carve
  split <;> simp

/-- What `kmalloc` does to the block list. -/
theorem kmalloc_cases (h : Represents st blocks) (n : ℕ) :
    ((n = 0 ∨ ∀ b ∈ blocks, b.free = true → b.size < align4 n) ∧ Returns (fun fuel => kmalloc fuel st n) (0, st)) ∨
      n ≠ 0 ∧ ∃ pre b post mem', blocks = pre ++ b :: post ∧ (∀ c ∈ pre, c.free = true → c.size < align4 n) ∧
        b.free = true ∧ align4 n ≤ b.size ∧
        Returns (fun fuel => kmalloc fuel st n)
          (st.heap_start + span HEADER_SIZE pre + HEADER_SIZE, { st with mem := mem' }) ∧
        Represents { st with mem := mem' } (pre ++ (carve HEADER_SIZE 16 (align4 n) b ++ post)) := by
  by_cases hzero : n = 0
  · refine .inl ⟨.inl hzero, Returns.of_forall fun fuel => ?_⟩
    rw [kmalloc, if_pos hzero]
  have hcursor : cursor st.heap_start blocks = st.heap_start := by
    rw [cursor, if_neg h.ne_nil]
  obtain ⟨hnone, hloop⟩ | ⟨pre, b, post, rfl, hpre, hfree, hfit, hloop⟩ :=
    kmalloc_loop_cases (align4 n) h.start_pos h.seg
  all_goals rw [hcursor] at hloop
  · refine .inl ⟨.inr hnone, Returns.of_gt blocks.length fun fuel hfuel => ?_⟩
    simp [kmalloc, hzero, hloop fuel hfuel]
  · refine .inr ⟨hzero, pre, b, post, take_block st.mem (st.heap_start + span HEADER_SIZE pre) (align4 n), rfl, hpre, hfree, hfit,
      Returns.of_gt (pre ++ b :: post).length fun fuel hfuel => ?_, ?_⟩
    · simp [kmalloc, hzero, hloop fuel hfuel]
    · have hspan : span HEADER_SIZE (pre ++ (carve HEADER_SIZE 16 (align4 n) b ++ post)) =
          span HEADER_SIZE (pre ++ b :: post) := by
        simp only [span_append, span_carve, span_cons]
      exact ⟨by simp [carve_ne_nil], h.start_pos, take_block_seg h, hspan ▸ h.small, hspan ▸ h.room⟩

/-- Writing `size` and `next` of a header, which is how a block takes over the one
    behind it. -/
theorem header_grow (mem : ℕ → UInt8) {x v n : ℕ} (hv : v < 2 ^ 32) (hn : n < 2 ^ 64) :
    header_at (set_next (set_size mem x v) x n) x = { header_at mem x with size := v, next := n } := by
  rw [header_set_next _ _ hn, header_set_size, Nat.mod_eq_of_lt hv]

theorem header_grow_apart {v n y : ℕ} (h : Apart x y) :
    header_at (set_next (set_size mem x v) x n) y = header_at mem y := by
  rw [header_set_next_apart h, header_set_size_apart h]

/-- The blocks `b` and `c` at `x` become one free block. -/
theorem Seg.join {c : Block} {mem₁ : ℕ → UInt8} (h : Seg mem 0 a (pre ++ b :: c :: post))
    (hx : x = a + span HEADER_SIZE pre) (hfree : header_at mem₁ x = { header_at mem x with is_free := 1 })
    (hsize : b.size + (HEADER_SIZE + c.size) < 2 ^ 32)
    (hroom : x + HEADER_SIZE + b.size + HEADER_SIZE + c.size < 2 ^ 64)
    (hout : ∀ y, Apart x y → header_at mem₁ y = header_at mem y) :
    Seg (set_next (set_size mem₁ x (b.size + (HEADER_SIZE + c.size))) x
        (header_at mem (x + HEADER_SIZE + b.size)).next) 0 a
      (pre ++ ⟨b.size + HEADER_SIZE + c.size, true⟩ :: post) := by
  have hH := HEADER_SIZE_eq
  have hlink : (header_at mem (x + HEADER_SIZE + b.size)).next =
      if post = [] then 0 else x + HEADER_SIZE + b.size + HEADER_SIZE + c.size := by
    rw [hx, h.header_next pre b c post, header_of]
  have hnext : (if post = [] then 0 else x + HEADER_SIZE + b.size + HEADER_SIZE + c.size) < 2 ^ 64 := by
    split <;> omega
  have hold : span HEADER_SIZE [b, c] = HEADER_SIZE + b.size + (HEADER_SIZE + c.size) := by simp
  rw [hlink]
  refine h.replace [b, c] [⟨b.size + HEADER_SIZE + c.size, true⟩] (by simp) (by simp) (by simp; omega)
    (fun y hy => ?_) ⟨?_, trivial⟩
  · have hap : Apart x y := by
      unfold Apart
      omega
    rw [header_grow_apart hap, hout y hap]
  · rw [← hx, header_grow _ hsize hnext, hfree, header_of]
    simp only [if_true, block_header_t.mk.injEq, true_and]
    refine ⟨by omega, ?_⟩
    split
    · rfl
    · omega

/-- The forward merge of `kfree` in memory. -/
theorem merge_next_seg (h : Represents st (pre ++ b :: post)) (hx : x = st.heap_start + span HEADER_SIZE pre) :
    Seg (merge_next (set_free st.mem x 1) x) 0 st.heap_start (pre ++ absorb HEADER_SIZE b post) := by
  have hH := HEADER_SIZE_eq
  obtain ⟨hsize, haddr⟩ := h.bounds
  have hheader := h.seg.header pre b post
  rw [← hx] at hheader haddr
  have hown : header_at (set_free st.mem x 1) x = { header_at st.mem x with is_free := 1 } :=
    header_set_free _ _ (by omega)
  have hout : ∀ y, Apart x y → header_at (set_free st.mem x 1) y = header_at st.mem y :=
    fun y hy => header_set_free_apart hy
  -- the block is only marked as free when no free block follows
  have hmark : Seg (set_free st.mem x 1) 0 st.heap_start (pre ++ ⟨b.size, true⟩ :: post) := by
    refine h.seg.replace [b] [⟨b.size, true⟩] (by simp) (by simp) (by simp) (fun y hy => hout y ?_) ⟨?_, trivial⟩
    · simp only [span_cons, span_nil] at hy
      unfold Apart
      omega
    · rw [← hx, hown, hheader]
      simp [header_of, Nat.add_assoc]
  cases post with
  | nil =>
    have hnext : (header_at (set_free st.mem x 1) x).next = 0 := by
      rw [hown, hheader]
      simp [header_of]
    rw [merge_next]
    simp only [hnext, ne_eq, not_true_eq_false, false_and, if_false]
    exact hmark
  | cons c post =>
    have hnext : (header_at (set_free st.mem x 1) x).next = x + HEADER_SIZE + b.size := by
      rw [hown, hheader]
      simp [header_of]
    have hc := h.seg.header_next pre b c post
    rw [← hx] at hc
    have hap : Apart x (x + HEADER_SIZE + b.size) := .inr (by omega)
    have hflag : (header_at (set_free st.mem x 1) (x + HEADER_SIZE + b.size)).is_free ≠ 0 ↔ c.free = true := by
      rw [hout _ hap, hc, header_of]
      by_cases hfree : c.free = true <;> simp [hfree]
    rw [merge_next, absorb]
    simp only [hnext, hflag]
    by_cases hfree : c.free = true
    · rw [if_pos ⟨by omega, hfree⟩, if_pos hfree, header_set_size_apart hap, hout _ hap, hown]
      have hbound := h.bounds
      have hsmall := h.small
      have hroom := h.room
      simp only [span_append, span_cons] at hsmall hroom
      have hcsize : (header_at st.mem (x + HEADER_SIZE + b.size)).size = c.size := by rw [hc, header_of]
      have hbsize : (header_at st.mem x).size = b.size := by rw [hheader, header_of]
      rw [hcsize, hbsize]
      exact h.seg.join hx hown (by omega) (by omega) hout
    · rw [if_neg (fun hand => hfree hand.2), if_neg hfree]
      exact hmark

/-- The backward search of `kfree`: it stops at the block `c` in front of `x`. -/
theorem merge_prev_walk {c : Block} (hpos : 0 < a) (h : Seg mem last a (pre ++ c :: b :: post))
    (hx : x = a + span HEADER_SIZE pre + HEADER_SIZE + c.size) (fuel : ℕ) (hfuel : pre.length < fuel) :
    merge_prev x mem fuel a =
      if c.free = true then
        some (set_next (set_size mem (a + span HEADER_SIZE pre)
          ((header_at mem (a + span HEADER_SIZE pre)).size + (HEADER_SIZE + (header_at mem x).size)))
          (a + span HEADER_SIZE pre)
          (header_at (set_size mem (a + span HEADER_SIZE pre)
            ((header_at mem (a + span HEADER_SIZE pre)).size + (HEADER_SIZE + (header_at mem x).size))) x).next)
      else some mem := by
  have hH := HEADER_SIZE_eq
  induction pre generalizing a fuel with
  | nil =>
    obtain ⟨fuel, rfl⟩ := Nat.exists_eq_succ_of_ne_zero (show fuel ≠ 0 by omega)
    simp only [span_nil, Nat.add_zero] at hx ⊢
    have hnext : (header_at mem a).next = x := by
      rw [h.1, header_of]
      simp [hx]
    have hflag : (header_at mem a).is_free ≠ 0 ↔ c.free = true := by
      rw [h.1, header_of]
      by_cases hfree : c.free = true <;> simp [hfree]
    rw [merge_prev, if_neg (by omega), if_pos hnext]
    simp only [hflag]
  | cons d pre ih =>
    obtain ⟨fuel, rfl⟩ := Nat.exists_eq_succ_of_ne_zero (show fuel ≠ 0 by omega)
    have hspan : a + span HEADER_SIZE (d :: pre) = a + HEADER_SIZE + d.size + span HEADER_SIZE pre := by
      rw [span_cons]
      omega
    have hnext : (header_at mem a).next = a + HEADER_SIZE + d.size := by
      rw [h.1, header_of]
      simp
    rw [hspan] at hx ⊢
    rw [merge_prev, if_neg (by omega), if_neg (by omega), hnext]
    exact ih (by omega) h.2 hx fuel (by simpa using hfuel)

/-- The backward merge of `kfree` in memory. -/
theorem merge_prev_seg (h : Represents st (pre ++ b :: post))
    (hx : x = st.heap_start + span HEADER_SIZE pre) :
    ∃ mem', (∀ fuel, pre.length < fuel → merge_prev x st.mem fuel st.heap_start = some mem') ∧
      Seg mem' 0 st.heap_start (settle HEADER_SIZE pre (b :: post)) := by
  have hH := HEADER_SIZE_eq
  obtain rfl | ⟨pre, c, rfl⟩ := List.eq_nil_or_concat' pre
  · refine ⟨st.mem, fun fuel hfuel => ?_, h.seg⟩
    obtain ⟨fuel, rfl⟩ := Nat.exists_eq_succ_of_ne_zero (show fuel ≠ 0 by omega)
    rw [merge_prev, if_pos (.inr (by simpa using hx.symm))]
  · have hseg : Seg st.mem 0 st.heap_start (pre ++ c :: b :: post) := by simpa using h.seg
    have hx' : x = st.heap_start + span HEADER_SIZE pre + HEADER_SIZE + c.size := by
      rw [hx, span_append, span_cons, span_nil]
      omega
    have hwalk := merge_prev_walk h.start_pos hseg hx'
    rw [settle_append]
    by_cases hc : c.free = true
    · simp only [if_pos hc] at hwalk ⊢
      refine ⟨_, fun fuel hfuel => hwalk fuel (by simp at hfuel; omega), ?_⟩
      have hsmall := h.small
      have hroom := h.room
      simp only [span_append, span_cons, span_nil] at hsmall hroom
      have hap : Apart (st.heap_start + span HEADER_SIZE pre) x := .inr (by omega)
      have hcsize : (header_at st.mem (st.heap_start + span HEADER_SIZE pre)).size = c.size := by
        rw [hseg.header pre c (b :: post), header_of]
      have hbsize : (header_at st.mem x).size = b.size := by
        rw [hx', hseg.header_next pre c b post, header_of]
      rw [header_set_size_apart hap, hcsize, hbsize, hx']
      refine hseg.join rfl ?_ (by omega) (by omega) fun y _ => rfl
      rw [hseg.header pre c (b :: post), header_of]
      simp [hc]
    · simp only [if_neg hc] at hwalk ⊢
      exact ⟨st.mem, fun fuel hfuel => hwalk fuel (by simp at hfuel; omega), hseg⟩

/-- What `kfree` does to the block list. -/
theorem kfree_spec (h : Represents st (pre ++ b :: post)) :
    ∃ mem', Returns (fun fuel => kfree fuel st (st.heap_start + span HEADER_SIZE pre + HEADER_SIZE))
        { st with mem := mem' } ∧
      Represents { st with mem := mem' } (release HEADER_SIZE pre b post) := by
  have hH := HEADER_SIZE_eq
  obtain ⟨s, post', habsorb, hspan, -⟩ := absorb_cases HEADER_SIZE b post
  have hnext := merge_next_seg h rfl
  rw [habsorb] at hnext
  have hspan' : span HEADER_SIZE (pre ++ ⟨s, true⟩ :: post') = span HEADER_SIZE (pre ++ b :: post) := by
    simp only [span_append, span_cons]
    omega
  generalize hmem : merge_next _ _ = mem₁ at hnext
  have hmerged : Represents { st with mem := mem₁ } (pre ++ ⟨s, true⟩ :: post') :=
    ⟨by simp, h.start_pos, hnext, hspan' ▸ h.small, hspan' ▸ h.room⟩
  obtain ⟨mem', hprev, hseg⟩ := merge_prev_seg hmerged rfl
  rw [← habsorb] at hseg
  refine ⟨mem', Returns.of_gt pre.length fun fuel hfuel => ?_, release_ne_nil pre b post, h.start_pos, hseg,
    span_release pre b post ▸ h.small, span_release pre b post ▸ h.room⟩
  simp only [kfree, Nat.add_sub_cancel]
  rw [if_neg (by omega), hmem, hprev fuel hfuel]
  rfl

end os_dev.heap
