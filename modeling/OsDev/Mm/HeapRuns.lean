import OsDev.Mm.HeapBlocks

open little_endian fuel block_list

namespace os_dev.heap

/-- A pointer that `kmalloc` returned and `kfree` has not seen since, with the
    request and the size its block had then. -/
structure Live where
  ptr : ℕ
  request : ℕ
  size : ℕ

inductive HeapOp where
  | malloc (size : ℕ)
  | free (ptr : ℕ)

structure HeapState where
  st : Heap
  live : List Live

/-- The live pointers after `kmalloc` has returned `ptr`. -/
def note_malloc (s : HeapState) (size ptr : ℕ) (st : Heap) : HeapState :=
  if ptr = 0 then { s with st }
  else { st, live := ⟨ptr, size, (header_at st.mem (ptr - HEADER_SIZE)).size⟩ :: s.live }

def note_free (s : HeapState) (ptr : ℕ) (st : Heap) : HeapState :=
  { st, live := s.live.filter fun l => l.ptr ≠ ptr }

/-- One call, with the record of the live pointers. -/
def heap_step (fuel : ℕ) (s : HeapState) : HeapOp → Option HeapState
  | .malloc size => (kmalloc fuel s.st size).map fun r => note_malloc s size r.1 r.2
  | .free ptr => (kfree fuel s.st ptr).map (note_free s ptr)

def heap_run (fuel : ℕ) (s : HeapState) : List HeapOp → Option HeapState
  | [] => some s
  | op :: ops => do
    let s ← heap_step fuel s op
    heap_run fuel s ops

/-- Requests stay below `limit`, and only NULL and live pointers are freed. -/
def ValidOp (limit : ℕ) (s : HeapState) : HeapOp → Prop
  | .malloc size => size < limit
  | .free ptr => ptr = 0 ∨ ∃ l ∈ s.live, l.ptr = ptr

def ValidRun (limit : ℕ) : HeapState → List HeapOp → Prop
  | _, [] => True
  | s, op :: ops => ValidOp limit s op ∧
    ∀ s', Returns (fun fuel => heap_step fuel s op) s' → ValidRun limit s' ops

/-- A heap of `size` bytes just set up as one free block, in any memory. -/
def fresh_heap (mem : ℕ → UInt8) (size : ℕ) : HeapState := ⟨init_heap mem size, []⟩

/-- The block that `kmalloc_init` sets up, with its size cut to the 32-bit field. -/
def first_block (size : ℕ) : Block := ⟨(size + 2 ^ 64 - HEADER_SIZE) % 2 ^ 32, true⟩

theorem init_heap_represents (mem : ℕ → UInt8) (size : ℕ) : Represents (init_heap mem size) [first_block size] := by
  have hlt := Nat.mod_lt (size + 2 ^ 64 - HEADER_SIZE) (show 0 < 2 ^ 32 by decide)
  refine ⟨by simp, by simp [init_heap, HEAP_START], ⟨?_, trivial⟩, ?_, ?_⟩
  · simp [init_heap, header_of, first_block]
  · simp only [span_cons, span_nil, first_block]
    omega
  · simp only [span_cons, span_nil, first_block, init_heap, HEAP_START, HEADER_SIZE] at hlt ⊢
    omega

/-- The record of the live pointers agrees with the used blocks. -/
structure Tracked (s : HeapState) (blocks : List Block) : Prop where
  rep : Represents s.st blocks
  coalesced : Coalesced blocks
  live : (s.live.map fun l => (l.ptr, l.size)).Perm (payloads HEADER_SIZE s.st.heap_start blocks)

theorem fresh_heap_tracked (mem : ℕ → UInt8) (size : ℕ) : Tracked (fresh_heap mem size) [first_block size] :=
  ⟨init_heap_represents mem size, by simp [Coalesced], by simp [fresh_heap, payloads, first_block]⟩

/-- What a call keeps: the place and extent of the heap, and what it adds. -/
structure Steps (limit : ℕ) (s s' : HeapState) (blocks blocks' : List Block) : Prop where
  tracked : Tracked s' blocks'
  span_eq : span HEADER_SIZE blocks' = span HEADER_SIZE blocks
  start_eq : s'.st.heap_start = s.st.heap_start
  size_eq : s'.st.dynamic_heap_size = s.st.dynamic_heap_size
  added : ∀ l ∈ s'.live, l ∈ s.live ∨ l.request < limit ∧ align4 l.request ≤ l.size

variable {s : HeapState} {blocks : List Block} {limit : ℕ}

theorem Tracked.malloc (h : Tracked s blocks) {n : ℕ} (hn : n < limit) :
    ∃ s' blocks', Returns (fun fuel => heap_step fuel s (.malloc n)) s' ∧ Steps limit s s' blocks blocks' := by
  have hH := HEADER_SIZE_eq
  obtain ⟨-, hret⟩ | ⟨-, pre, b, post, mem', rfl, -, hfree, hfit, hret, hrep⟩ := kmalloc_cases h.rep n
  · refine ⟨s, blocks, hret.map fun r => note_malloc s n r.1 r.2, h, rfl, rfl, rfl, fun l hl => .inl hl⟩
  · obtain ⟨size, rest, hcarve, hsize, hpayloads⟩ := carve_cases HEADER_SIZE 16 hfit
    have hptr : s.st.heap_start + span HEADER_SIZE pre + HEADER_SIZE ≠ 0 := by omega
    have hheader : (header_at mem' (s.st.heap_start + span HEADER_SIZE pre)).size = size := by
      have hseg := hrep.seg
      rw [hcarve] at hseg
      rw [Seg.header pre ⟨size, false⟩ (rest ++ post) hseg, header_of]
    have hnote : note_malloc s n (s.st.heap_start + span HEADER_SIZE pre + HEADER_SIZE) { s.st with mem := mem' } =
        ⟨{ s.st with mem := mem' },
          ⟨s.st.heap_start + span HEADER_SIZE pre + HEADER_SIZE, n, size⟩ :: s.live⟩ := by
      rw [note_malloc, if_neg hptr, Nat.add_sub_cancel, hheader]
    refine ⟨_, pre ++ (carve HEADER_SIZE 16 (align4 n) b ++ post), hret.map fun r => note_malloc s n r.1 r.2, ?_⟩
    simp only [hnote]
    refine ⟨⟨hrep, h.coalesced.carve hfree, ?_⟩, ?_, rfl, rfl, fun l hl => ?_⟩
    · -- the carved block adds one used block, at the place of the free one
      have hold := h.live
      rw [payloads_append, payloads, if_pos hfree] at hold
      rw [payloads_append, payloads_append, hpayloads, span_carve, ← Nat.add_assoc]
      exact (hold.cons _).trans List.perm_middle.symm
    · simp only [span_append, span_carve, span_cons]
    · obtain rfl | hl := List.mem_cons.mp hl
      · exact .inr ⟨hn, hsize⟩
      · exact .inl hl

theorem Tracked.mem_payloads (h : Tracked s blocks) {l : Live} (hl : l ∈ s.live) :
    (l.ptr, l.size) ∈ payloads HEADER_SIZE s.st.heap_start blocks :=
  h.live.subset (List.mem_map_of_mem hl)

theorem Tracked.free (limit : ℕ) (h : Tracked s blocks) {ptr : ℕ} (hptr : ptr = 0 ∨ ∃ l ∈ s.live, l.ptr = ptr) :
    ∃ s' blocks', Returns (fun fuel => heap_step fuel s (.free ptr)) s' ∧ Steps limit s s' blocks blocks' := by
  have hH := HEADER_SIZE_eq
  obtain rfl | ⟨l, hl, rfl⟩ := hptr
  · have hret : Returns (fun fuel => kfree fuel s.st 0) s.st := Returns.of_forall fun fuel => rfl
    have hkeep : note_free s 0 s.st = s := by
      have hfilter : (s.live.filter fun l => l.ptr ≠ 0) = s.live := by
        refine List.filter_eq_self.mpr fun l hl => ?_
        have hbound := payloads_bounds (h.mem_payloads hl)
        simp only [ne_eq, decide_not, Bool.not_eq_eq_eq_not, Bool.not_true, decide_eq_false_iff_not]
        omega
      rw [note_free, hfilter]
    refine ⟨s, blocks, ?_, h, rfl, rfl, rfl, fun l hl => .inl hl⟩
    have hstep := hret.map (note_free s 0)
    rwa [hkeep] at hstep
  · obtain ⟨pre, b, post, rfl, hused, heq⟩ := block_list.mem_payloads (h.mem_payloads hl)
    obtain ⟨hptr, hsize⟩ := Prod.mk.inj heq
    obtain ⟨mem', hret, hrep⟩ := kfree_spec h.rep
    rw [← hptr] at hret
    refine ⟨_, release HEADER_SIZE pre b post, hret.map (note_free s l.ptr), ⟨hrep, h.coalesced.release, ?_⟩,
      span_release pre b post, rfl, rfl, fun m hm => .inl (List.mem_of_mem_filter hm)⟩
    have hperm := payloads_release HEADER_SIZE hused s.st.heap_start pre post
    rw [← hptr] at hperm
    have hnodup := payloads_fst_nodup (show 0 < HEADER_SIZE by omega) s.st.heap_start (pre ++ b :: post)
    have hother : ∀ p ∈ payloads HEADER_SIZE s.st.heap_start (release HEADER_SIZE pre b post), p.1 ≠ l.ptr := by
      have hcons := (hperm.map Prod.fst).nodup_iff.mp hnodup
      rw [List.map_cons, List.nodup_cons] at hcons
      exact fun p hp hpl => hcons.1 (List.mem_map.mpr ⟨p, hp, hpl⟩)
    -- filtering out the freed pointer on both sides leaves the other used blocks
    have hfilter := (h.live.trans hperm).filter fun p => p.1 ≠ l.ptr
    have hkeep : (payloads HEADER_SIZE s.st.heap_start (release HEADER_SIZE pre b post)).filter
        (fun p => p.1 ≠ l.ptr) = _ := List.filter_eq_self.mpr fun p hp => by simpa using hother p hp
    rw [List.filter_map, List.filter_cons_of_neg (by simp), hkeep] at hfilter
    exact hfilter

theorem Tracked.step (h : Tracked s blocks) {op : HeapOp} (hvalid : ValidOp limit s op) :
    ∃ s' blocks', Returns (fun fuel => heap_step fuel s op) s' ∧ Steps limit s s' blocks blocks' := by
  cases op with
  | malloc n => exact h.malloc hvalid
  | free ptr => exact h.free limit hvalid

theorem Steps.trans {s' s'' : HeapState} {blocks' blocks'' : List Block} (h₁ : Steps limit s s' blocks blocks')
    (h₂ : Steps limit s' s'' blocks' blocks'') : Steps limit s s'' blocks blocks'' := by
  refine ⟨h₂.tracked, h₂.span_eq.trans h₁.span_eq, h₂.start_eq.trans h₁.start_eq, h₂.size_eq.trans h₁.size_eq,
    fun l hl => ?_⟩
  obtain hl | hnew := h₂.added l hl
  · exact h₁.added l hl
  · exact .inr hnew

/-- Every valid run returns, and keeps what its steps keep. -/
theorem Tracked.run (h : Tracked s blocks) {ops : List HeapOp} (hvalid : ValidRun limit s ops) :
    ∃ s' blocks', Returns (fun fuel => heap_run fuel s ops) s' ∧ Steps limit s s' blocks blocks' := by
  induction ops generalizing s blocks with
  | nil => exact ⟨s, blocks, Returns.of_forall fun _ => rfl, h, rfl, rfl, rfl, fun l hl => .inl hl⟩
  | cons op ops ih =>
    obtain ⟨s₁, blocks₁, hret₁, hstep₁⟩ := h.step hvalid.1
    obtain ⟨s₂, blocks₂, hret₂, hstep₂⟩ := ih hstep₁.tracked (hvalid.2 s₁ hret₁)
    exact ⟨s₂, blocks₂, hret₁.bind hret₂, hstep₁.trans hstep₂⟩

/-- One block adds its header and its size to the counters. -/
theorem count_block_sum (stats : heap_stats_t) (b : Block) (next : ℕ)
    (hsmall : stats.used_size + stats.free_size + 16 * stats.num_blocks + (16 + b.size) < 2 ^ 32) :
    (count_block stats (header_of b next)).used_size + (count_block stats (header_of b next)).free_size +
        16 * (count_block stats (header_of b next)).num_blocks =
      stats.used_size + stats.free_size + 16 * stats.num_blocks + (16 + b.size) := by
  obtain ⟨size, free⟩ := b
  simp only at hsmall
  cases free
  · simp only [count_block, header_of, Bool.false_eq_true, if_false, ne_eq, not_true_eq_false]
    omega
  · simp only [count_block, header_of, if_true, ne_eq, one_ne_zero, not_false_eq_true]
    omega

theorem count_block_total (stats : heap_stats_t) (block : block_header_t) :
    (count_block stats block).total_size = stats.total_size := by
  unfold count_block
  split <;> rfl

/-- The counters of `kmalloc_get_stats` over the blocks `rest`, the first of which is at `x`. -/
theorem stats_loop_sum {mem : ℕ → UInt8} {x : ℕ} (hpos : 0 < x) {rest : List Block} (h : Seg mem 0 x rest)
    (stats : heap_stats_t)
    (hsmall : stats.used_size + stats.free_size + 16 * stats.num_blocks + span HEADER_SIZE rest < 2 ^ 32) :
    ∃ stats', (∀ fuel, rest.length < fuel → stats_loop mem fuel stats (cursor x rest) = some stats') ∧
      stats'.used_size + stats'.free_size + 16 * stats'.num_blocks =
        stats.used_size + stats.free_size + 16 * stats.num_blocks + span HEADER_SIZE rest ∧
      stats'.total_size = stats.total_size := by
  have hH := HEADER_SIZE_eq
  induction rest generalizing x stats with
  | nil =>
    refine ⟨stats, fun fuel hfuel => ?_, by simp, rfl⟩
    obtain ⟨fuel, rfl⟩ := Nat.exists_eq_succ_of_ne_zero (show fuel ≠ 0 by omega)
    simp [stats_loop, cursor]
  | cons b rest ih =>
    rw [span_cons] at hsmall ⊢
    have hcount := count_block_sum stats b (if rest = [] then 0 else x + HEADER_SIZE + b.size) (by omega)
    rw [← h.1] at hcount
    obtain ⟨stats', hloop, hsum, htotal⟩ := ih (show 0 < x + HEADER_SIZE + b.size by omega) h.2
      (count_block stats (header_at mem x)) (by omega)
    refine ⟨stats', fun fuel hfuel => ?_, by omega, htotal.trans (count_block_total _ _)⟩
    obtain ⟨fuel, rfl⟩ := Nat.exists_eq_succ_of_ne_zero (show fuel ≠ 0 by omega)
    have hnext : (header_at mem x).next = cursor (x + HEADER_SIZE + b.size) rest := by rw [h.1, header_of, cursor]
    rw [cursor, if_neg (List.cons_ne_nil b rest), stats_loop, if_neg (by omega), hnext]
    exact hloop fuel (by simpa using hfuel)

/-- The block list of a heap of `size` bytes and its live pointers. -/
structure TilesHeap (s : HeapState) (size : ℕ) (blocks : List Block) : Prop where
  start : s.st.heap_start = HEAP_START
  /-- Each block links to the one right behind it, and the last one to NULL. -/
  tiles : Seg s.st.mem 0 HEAP_START blocks
  ends : span HEADER_SIZE blocks = size
  /-- A live pointer is behind the header of exactly one used block, which has the
      size it had when the pointer was returned. -/
  owned : ∀ l ∈ s.live, l.request ≤ l.size ∧ (l.ptr, l.size) ∈ payloads HEADER_SIZE HEAP_START blocks ∧
    ((payloads HEADER_SIZE HEAP_START blocks).map Prod.fst).count l.ptr = 1
  disjoint : s.live.Pairwise fun l m => l.ptr + l.size ≤ m.ptr ∨ m.ptr + m.size ≤ l.ptr
  apart : ∀ l ∈ s.live, ∀ x ∈ addresses HEADER_SIZE HEAP_START blocks,
    x + HEADER_SIZE ≤ l.ptr ∨ l.ptr + l.size ≤ x
  stats : ∃ stats, Returns (fun fuel => kmalloc_get_stats fuel s.st) stats ∧
    stats.used_size + stats.free_size + 16 * stats.num_blocks = stats.total_size ∧ stats.total_size = size

theorem Tracked.tilesHeap {size : ℕ} (h : Tracked s blocks) (hstart : s.st.heap_start = HEAP_START)
    (hspan : span HEADER_SIZE blocks = size) (hsize : s.st.dynamic_heap_size = size) (hsmall : size < 2 ^ 32)
    (hrequest : ∀ l ∈ s.live, l.request ≤ l.size) : TilesHeap s size blocks := by
  have hH := HEADER_SIZE_eq
  have hlive := h.live
  have hseg := h.rep.seg
  rw [hstart] at hlive hseg
  refine ⟨hstart, hseg, hspan, fun l hl => ⟨hrequest l hl, ?_, ?_⟩, ?_, fun l hl x hx => ?_, ?_⟩
  · exact hstart ▸ h.mem_payloads hl
  · rw [(payloads_fst_nodup (by omega) HEAP_START blocks).count, if_pos]
    exact List.mem_map_of_mem (hstart ▸ h.mem_payloads hl)
  · have hpairs : (payloads HEADER_SIZE HEAP_START blocks).Pairwise
        fun p q => p.1 + p.2 ≤ q.1 ∨ q.1 + q.2 ≤ p.1 :=
      (payloads_pairwise HEAP_START blocks).imp fun hpq => .inl (by omega)
    have hmap := hlive.symm.pairwise hpairs fun hpq => hpq.symm
    exact List.pairwise_map.mp hmap
  · exact payload_apart_header (hstart ▸ h.mem_payloads hl) hx
  · obtain ⟨stats, hloop, hsum, htotal⟩ := stats_loop_sum h.rep.start_pos h.rep.seg
      (zero_stats (s.st.dynamic_heap_size % 2 ^ 32)) (by simp only [zero_stats, hspan]; omega)
    have hcursor : cursor s.st.heap_start blocks = s.st.heap_start := by rw [cursor, if_neg h.rep.ne_nil]
    rw [hcursor] at hloop
    simp only [zero_stats, hsize, Nat.mod_eq_of_lt hsmall] at hloop hsum htotal
    refine ⟨stats, Returns.of_gt blocks.length fun fuel hfuel => ?_, by omega, htotal⟩
    rw [kmalloc_get_stats, zero_stats, hsize, Nat.mod_eq_of_lt hsmall]
    exact hloop fuel hfuel

/-- A request that fits 32 bits is rounded up without wrapping. -/
theorem le_align4 {n : ℕ} (hn : n < 2 ^ 32) : n ≤ align4 n := by
  unfold align4
  omega

/-- After every valid run on a fresh heap the block list tiles the heap. -/
theorem heap_run_tiles (mem : ℕ → UInt8) (size : ℕ) (hlow : 16 < size) (hhigh : size < 2 ^ 32) (ops : List HeapOp)
    (hvalid : ValidRun (2 ^ 32) (fresh_heap mem size) ops) :
    ∃ s blocks, Returns (fun fuel => heap_run fuel (fresh_heap mem size) ops) s ∧ TilesHeap s size blocks := by
  obtain ⟨s, blocks, hret, hsteps⟩ := (fresh_heap_tracked mem size).run hvalid
  have hfirst : span HEADER_SIZE [first_block size] = size := by
    simp only [span_cons, span_nil, first_block, HEADER_SIZE]
    omega
  refine ⟨s, blocks, hret, hsteps.tracked.tilesHeap (hsteps.start_eq.trans rfl) (hsteps.span_eq.trans hfirst)
    (hsteps.size_eq.trans rfl) hhigh fun l hl => ?_⟩
  obtain hl | ⟨hlimit, hfit⟩ := hsteps.added l hl
  · cases hl
  · exact (le_align4 hlimit).trans hfit

/-- Some blocks that follow each other are all free and together hold `n` bytes
    behind one header. -/
def FreeRun (blocks : List Block) (n : ℕ) : Prop :=
  ∃ pre run post, blocks = pre ++ run ++ post ∧ run ≠ [] ∧ (∀ b ∈ run, b.free = true) ∧
    n + HEADER_SIZE ≤ span HEADER_SIZE run

theorem freeRun_block {n : ℕ} (h : Coalesced blocks) (hrun : FreeRun blocks n) :
    ∃ b ∈ blocks, b.free = true ∧ n ≤ b.size := by
  obtain ⟨pre, run, post, rfl, hne, hfree, hspan⟩ := hrun
  obtain ⟨b, rfl⟩ := h.run_singleton hne hfree
  simp only [span_cons, span_nil] at hspan
  exact ⟨b, by simp, hfree b (by simp), by omega⟩

theorem heap_step_free_live {s' : HeapState} {ptr : ℕ} (h : Returns (fun fuel => heap_step fuel s (.free ptr)) s') :
    s'.live = s.live.filter fun l => l.ptr ≠ ptr := by
  obtain ⟨fuel, hfuel⟩ := h.exists
  obtain ⟨st, -, rfl⟩ := Option.map_eq_some_iff.mp hfuel
  rfl

theorem Tracked.ptr_nodup (h : Tracked s blocks) : (s.live.map Live.ptr).Nodup := by
  have hmap := (h.live.map Prod.fst).nodup_iff.mpr (payloads_fst_nodup (show 0 < HEADER_SIZE by decide) _ _)
  rwa [List.map_map] at hmap

/-- Freeing every live pointer, in any order, returns and leaves none. -/
theorem Tracked.free_all (limit : ℕ) (h : Tracked s blocks) {order : List ℕ}
    (horder : order.Perm (s.live.map Live.ptr)) :
    ∃ s' blocks', Returns (fun fuel => heap_run fuel s (order.map .free)) s' ∧ Steps limit s s' blocks blocks' ∧
      s'.live = [] := by
  induction order generalizing s blocks with
  | nil =>
    have hnone : s.live = [] := by simpa using horder.symm
    exact ⟨s, blocks, Returns.of_forall fun _ => rfl, ⟨h, rfl, rfl, rfl, fun l hl => .inl hl⟩, hnone⟩
  | cons ptr order ih =>
    obtain ⟨l, hl, rfl⟩ := List.mem_map.mp (horder.subset List.mem_cons_self)
    obtain ⟨s₁, blocks₁, hret₁, hstep₁⟩ := h.free limit (.inr ⟨l, hl, rfl⟩)
    -- the remaining pointers are the ones that the freed one is filtered from
    have hnodup := horder.nodup_iff.mpr h.ptr_nodup
    have hrest : order.Perm (s₁.live.map Live.ptr) := by
      have hfilter := horder.filter fun p => p ≠ l.ptr
      have hself : order.filter (fun p => p ≠ l.ptr) = order := by
        refine List.filter_eq_self.mpr fun p hp => ?_
        have hne : p ≠ l.ptr := fun heq => (List.nodup_cons.mp hnodup).1 (heq ▸ hp)
        simpa using hne
      rw [List.filter_cons_of_neg (by simp), hself, List.filter_map] at hfilter
      rw [heap_step_free_live hret₁]
      exact hfilter
    obtain ⟨s₂, blocks₂, hret₂, hstep₂, hnone⟩ := ih hstep₁.tracked hrest
    exact ⟨s₂, blocks₂, hret₁.bind hret₂, hstep₁.trans hstep₂, hnone⟩

/-- A heap without live pointers and of the extent it started with is the first block again. -/
theorem Tracked.eq_first {size : ℕ} (h : Tracked s blocks) (hnone : s.live = [])
    (hspan : span HEADER_SIZE blocks = span HEADER_SIZE [first_block size]) : blocks = [first_block size] := by
  have hpayloads : payloads HEADER_SIZE s.st.heap_start blocks = [] := by
    have hperm := h.live
    rw [hnone] at hperm
    exact List.nil_perm.mp hperm
  obtain ⟨n, rfl⟩ := h.coalesced.eq_singleton h.rep.ne_nil hpayloads
  simp only [span_cons, span_nil] at hspan
  rw [show n = (first_block size).size by omega, first_block]

theorem align4_le (n : ℕ) : align4 n ≤ (n + 3) / 4 * 4 := by
  unfold align4
  exact Nat.mul_le_mul_right 4 (Nat.div_le_div_right (Nat.mod_le _ _))

/-- After every valid run on a fresh heap no two neighbours are free, so freeing the
    live pointers in any order restores the first block, and a request for some bytes
    fails only if no run of free blocks can hold it. -/
theorem heap_run_coalesces (mem : ℕ → UInt8) (size : ℕ) (ops : List HeapOp)
    (hvalid : ValidRun (2 ^ 64) (fresh_heap mem size) ops) :
    ∃ s blocks, Returns (fun fuel => heap_run fuel (fresh_heap mem size) ops) s ∧ Represents s.st blocks ∧
      Coalesced blocks ∧
      (∀ order : List ℕ, order.Perm (s.live.map Live.ptr) →
        ∃ s', Returns (fun fuel => heap_run fuel s (order.map .free)) s' ∧ Represents s'.st [first_block size]) ∧
      ∀ n st', 0 < n → Returns (fun fuel => kmalloc fuel s.st n) (0, st') → ¬ FreeRun blocks ((n + 3) / 4 * 4) := by
  obtain ⟨s, blocks, hret, hsteps⟩ := (fresh_heap_tracked mem size).run hvalid
  have htracked := hsteps.tracked
  refine ⟨s, blocks, hret, htracked.rep, htracked.coalesced, fun order horder => ?_, fun n st' hn hnull hrun => ?_⟩
  · obtain ⟨s', blocks', hret', hsteps', hnone⟩ := htracked.free_all (2 ^ 64) horder
    refine ⟨s', hret', ?_⟩
    rw [← hsteps'.tracked.eq_first hnone (hsteps'.span_eq.trans hsteps.span_eq)]
    exact hsteps'.tracked.rep
  · obtain ⟨b, hb, hfree, hfit⟩ := freeRun_block htracked.coalesced hrun
    obtain ⟨hfail, -⟩ | ⟨-, pre, c, post, mem', -, -, -, -, hsome, -⟩ := kmalloc_cases htracked.rep n
    · obtain hzero | hfail := hfail
      · omega
      · have := hfail b hb hfree
        have := align4_le n
        omega
    · have hptr := congrArg Prod.fst (hnull.unique hsome)
      have hpos := htracked.rep.start_pos
      simp only at hptr
      omega

/-- The first request on a fresh heap gets the first block. -/
theorem fresh_malloc_live {mem : ℕ → UInt8} {size n : ℕ} {s' : HeapState} (hn : n ≠ 0)
    (hfit : align4 n ≤ (first_block size).size)
    (h : Returns (fun fuel => heap_step fuel (fresh_heap mem size) (.malloc n)) s') :
    s'.live.map Live.ptr = [HEAP_START + HEADER_SIZE] := by
  obtain ⟨hfail, -⟩ | ⟨-, pre, b, post, mem', heq, -, -, -, hret, -⟩ := kmalloc_cases (init_heap_represents mem size) n
  · obtain hzero | hfail := hfail
    · exact absurd hzero hn
    · have := hfail _ List.mem_cons_self rfl
      omega
  · have hpre : pre = [] := by
      cases pre with
      | nil => rfl
      | cons c pre =>
        have hlen := congrArg List.length heq
        simp at hlen
    subst hpre
    rw [h.unique (hret.map fun r => note_malloc (fresh_heap mem size) n r.1 r.2)]
    simp [note_malloc, fresh_heap, init_heap, HEAP_START, HEADER_SIZE]

/-- A request and its release are a valid run. -/
theorem validRun_malloc_free {mem : ℕ → UInt8} {size n : ℕ} (hn : n ≠ 0) (hlimit : n < limit)
    (hfit : align4 n ≤ (first_block size).size) :
    ValidRun limit (fresh_heap mem size) [.malloc n, .free (HEAP_START + HEADER_SIZE)] := by
  refine ⟨hlimit, fun s' hs' => ⟨.inr ?_, fun _ _ => trivial⟩⟩
  have hmem : HEAP_START + HEADER_SIZE ∈ s'.live.map Live.ptr := by
    rw [fresh_malloc_live hn hfit hs']
    exact List.mem_singleton_self _
  exact List.mem_map.mp hmem

theorem heap_run_tiles_one_page :
    ValidRun (2 ^ 32) (fresh_heap (fun _ => 0) 4096) [.malloc 100, .free (HEAP_START + HEADER_SIZE)] ∧
      ∃ s blocks, Returns (fun fuel => heap_run fuel (fresh_heap (fun _ => 0) 4096)
        [.malloc 100, .free (HEAP_START + HEADER_SIZE)]) s ∧ TilesHeap s 4096 blocks := by
  have hvalid : ValidRun (2 ^ 32) (fresh_heap (fun _ => 0) 4096) [.malloc 100, .free (HEAP_START + HEADER_SIZE)] :=
    validRun_malloc_free (by decide) (by decide) (by decide)
  exact ⟨hvalid, heap_run_tiles _ 4096 (by decide) (by decide) _ hvalid⟩

theorem heap_run_coalesces_one_page :
    ValidRun (2 ^ 64) (fresh_heap (fun _ => 0) 4096) [.malloc 100, .free (HEAP_START + HEADER_SIZE)] ∧
      ∃ s blocks, Returns (fun fuel => heap_run fuel (fresh_heap (fun _ => 0) 4096)
          [.malloc 100, .free (HEAP_START + HEADER_SIZE)]) s ∧ Represents s.st blocks ∧ Coalesced blocks ∧
        (∀ order : List ℕ, order.Perm (s.live.map Live.ptr) →
          ∃ s', Returns (fun fuel => heap_run fuel s (order.map .free)) s' ∧ Represents s'.st [first_block 4096]) ∧
        ∀ n st', 0 < n → Returns (fun fuel => kmalloc fuel s.st n) (0, st') →
          ¬ FreeRun blocks ((n + 3) / 4 * 4) := by
  have hvalid : ValidRun (2 ^ 64) (fresh_heap (fun _ => 0) 4096) [.malloc 100, .free (HEAP_START + HEADER_SIZE)] :=
    validRun_malloc_free (by decide) (by decide) (by decide)
  exact ⟨hvalid, heap_run_coalesces _ 4096 _ hvalid⟩

/-- A request for no bytes gets NULL although the fresh heap is one free block. -/
theorem kmalloc_zero_of_free_heap :
    Represents (fresh_heap (fun _ => 0) 4096).st [first_block 4096] ∧
      ¬ ∀ n st', Returns (fun fuel => kmalloc fuel (fresh_heap (fun _ => 0) 4096).st n) (0, st') →
        ¬ FreeRun [first_block 4096] ((n + 3) / 4 * 4) := by
  refine ⟨init_heap_represents _ _, fun hclaim => ?_⟩
  refine hclaim 0 _ (Returns.of_forall fun fuel => rfl) ⟨[], [first_block 4096], [], rfl, by simp, ?_, by decide⟩
  simp [first_block]

end os_dev.heap
