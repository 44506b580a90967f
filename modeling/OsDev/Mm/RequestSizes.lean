import OsDev.Mm.HeapRuns

open little_endian fuel block_list

namespace os_dev.heap

variable {st : Heap} {blocks : List Block} {n : ℕ}

/-- A pointer behind the header of an allocated block whose size field is at least `n`. -/
structure Holds (st : Heap) (blocks : List Block) (n ptr : ℕ) : Prop where
  allocated : (ptr, (header_at st.mem (ptr - HEADER_SIZE)).size) ∈ payloads HEADER_SIZE st.heap_start blocks
  size : n ≤ (header_at st.mem (ptr - HEADER_SIZE)).size

/-- `kmalloc` never under-allocates: it returns NULL or a pointer to an allocated block
    of `n` bytes, and NULL without a change when no free block has them. -/
structure Serves (st : Heap) (blocks : List Block) (n : ℕ) (result : ℕ × Heap) : Prop where
  held : ∃ blocks', Represents result.2 blocks' ∧ (result.1 = 0 ∨ Holds result.2 blocks' n result.1)
  refused : (∀ b ∈ blocks, b.free = true → b.size < n) → result = (0, st)

/-- A request of 64 bits either fits its rounding, or is rounded to nothing. -/
theorem align4_cases (hn : n < 2 ^ 64) : n + 3 < 2 ^ 64 ∧ n ≤ align4 n ∨ 2 ^ 64 ≤ n + 3 ∧ align4 n = 0 := by
  unfold align4
  omega

/-- Whatever is requested, the result is NULL and nothing changes, or the pointer is
    behind the header of an allocated block that has the rounded size. -/
theorem kmalloc_holds (h : Represents st blocks) (hn : n ≠ 0) :
    ((∀ b ∈ blocks, b.free = true → b.size < align4 n) ∧ Returns (fun fuel => kmalloc fuel st n) (0, st)) ∨
      ∃ ptr st' blocks', (∃ b ∈ blocks, b.free = true ∧ align4 n ≤ b.size) ∧
        Returns (fun fuel => kmalloc fuel st n) (ptr, st') ∧ Represents st' blocks' ∧ ptr ≠ 0 ∧
        Holds st' blocks' (align4 n) ptr := by
  have hH := HEADER_SIZE_eq
  obtain ⟨hzero | hnone, hret⟩ | ⟨-, pre, b, post, mem', rfl, -, hfree, hfit, hret, hrep⟩ := kmalloc_cases h n
  · exact absurd hzero hn
  · exact .inl ⟨hnone, hret⟩
  · obtain ⟨size, rest, hcarve, hsize, -⟩ := carve_cases HEADER_SIZE 16 hfit
    have hblocks : pre ++ (carve HEADER_SIZE 16 (align4 n) b ++ post) = pre ++ ⟨size, false⟩ :: (rest ++ post) := by
      rw [hcarve, List.cons_append]
    rw [hblocks] at hrep
    have hheader : (header_at mem' (st.heap_start + span HEADER_SIZE pre + HEADER_SIZE - HEADER_SIZE)).size = size := by
      rw [Nat.add_sub_cancel, Seg.header pre ⟨size, false⟩ (rest ++ post) hrep.seg, header_of]
    refine .inr ⟨_, _, _, ⟨b, by simp, hfree, hfit⟩, hret, hrep, by omega, ?_, ?_⟩
    · simp only [hheader]
      exact mem_payloads_of_append HEADER_SIZE st.heap_start pre (rest ++ post) rfl
    · simp only [hheader]
      exact hsize

/-- `kmalloc` serves a request exactly if the rounding does not wrap, or there is no
    free block at all. -/
theorem Represents.serves_iff (h : Represents st blocks) (hpos : 0 < n) (hn : n < 2 ^ 64) :
    (∃ result, Returns (fun fuel => kmalloc fuel st n) result ∧ Serves st blocks n result) ↔
      n + 3 < 2 ^ 64 ∨ ∀ b ∈ blocks, b.free = false := by
  obtain ⟨hnone, hret⟩ | ⟨ptr, st', blocks', ⟨b, hb, hfree, hfit⟩, hret, hrep, hptr, hholds⟩ := kmalloc_holds h hpos.ne'
  · refine iff_of_true ⟨_, hret, ⟨blocks, h, .inl rfl⟩, fun _ => rfl⟩ ?_
    obtain ⟨hfits, -⟩ | ⟨-, hwraps⟩ := align4_cases hn
    · exact .inl hfits
    · refine .inr fun b hb => Bool.eq_false_iff.mpr fun hfree => ?_
      have := hnone b hb hfree
      omega
  · obtain ⟨hfits, hround⟩ | ⟨hwraps, hround⟩ := align4_cases hn
    · refine iff_of_true ⟨_, hret, ⟨blocks', hrep, .inr ⟨hholds.allocated, hround.trans hholds.size⟩⟩, fun hsmall => ?_⟩
        (.inl hfits)
      have := hsmall b hb hfree
      omega
    · -- a free block is handed out, and no block has so many bytes
      refine iff_of_false ?_ ?_
      · rintro ⟨result, hret', hserves⟩
        obtain rfl := hret.unique hret'
        have hrefused := hserves.refused fun c hc _ => by
          obtain ⟨pre, post, rfl⟩ := List.append_of_mem hc
          have := h.bounds
          omega
        exact hptr (congrArg Prod.fst hrefused)
      · rintro (hfits | hused)
        · omega
        · rw [hused b hb] at hfree
          cases hfree

/-- In every state that valid calls reach from a fresh heap of any size, `kmalloc` serves
    a request exactly if its rounding does not wrap or there is no free block. -/
theorem heap_run_serves_iff (mem : ℕ → UInt8) (size : ℕ) (ops : List HeapOp)
    (hvalid : ValidRun (2 ^ 64) (fresh_heap mem size) ops) :
    ∃ s blocks, Returns (fun fuel => heap_run fuel (fresh_heap mem size) ops) s ∧ Represents s.st blocks ∧
      ∀ n, 0 < n → n < 2 ^ 64 →
        ((∃ result, Returns (fun fuel => kmalloc fuel s.st n) result ∧ Serves s.st blocks n result) ↔
          n + 3 < 2 ^ 64 ∨ ∀ b ∈ blocks, b.free = false) := by
  obtain ⟨s, blocks, hret, hsteps⟩ := (fresh_heap_tracked mem size).run hvalid
  exact ⟨s, blocks, hret, hsteps.tracked.rep, fun n hpos hn => hsteps.tracked.rep.serves_iff hpos hn⟩

theorem heap_run_serves_iff_one_page :
    ∃ s blocks, Returns (fun fuel => heap_run fuel (fresh_heap (fun _ => 0) 4096)
        [.malloc 100, .free (HEAP_START + HEADER_SIZE)]) s ∧ Represents s.st blocks ∧
      ∀ n, 0 < n → n < 2 ^ 64 →
        ((∃ result, Returns (fun fuel => kmalloc fuel s.st n) result ∧ Serves s.st blocks n result) ↔
          n + 3 < 2 ^ 64 ∨ ∀ b ∈ blocks, b.free = false) :=
  heap_run_serves_iff _ 4096 _ (validRun_malloc_free (by decide) (by decide) (by decide))

/-- A request for all of the address space gets a pointer to an empty block. -/
theorem kmalloc_size_max :
    Represents (init_heap (fun _ => 0) 4096) [first_block 4096] ∧
      ¬ ∃ result, Returns (fun fuel => kmalloc fuel (init_heap (fun _ => 0) 4096) (2 ^ 64 - 1)) result ∧
        Serves (init_heap (fun _ => 0) 4096) [first_block 4096] (2 ^ 64 - 1) result := by
  have hrep := init_heap_represents (fun _ => 0) 4096
  refine ⟨hrep, fun hserves => ?_⟩
  obtain hfits | hused := (hrep.serves_iff (by decide) (by decide)).mp hserves
  · exact absurd hfits (by decide)
  · have hfree := hused _ List.mem_cons_self
    cases hfree

end os_dev.heap
