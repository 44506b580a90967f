import OsDev.Mm.HeapRuns

open little_endian fuel block_list

namespace os_dev.heap

/-- A use of the heap: a call, or a byte that the owner of a block stores in it. -/
inductive HeapEvent where
  | call (op : HeapOp)
  | store (addr : ℕ) (value : UInt8)

/-- A byte is stored. -/
def HeapState.put (s : HeapState) (addr : ℕ) (value : UInt8) : HeapState :=
  { s with st := { s.st with mem := Function.update s.st.mem addr value } }

def heap_event (fuel : ℕ) (s : HeapState) : HeapEvent → Option HeapState
  | .call op => heap_step fuel s op
  | .store addr value => some (s.put addr value)

def event_run (fuel : ℕ) (s : HeapState) : List HeapEvent → Option HeapState
  | [] => some s
  | e :: events => do
    let s ← heap_event fuel s e
    event_run fuel s events

/-- The address lies in a live block. -/
def InLive (s : HeapState) (addr : ℕ) : Prop := ∃ l ∈ s.live, l.ptr ≤ addr ∧ addr < l.ptr + l.size

def ValidEvent (limit : ℕ) (s : HeapState) : HeapEvent → Prop
  | .call op => ValidOp limit s op
  | .store addr _ => InLive s addr

/-- The calls of a run are valid, and its stores stay in the blocks that are live then. -/
def ValidEvents (limit : ℕ) : HeapState → List HeapEvent → Prop
  | _, [] => True
  | s, e :: events => ValidEvent limit s e ∧
    ∀ s', Returns (fun fuel => heap_event fuel s e) s' → ValidEvents limit s' events

/-- What the owners have made of a byte. -/
def stored (addr : ℕ) (value : UInt8) : List HeapEvent → UInt8
  | [] => value
  | .call _ :: events => stored addr value events
  | .store addr' value' :: events => stored addr (if addr' = addr then value' else value) events

variable {mem mem' : ℕ → UInt8} {s s' : HeapState} {st st' : Heap} {pre post blocks : List Block} {b : Block} {limit : ℕ}

@[simp] theorem put_mem (s : HeapState) (addr : ℕ) (value : UInt8) :
    (s.put addr value).st.mem = Function.update s.st.mem addr value := rfl

theorem set_size_of_outside {x size i : ℕ} (h : i < x ∨ x + 16 ≤ i) : set_size mem x size i = mem i := by
  apply put32_of_outside
  omega

theorem set_free_of_outside {x is_free i : ℕ} (h : i < x ∨ x + 16 ≤ i) : set_free mem x is_free i = mem i := by
  apply put32_of_outside
  omega

theorem set_next_of_outside {x next i : ℕ} (h : i < x ∨ x + 16 ≤ i) : set_next mem x next i = mem i := by
  apply put64_of_outside
  omega

/-- A block that is taken changes between its header and its end only. -/
theorem take_block_of_outside {x size i : ℕ} (h : i < x ∨ x + 16 + (header_at mem x).size ≤ i) :
    take_block mem x size i = mem i := by
  have hhead : i < x ∨ x + 16 ≤ i := by omega
  unfold take_block
  dsimp only
  rw [set_free_of_outside hhead]
  split
  · rename_i hsplit
    have hrest : i < x + HEADER_SIZE + size ∨ x + HEADER_SIZE + size + 16 ≤ i := by
      rw [HEADER_SIZE_eq] at hsplit ⊢
      omega
    rw [set_next_of_outside hhead, set_size_of_outside hhead, set_next_of_outside hrest, set_free_of_outside hrest,
      set_size_of_outside hrest]
  · rfl

/-- Used blocks lie before or behind a free one. -/
theorem payloads_apart_free {header a : ℕ} (hfree : b.free = true) {p : ℕ × ℕ}
    (hp : p ∈ payloads header a (pre ++ b :: post)) :
    p.1 + p.2 ≤ a + span header pre ∨ a + span header pre + header + b.size ≤ p.1 := by
  rw [payloads_append, payloads, if_pos hfree] at hp
  obtain hp | hp := List.mem_append.mp hp
  · exact .inl (payloads_bounds hp).2
  · have hbounds := payloads_bounds hp
    right
    omega

/-- `kmalloc` leaves the contents of the used blocks alone. -/
theorem kmalloc_keeps (h : Represents st blocks) {n ptr : ℕ} (hret : Returns (fun fuel => kmalloc fuel st n) (ptr, st'))
    {p : ℕ × ℕ} (hp : p ∈ payloads HEADER_SIZE st.heap_start blocks) {i : ℕ} (hlow : p.1 ≤ i) (hhigh : i < p.1 + p.2) :
    st'.mem i = st.mem i := by
  have hcursor : cursor st.heap_start blocks = st.heap_start := by
    rw [cursor, if_neg h.ne_nil]
  obtain ⟨fuel, hkmalloc, hfuel⟩ := (hret.and (Filter.eventually_gt_atTop blocks.length)).exists
  simp only [kmalloc] at hkmalloc
  split at hkmalloc
  · cases hkmalloc
    rfl
  obtain ⟨-, hloop⟩ | ⟨pre, b, post, rfl, -, hfree, -, hloop⟩ := kmalloc_loop_cases (align4 n) h.start_pos h.seg
  · rw [← hcursor, hloop fuel hfuel] at hkmalloc
    cases hkmalloc
    rfl
  · rw [← hcursor, hloop fuel hfuel, hcursor] at hkmalloc
    cases hkmalloc
    apply take_block_of_outside
    have hapart := payloads_apart_free hfree hp
    rw [h.seg.header pre b post]
    simp only [header_of, HEADER_SIZE_eq] at hapart ⊢
    omega

/-- Memory that differs in the headers of the blocks only. -/
def SameBehind (a : ℕ) (blocks : List Block) (mem mem' : ℕ → UInt8) : Prop :=
  ∀ i, (∀ x ∈ addresses HEADER_SIZE a blocks, i < x ∨ x + 16 ≤ i) → mem' i = mem i

theorem merge_next_of_outside {x i : ℕ} (h : i < x ∨ x + 16 ≤ i) : merge_next mem x i = mem i := by
  unfold merge_next
  dsimp only
  split
  · rw [set_next_of_outside h, set_size_of_outside h]
  · rfl

/-- The search for the block in front writes to the header of a block at most. -/
theorem merge_prev_keeps {a x fuel : ℕ} (hpos : 0 < a) (h : Seg mem 0 a blocks)
    (hmerge : merge_prev x mem fuel (cursor a blocks) = some mem') : SameBehind a blocks mem mem' := by
  induction blocks generalizing a fuel with
  | nil =>
    cases fuel with
    | zero => cases hmerge
    | succ fuel =>
      rw [merge_prev, cursor, if_pos rfl, if_pos (.inl rfl)] at hmerge
      cases hmerge
      exact fun _ _ => rfl
  | cons b blocks ih =>
    cases fuel with
    | zero => cases hmerge
    | succ fuel =>
      have hnext : (header_at mem a).next = cursor (a + HEADER_SIZE + b.size) blocks := by
        rw [h.1]
        rfl
      rw [merge_prev, cursor, if_neg (List.cons_ne_nil b blocks)] at hmerge
      split at hmerge
      · cases hmerge
        exact fun _ _ => rfl
      split at hmerge
      · split at hmerge
        · cases hmerge
          intro i hi
          have hhead := hi a List.mem_cons_self
          rw [set_next_of_outside hhead, set_size_of_outside hhead]
        · cases hmerge
          exact fun _ _ => rfl
      · rw [hnext] at hmerge
        exact fun i hi => ih (by omega) h.2 hmerge i fun y hy => hi y (List.mem_cons_of_mem a hy)

/-- A block that absorbs the next one adds no header. -/
theorem mem_addresses_absorb {header a x : ℕ} (h : x ∈ addresses header a (pre ++ absorb header b post)) :
    x ∈ addresses header a (pre ++ b :: post) := by
  rw [addresses_append, List.mem_append] at h ⊢
  refine h.imp_right fun h => ?_
  cases post with
  | nil => exact h
  | cons c post =>
    rw [absorb] at h
    split at h
    · rw [addresses, List.mem_cons, show ∀ y, y + header + (b.size + header + c.size) =
        y + header + b.size + header + c.size by omega] at h
      rw [addresses, addresses, List.mem_cons, List.mem_cons]
      exact h.imp_right .inr
    · exact h

/-- `kfree` writes to headers only. -/
theorem kfree_keeps (h : Represents st (pre ++ b :: post))
    (hret : Returns (fun fuel => kfree fuel st (st.heap_start + span HEADER_SIZE pre + HEADER_SIZE)) st') :
    SameBehind st.heap_start (pre ++ b :: post) st.mem st'.mem := by
  obtain ⟨fuel, hkfree⟩ := hret.exists
  simp only [kfree, Nat.add_sub_cancel] at hkfree
  rw [if_neg (by rw [HEADER_SIZE_eq]; omega)] at hkfree
  obtain ⟨mem', hmerge, heq⟩ := Option.bind_eq_some_iff.mp hkfree
  cases heq
  have hseg := merge_next_seg h rfl
  have hne : pre ++ absorb HEADER_SIZE b post ≠ [] := by
    obtain ⟨s, post', habsorb, -⟩ := absorb_cases HEADER_SIZE b post
    rw [habsorb]
    exact List.append_ne_nil_of_right_ne_nil pre (List.cons_ne_nil _ _)
  have hsame := @merge_prev_keeps _ _ _ _ _ fuel h.start_pos hseg (by rwa [cursor, if_neg hne])
  intro i hi
  have hself := hi (st.heap_start + span HEADER_SIZE pre) (by
    rw [addresses_append, List.mem_append]
    exact .inr List.mem_cons_self)
  dsimp only
  rw [hsame i fun x hx => hi x (mem_addresses_absorb hx), merge_next_of_outside hself, set_free_of_outside hself]

theorem Tracked.mem_live (h : Tracked s blocks) {l : Live} (hl : l ∈ s.live) {i : ℕ} (hlow : l.ptr ≤ i)
    (hhigh : i < l.ptr + l.size) : ∀ x ∈ addresses HEADER_SIZE s.st.heap_start blocks, i < x ∨ x + 16 ≤ i := by
  intro x hx
  have hapart := payload_apart_header (h.mem_payloads hl) hx
  simp only [HEADER_SIZE_eq] at hapart
  omega

/-- A byte that an owner stores does not touch the headers. -/
theorem Tracked.put (h : Tracked s blocks) {addr : ℕ} {value : UInt8} (hin : InLive s addr) :
    Tracked (s.put addr value) blocks := by
  obtain ⟨l, hl, hlow, hhigh⟩ := hin
  refine ⟨⟨h.rep.ne_nil, h.rep.start_pos, h.rep.seg.congr fun x hx => ?_, h.rep.small, h.rep.room⟩, h.coalesced, h.live⟩
  apply header_congr
  intro j hj hj'
  apply Function.update_of_ne
  rintro rfl
  have hapart := h.mem_live hl hlow hhigh x hx
  omega

/-- What a use of the heap keeps of the live block `l`: the record of it, and its bytes except where the owner stores. -/
structure KeepsBlock (l : Live) (s : HeapState) (events : List HeapEvent) (s' : HeapState) : Prop where
  live : l ∈ s'.live
  bytes : ∀ i < l.size, s'.st.mem (l.ptr + i) = stored (l.ptr + i) (s.st.mem (l.ptr + i)) events

theorem Tracked.malloc_keeps (h : Tracked s blocks) {n : ℕ} (hret : Returns (fun fuel => heap_step fuel s (.malloc n)) s')
    {l : Live} (hl : l ∈ s.live) : KeepsBlock l s [.call (.malloc n)] s' := by
  have hresult : ∃ ptr st', Returns (fun fuel => kmalloc fuel s.st n) (ptr, st') := by
    obtain ⟨-, hkmalloc⟩ | ⟨-, pre, b, post, mem', -, -, -, -, hkmalloc, -⟩ := kmalloc_cases h.rep n
    · exact ⟨_, _, hkmalloc⟩
    · exact ⟨_, _, hkmalloc⟩
  obtain ⟨ptr, st', hkmalloc⟩ := hresult
  obtain rfl := hret.unique (hkmalloc.map fun r => note_malloc s n r.1 r.2)
  have hkeeps : ∀ i < l.size, st'.mem (l.ptr + i) = s.st.mem (l.ptr + i) := fun i hi =>
    kmalloc_keeps h.rep hkmalloc (h.mem_payloads hl) (Nat.le_add_right _ _) (Nat.add_lt_add_left hi _)
  unfold note_malloc
  split
  · exact ⟨hl, hkeeps⟩
  · exact ⟨List.mem_cons_of_mem _ hl, hkeeps⟩

theorem Tracked.free_keeps (h : Tracked s blocks) {ptr : ℕ} (hptr : ptr = 0 ∨ ∃ l ∈ s.live, l.ptr = ptr)
    (hret : Returns (fun fuel => heap_step fuel s (.free ptr)) s') {l : Live} (hl : l ∈ s.live) (hother : l.ptr ≠ ptr) :
    KeepsBlock l s [.call (.free ptr)] s' := by
  have hresult : ∃ st', Returns (fun fuel => kfree fuel s.st ptr) st' ∧
      SameBehind s.st.heap_start blocks s.st.mem st'.mem := by
    obtain rfl | ⟨l', hl', rfl⟩ := hptr
    · exact ⟨s.st, Returns.of_forall fun _ => rfl, fun _ _ => rfl⟩
    · obtain ⟨pre, b, post, rfl, -, heq⟩ := block_list.mem_payloads (h.mem_payloads hl')
      obtain ⟨hptr, -⟩ := Prod.mk.inj heq
      obtain ⟨mem', hkfree, -⟩ := kfree_spec h.rep
      rw [← hptr] at hkfree
      exact ⟨_, hkfree, kfree_keeps h.rep (hptr ▸ hkfree)⟩
  obtain ⟨st', hkfree, hsame⟩ := hresult
  obtain rfl := hret.unique (hkfree.map (note_free s ptr))
  refine ⟨List.mem_filter.mpr ⟨hl, decide_eq_true hother⟩, fun i hi => ?_⟩
  exact hsame _ (h.mem_live hl (Nat.le_add_right _ _) (Nat.add_lt_add_left hi _))

/-- One use of the heap. -/
theorem Tracked.event (h : Tracked s blocks) {e : HeapEvent} (hvalid : ValidEvent limit s e) :
    ∃ s' blocks', Returns (fun fuel => heap_event fuel s e) s' ∧ Tracked s' blocks' ∧
      ∀ l ∈ s.live, e ≠ .call (.free l.ptr) → KeepsBlock l s [e] s' := by
  cases e with
  | store addr value =>
    refine ⟨s.put addr value, blocks, Returns.of_forall fun _ => rfl, h.put hvalid, fun l hl _ => ⟨hl, fun i _ => ?_⟩⟩
    by_cases hsame : addr = l.ptr + i
    · rw [put_mem, hsame, Function.update_self, stored, if_pos rfl, stored]
    · rw [put_mem, Function.update_of_ne (Ne.symm hsame), stored, if_neg hsame, stored]
  | call op =>
    obtain ⟨s', blocks', hret, hsteps⟩ := h.step hvalid
    refine ⟨s', blocks', hret, hsteps.tracked, fun l hl hother => ?_⟩
    cases op with
    | malloc n => exact h.malloc_keeps hret hl
    | free ptr =>
      apply h.free_keeps hvalid hret hl
      rintro rfl
      exact hother rfl

theorem stored_append (addr : ℕ) (value : UInt8) (before after : List HeapEvent) :
    stored addr value (before ++ after) = stored addr (stored addr value before) after := by
  induction before generalizing value with
  | nil => rfl
  | cons e before ih =>
    cases e with
    | call op => exact ih value
    | store addr' value' => exact ih _

/-- Every run of valid uses returns, and keeps the live blocks that it does not free. -/
theorem Tracked.events (h : Tracked s blocks) {events : List HeapEvent} (hvalid : ValidEvents limit s events) :
    ∃ s' blocks', Returns (fun fuel => event_run fuel s events) s' ∧ Tracked s' blocks' ∧
      ∀ l ∈ s.live, HeapEvent.call (.free l.ptr) ∉ events → KeepsBlock l s events s' := by
  induction events generalizing s blocks with
  | nil => exact ⟨s, blocks, Returns.of_forall fun _ => rfl, h, fun l hl _ => ⟨hl, fun _ _ => rfl⟩⟩
  | cons e events ih =>
    obtain ⟨s₁, blocks₁, hret₁, htracked₁, hkeeps₁⟩ := h.event hvalid.1
    obtain ⟨s₂, blocks₂, hret₂, htracked₂, hkeeps₂⟩ := ih htracked₁ (hvalid.2 s₁ hret₁)
    refine ⟨s₂, blocks₂, hret₁.bind hret₂, htracked₂, fun l hl hnot => ?_⟩
    rw [List.mem_cons, not_or] at hnot
    have hfirst := hkeeps₁ l hl (Ne.symm hnot.1)
    have hrest := hkeeps₂ l hfirst.live hnot.2
    refine ⟨hrest.live, fun i hi => ?_⟩
    rw [hrest.bytes i hi, hfirst.bytes i hi, ← stored_append]
    rfl

/-- A valid run is valid up to any point, and from there on. -/
theorem Tracked.valid_append (h : Tracked s blocks) {before after : List HeapEvent}
    (hvalid : ValidEvents limit s (before ++ after)) : ValidEvents limit s before ∧
      ∀ s₁, Returns (fun fuel => event_run fuel s before) s₁ → ValidEvents limit s₁ after := by
  induction before generalizing s blocks with
  | nil =>
    refine ⟨trivial, fun s₁ hret => ?_⟩
    rwa [hret.unique (Returns.of_forall fun _ => rfl)]
  | cons e before ih =>
    obtain ⟨s', blocks', hret', htracked', -⟩ := h.event hvalid.1
    obtain ⟨hbefore, hafter⟩ := ih htracked' (hvalid.2 s' hret')
    refine ⟨⟨hvalid.1, fun s'' hret'' => hret'.unique hret'' ▸ hbefore⟩, fun s₁ hret => ?_⟩
    obtain ⟨s₂, -, hret₂, -⟩ := htracked'.events hbefore
    apply hafter
    rwa [hret.unique (hret'.bind hret₂)]

/-- A live block keeps what its owner has stored in it, whatever is allocated, freed and stored elsewhere until it is
    freed, and no two live blocks overlap. -/
theorem block_keeps_contents (mem : ℕ → UInt8) (size : ℕ) (before after : List HeapEvent)
    (hvalid : ValidEvents (2 ^ 64) (fresh_heap mem size) (before ++ after)) :
    ∃ s₁ s₂, Returns (fun fuel => event_run fuel (fresh_heap mem size) before) s₁ ∧
      Returns (fun fuel => event_run fuel s₁ after) s₂ ∧
      (∀ l ∈ s₁.live, HeapEvent.call (.free l.ptr) ∉ after → KeepsBlock l s₁ after s₂) ∧
      s₂.live.Pairwise fun l m => l.ptr + l.size ≤ m.ptr ∨ m.ptr + m.size ≤ l.ptr := by
  have hfresh := fresh_heap_tracked mem size
  obtain ⟨hbefore, hafter⟩ := hfresh.valid_append hvalid
  obtain ⟨s₁, blocks₁, hret₁, htracked₁, -⟩ := hfresh.events hbefore
  obtain ⟨s₂, blocks₂, hret₂, htracked₂, hkeeps⟩ := htracked₁.events (hafter s₁ hret₁)
  refine ⟨s₁, s₂, hret₁, hret₂, hkeeps, ?_⟩
  have hpairs : (payloads HEADER_SIZE s₂.st.heap_start blocks₂).Pairwise fun p q => p.1 + p.2 ≤ q.1 ∨ q.1 + q.2 ≤ p.1 :=
    (payloads_pairwise s₂.st.heap_start blocks₂).imp fun hpq => .inl (by omega)
  exact List.pairwise_map.mp (htracked₂.live.symm.pairwise hpairs fun hpq => hpq.symm)

/-- The first byte of the first block of a fresh heap is its owner's. -/
theorem fresh_malloc_inLive {size n : ℕ} (hn : 0 < n) (hlimit : n + 3 < 2 ^ 64) (hfit : align4 n ≤ (first_block size).size)
    (h : Returns (fun fuel => heap_step fuel (fresh_heap mem size) (.malloc n)) s) :
    InLive s (HEAP_START + HEADER_SIZE) := by
  have hptr := fresh_malloc_live (by omega) hfit h
  obtain ⟨l, hl, hfirst⟩ := List.mem_map.mp (show HEAP_START + HEADER_SIZE ∈ s.live.map Live.ptr by
    rw [hptr]
    exact List.mem_singleton_self _)
  have hrequest : l.request = n := by
    obtain ⟨fuel, hstep⟩ := h.exists
    obtain ⟨r, -, heq⟩ := Option.map_eq_some_iff.mp hstep
    subst heq
    unfold note_malloc at hl
    split at hl
    · cases hl
    · rw [List.mem_singleton.mp hl]
  obtain ⟨s', blocks', hret, hsteps⟩ := (fresh_heap_tracked mem size).malloc (show n < n + 1 by omega)
  rw [hret.unique h] at hsteps
  obtain hold | ⟨-, hsize⟩ := hsteps.added l hl
  · cases hold
  · refine ⟨l, hl, hfirst.le, ?_⟩
    rw [hrequest, align4] at hsize
    omega

/-- A block is allocated and gets a byte, and another one is allocated. -/
theorem block_keeps_contents_one_page :
    ∃ s₁ s₂, Returns (fun fuel => event_run fuel (fresh_heap (fun _ => 0) 4096)
        [.call (.malloc 100), .store (HEAP_START + HEADER_SIZE) 7]) s₁ ∧
      Returns (fun fuel => event_run fuel s₁ [.call (.malloc 200)]) s₂ ∧
      (∀ l ∈ s₁.live, HeapEvent.call (.free l.ptr) ∉ [HeapEvent.call (.malloc 200)] →
        KeepsBlock l s₁ [.call (.malloc 200)] s₂) ∧
      s₂.live.Pairwise fun l m => l.ptr + l.size ≤ m.ptr ∨ m.ptr + m.size ≤ l.ptr := by
  apply block_keeps_contents
  refine ⟨by simp only [ValidEvent, ValidOp]; omega, fun s₁ hret => ⟨?_, fun _ _ => ⟨?_, fun _ _ => trivial⟩⟩⟩
  · exact fresh_malloc_inLive (by omega) (by omega) (by decide) hret
  · simp only [ValidEvent, ValidOp]
    omega

end os_dev.heap
