import OsDev.Fat32.Integrity
import OsDev.Fat32.Stability
import OsDev.Fat32.Blank

open os_dev.ata os_dev.libc little_endian forest link_chain fuel

namespace os_dev.fat32

variable {v : Volume} {d d' : Disk} {c : ℕ} {l l' : List ℕ} {st : Fat32}

/-- A search in which each step is as before or stops at `x` is as before or stops at `x`. -/
theorem findSome?_or {α β : Type} {l : List α} {f g : α → Option β} {x : β}
    (h : ∀ a ∈ l, f a = g a ∨ f a = some x) : l.findSome? f = l.findSome? g ∨ l.findSome? f = some x := by
  induction l with
  | nil => exact .inl rfl
  | cons a l ih =>
    simp only [List.findSome?_cons]
    rcases h a (by simp) with heq | heq
    · rw [heq]
      cases g a with
      | none => exact ih fun b hb => h b (by simp [hb])
      | some b => exact .inl rfl
    · exact .inr (by rw [heq])

/-- A new hit in a sector is found, unless an older one stands in front of it. -/
theorem scan_entries_new {hit : fat32_dir_entry_t → Bool} {buf buf' : Sector} {n start i : ℕ}
    (hlo : start ≤ i) (hhi : i < start + n) (hhit : hit (dir_entry buf' i) = true)
    (hfront : ∀ i' ≤ i, start ≤ i' → (dir_entry buf' i').name0 ≠ 0)
    (hsame : ∀ i', start ≤ i' → i' < start + n → i' ≠ i → dir_entry buf' i' = dir_entry buf i') :
    scan_entries hit buf' n start = scan_entries hit buf n start ∨ scan_entries hit buf' n start = some i := by
  induction n generalizing start with
  | zero => omega
  | succ n ih =>
    have hname := hfront start hlo le_rfl
    rcases Nat.eq_or_lt_of_le hlo with rfl | hlt
    · exact .inr (by simp [scan_entries, hname, hhit])
    · have heq := hsame start le_rfl (by omega) (by omega)
      rw [heq] at hname
      simp only [scan_entries, heq, if_neg hname]
      cases hit (dir_entry buf start) with
      | true => exact .inl rfl
      | false =>
        rw [if_neg (by simp), if_neg (by simp)]
        refine ih hlt (by omega) (fun i' hle hlo' => hfront i' hle (by omega)) ?_
        exact fun i' hlo' hhi' => hsame i' (by omega) (by omega)

/-- The directory at `c` has received the entry `e` in slot `i` of sector `j` of
    cluster `k`, which it may have grown by. -/
structure Inserted (v : Volume) (d d' : Disk) (c : ℕ) (l l' : List ℕ) (k j i : ℕ) (e : fat32_dir_entry_t) : Prop where
  cells : Cells v d' c l'
  sector : j < v.bpb.sectors_per_cluster
  index : i < 16
  entry : slot v d' k (16 * j + i) = e
  front : ∀ i' < i, (slot v d' k (16 * j + i')).name0 ≠ 0
  slots : ∀ k' ∈ l, ∀ i' < slots_per_cluster v, (k', i') ≠ (k, 16 * j + i) → slot v d' k' i' = slot v d k' i'
  chain : (l' = l ∧ k ∈ l) ∨ (l' = l ++ [k] ∧ k ∉ l ∧
    ∀ i' < slots_per_cluster v, i' ≠ 16 * j + i → (slot v d' k i').name0 = 0)

/-- What `create_entry` has done when it returns 0. No other cluster in use has changed. -/
theorem Volume.Sane.create_entry_inserts (hv : v.Sane) (hl : Cells v d c l)
    (hnext : chain_hit v d free_scan l = none → NextInRange v d) {name : CStr} {attr : UInt8} {fc : ℕ} (h : Returns (fun fuel => create_entry fuel v d c name attr fc 0) (0, d')) :
    ∃ l' k j i, Inserted v d d' c l l' k j i (made_entry (standardize_base name) (standardize_ext name) attr fc 0) ∧
      ∀ y, v.InRange y → y ∉ l → ¬ IsFree v d y → get_next_cluster v d' y = get_next_cluster v d y ∧
        ∀ i' < slots_per_cluster v, slot v d' y i' = slot v d y i' := by
  obtain ⟨fuel, hfuel, hlen⟩ := (h.and (Filter.eventually_gt_atTop (l.length + 1))).exists
  change create_entry fuel v d c name attr fc 0 = some (0, d') at hfuel
  rcases hv.create_entry_cases hnext hl hlen name attr fc 0 with ⟨⟨k, j, i⟩, hfree, heq⟩ | ⟨_, _, heq⟩ |
    ⟨x, hx, hfull, hlast, hzero, hin, hisfree, heq⟩
  · obtain ⟨hk, hj, hi, _, hfront⟩ := free_hit_some hfree
    have hkin := hl.inRange hk
    obtain rfl : fill_slot v d (k, j, i) name attr fc 0 = d' := by
      rw [heq] at hfuel
      exact (Prod.mk.inj (Option.some.inj hfuel)).2
    have hother : ∀ k', v.InRange k' → ∀ i' < slots_per_cluster v, (k', i') ≠ (k, 16 * j + i) →
        slot v (fill_slot v d (k, j, i) name attr fc 0) k' i' = slot v d k' i' :=
      fun k' hk' i' hi' hne => slot_fill_other hkin.1 hk'.1 hj hi' hne
    refine ⟨l, k, j, i, ⟨hl.congr_words hv fun z hz => fat_word_fill hv (hl.inRange hz).inTable, hj, hi,
      slot_fill_same hi (by decide), fun i' hlt => ?_, fun k' hk' => hother k' (hl.inRange hk'), .inl ⟨rfl, hk⟩⟩,
      fun y hy hout _ => ⟨hv.link_congr hy.inTable (fat_word_fill hv hy.inTable), fun i' hi' => ?_⟩⟩
    · rw [hother k hkin _ (slot_index_lt hj (by omega)) (by simp; omega)]
      exact hfront i' hlt
    · refine hother y hy i' hi' fun heq => hout ?_
      rw [(Prod.mk.inj heq).1]
      exact hk
  · rw [heq] at hfuel
    cases hfuel
  · generalize find_free_cluster v d = z at hzero hin hisfree heq
    obtain rfl : fill_slot v (append_cluster v d x z) (z, 0, 0) name attr fc 0 = d' := by
      rw [heq] at hfuel
      exact (Prod.mk.inj (Option.some.inj hfuel)).2
    have hxin := hl.inRange hx
    have hout : z ∉ l := fun hmem => hl.not_free hv hmem hisfree
    have hxz : x ≠ z := fun heq => hout (heq ▸ hx)
    obtain ⟨hlink, hend, hlinks⟩ := hv.append_links hxin hin hxz d
    have hfill : ∀ k', v.InRange k' → ∀ i' < slots_per_cluster v, (k', i') ≠ (z, 16 * 0 + 0) →
        slot v (fill_slot v (append_cluster v d x z) (z, 0, 0) name attr fc 0) k' i' =
          slot v (append_cluster v d x z) k' i' :=
      fun k' hk' i' hi' hne => slot_fill_other hin.1 hk'.1 hv.cluster_pos hi' hne
    have hother : ∀ k', v.InRange k' → k' ≠ z → ∀ i' < slots_per_cluster v,
        slot v (fill_slot v (append_cluster v d x z) (z, 0, 0) name attr fc 0) k' i' = slot v d k' i' := by
      intro k' hk' hne i' hi'
      rw [hfill k' hk' i' hi' fun heq => hne (Prod.mk.inj heq).1]
      exact slot_congr (hv.append_cluster_data hxin hin hk' hne (sector_of_slot hi'))
    have hgrown : Cells v (append_cluster v d x z) c (l ++ [z]) := by
      refine hl.extend (not_inRange_eoc (v := v)) hx hlast hin hlink hend fun w hw hwx => ?_
      exact hlinks w (hl.inRange hw) hwx fun heq => hout (heq ▸ hw)
    refine ⟨l ++ [z], z, 0, 0, ⟨hgrown.congr_words hv fun w hw => fat_word_fill hv (hgrown.inRange hw).inTable,
      hv.cluster_pos, by omega, slot_fill_same (by omega) (by decide), by simp, fun k' hk' i' hi' _ => ?_,
      .inr ⟨rfl, hout, fun i' hi' hne => ?_⟩⟩, fun y hy hyl hused => ?_⟩
    · exact hother k' (hl.inRange hk') (fun heq => hout (heq ▸ hk')) i' hi'
    · rw [hfill z hin i' hi' fun heq => hne (Prod.mk.inj heq).2, slot,
        hv.append_cluster_cleared hin (sector_of_slot hi')]
      exact dir_entry_zero_name0 _
    · have hyz : y ≠ z := fun heq => hused (heq ▸ hisfree)
      refine ⟨?_, hother y hy hyz⟩
      rw [hv.link_congr hy.inTable (fat_word_fill hv hy.inTable)]
      exact hlinks y hy (fun heq => hyl (heq ▸ hx)) hyz

/-- After an insertion a search stops where it stopped before, or at the new entry. -/
theorem Inserted.chain_hit {k j i : ℕ} {e : fat32_dir_entry_t} {hit : fat32_dir_entry_t → Bool}
    (h : Inserted v d d' c l l' k j i e) (hhit : hit e = true) (hname : e.name0 ≠ 0) :
    chain_hit v d' (hit_scan hit) l' = fat32.chain_hit v d (hit_scan hit) l ∨
      fat32.chain_hit v d' (hit_scan hit) l' = some (k, j, i) := by
  have hi := h.index
  have hcluster : ∀ k' ∈ l, cluster_hit v d' (hit_scan hit) k' = cluster_hit v d (hit_scan hit) k' ∨
      k' = k ∧ cluster_hit v d' (hit_scan hit) k' = some (j, i) := by
    intro k' hk'
    have hother : ∀ j' < v.bpb.sectors_per_cluster, ∀ i' < 16, (k', 16 * j' + i') ≠ (k, 16 * j + i) →
        dir_entry (d' (data_sector v k' j')) i' = dir_entry (d (data_sector v k' j')) i' := by
      intro j' hj' i' hi' hne
      rw [← slot_eq_dir_entry hi', ← slot_eq_dir_entry hi']
      exact h.slots k' hk' _ (slot_index_lt hj' hi') hne
    by_cases hk : k' = k
    case neg =>
      refine .inl (findSome?_congr fun j' hj' => congrArg _ (scan_entries_congr fun i' _ hi' => ?_))
      rw [hother j' (List.mem_range.mp hj') i' (by omega) fun heq => hk (Prod.mk.inj heq).1]
      exact ⟨Iff.rfl, rfl⟩
    subst hk
    refine (findSome?_or fun j' hj' => ?_).imp_right fun hnew => ⟨rfl, hnew⟩
    by_cases hj : j' = j
    · -- the sector of the new entry
      subst hj
      have hnew := @slot_eq_dir_entry v d' k' j' i hi
      rw [h.entry] at hnew
      have hscan : hit_scan hit (d' (data_sector v k' j')) = hit_scan hit (d (data_sector v k' j')) ∨
          hit_scan hit (d' (data_sector v k' j')) = some i := by
        refine scan_entries_new (Nat.zero_le i) (by omega) (hnew ▸ hhit) ?_ ?_
        · intro i' hle _
          rcases Nat.eq_or_lt_of_le hle with rfl | hlt
          · exact hnew ▸ hname
          · rw [← slot_eq_dir_entry (by omega)]
            exact h.front i' hlt
        · intro i' _ hi' hne
          refine hother j' h.sector i' (by omega) fun heq => hne ?_
          have := (Prod.mk.inj heq).2
          omega
      exact hscan.imp (fun heq => by rw [heq]) fun heq => by rw [heq]; rfl
    · refine .inl (congrArg _ (scan_entries_congr fun i' _ hi' => ?_))
      rw [hother j' (List.mem_range.mp hj') i' (by omega) fun heq => hj (by
        have := (Prod.mk.inj heq).2
        omega)]
      exact ⟨Iff.rfl, rfl⟩
  have hchain : fat32.chain_hit v d' (hit_scan hit) l = fat32.chain_hit v d (hit_scan hit) l ∨
      fat32.chain_hit v d' (hit_scan hit) l = some (k, j, i) := by
    refine findSome?_or fun k' hk' => ?_
    rcases hcluster k' hk' with heq | ⟨rfl, heq⟩
    · exact .inl (by rw [heq])
    · exact .inr (by rw [heq]; rfl)
  rcases h.chain with ⟨rfl, _⟩ | ⟨rfl, _, hnew⟩
  · exact hchain
  · rw [fat32.chain_hit, List.findSome?_append, ← fat32.chain_hit, ← fat32.chain_hit]
    cases hold : fat32.chain_hit v d' (hit_scan hit) l with
    | some pos =>
      rw [hold] at hchain
      exact hchain
    | none =>
      rw [hold] at hchain
      rw [Option.none_or]
      cases hlast : fat32.chain_hit v d' (hit_scan hit) [k] with
      | none => exact .inl (hchain.resolve_right (by simp))
      | some pos =>
        obtain ⟨k', j', i'⟩ := pos
        obtain ⟨hk', hj', hscan⟩ := chain_hit_some hlast
        obtain ⟨_, hi', _, hzero⟩ := scan_entries_some hscan
        obtain rfl := List.mem_singleton.mp hk'
        -- the other slots of the new cluster are end marks
        have hindex : 16 * j' + i' = 16 * j + i := by
          by_contra hne
          have hend := hnew _ (slot_index_lt hj' (by omega)) hne
          rw [slot_eq_dir_entry (by omega)] at hend
          exact hzero hend
        rw [show j' = j by omega, show i' = i by omega]
        exact .inr rfl

/-- What has been inserted under a name of its own can be found. -/
theorem Inserted.chain_hit_ne_none {k j i : ℕ} {e : fat32_dir_entry_t} {hit : fat32_dir_entry_t → Bool}
    (h : Inserted v d d' c l l' k j i e) (hhit : hit e = true) (hname : e.name0 ≠ 0) :
    fat32.chain_hit v d' (hit_scan hit) l' ≠ none := by
  intro hnone
  have hk : k ∈ l' := by
    rcases h.chain with ⟨rfl, hk⟩ | ⟨rfl, _⟩
    · exact hk
    · simp
  have hmiss := chain_hit_scan_none hnone hk h.sector h.index fun i' hle => by
    rcases Nat.eq_or_lt_of_le hle with rfl | hlt
    · rw [h.entry]
      exact hname
    · exact h.front i' hlt
  rw [h.entry, hhit] at hmiss
  cases hmiss

/-- The current directory holds an entry under the 8.3 form of `n` that has clusters. -/
def Finds (st : Fat32) (n : CStr) : Prop :=
  ∃ l k j i, Cells st.vol st.disk st.fat32_cwd_cluster l ∧ lookup st.vol st.disk true l n = some (k, j, i) ∧
    (slot st.vol st.disk k (16 * j + i)).first_cluster ≠ 0

/-- Whether a name of one component can be resolved. -/
theorem finds_iff {n : CStr} {r : ℕ} (hv : st.vol.Sane) (hmounted : st.mounted = true) (hslash : slash ∉ n)
    (hne : n ≠ []) (hl : Cells st.vol st.disk st.fat32_cwd_cluster l)
    (hr : Returns (fun fuel => fat32_resolve_path fuel st n) r) : Finds st n ↔ r ≠ 0 := by
  obtain rfl := hr.unique (resolve_component hslash hv hmounted hne hl)
  constructor
  · rintro ⟨l', k, j, i, hl', hfound, hfc⟩
    rw [Cells.unique hl' hl] at hfound
    rwa [hfound]
  · intro hzero
    cases hfound : lookup st.vol st.disk true l n with
    | none =>
      rw [hfound] at hzero
      exact absurd rfl hzero
    | some pos =>
      rw [hfound] at hzero
      exact ⟨l, pos.1, pos.2.1, pos.2.2, hl, hfound, hzero⟩

/-- What `fat32_mkdir` leaves behind for a name of one component: the new directory
    is a cluster of its own with the two dot entries, and the name leads there if it
    leads anywhere. -/
structure Made (st st₁ : Fat32) (n : CStr) (l : List ℕ) (y : ℕ) : Prop where
  same : st₁ = { st with disk := st₁.disk }
  cells : Cells st₁.vol st₁.disk st₁.fat32_cwd_cluster l
  own : Cells st₁.vol st₁.disk y [y]
  dots : ∀ i < slots_per_cluster st₁.vol, (slot st₁.vol st₁.disk y i).name0 = dot ∨ (slot st₁.vol st₁.disk y i).name0 = 0
  target : ∀ r, Returns (fun fuel => fat32_resolve_path fuel st₁ n) r → r = 0 ∨ r = y

section Made

variable {st₁ : Fat32} {n : CStr} (hv : st.vol.Sane) (hmounted : st.mounted = true)
  (hl : Cells st.vol st.disk st.fat32_cwd_cluster l) (hsupply : EntrySupply st.vol st.disk st.fat32_cwd_cluster)
  (hne : n ≠ []) (hslash : slash ∉ n)

include hv hmounted hl hsupply hne hslash

omit hmounted hne in
/-- A `fat32_mkdir` that returned 0 has found no cluster under the name, has made a
    directory of a free cluster, and has entered it. -/
theorem mkdir_steps (hret : Returns (fun fuel => fat32_mkdir fuel st n) (0, st₁)) :
    ∃ y parent d, Returns (fun fuel => fat32_resolve_path fuel st n) 0 ∧ st.vol.InRange y ∧
      IsFree st.vol st.disk y ∧ d = init_directory st.vol (set_next_cluster st.vol st.disk y FAT32_EOC) y parent ∧
      st₁ = { st with disk := st₁.disk } ∧
      Returns (fun fuel => create_entry fuel st.vol d st.fat32_cwd_cluster n FAT_ATTR_DIRECTORY y 0) (0, st₁.disk) := by
  have hcwd : st.fat32_cwd_cluster ≠ 0 := (hl.inRange hl.head_mem).ne_zero
  obtain ⟨fuel, hfuel⟩ := hret.exists
  obtain hback | ⟨⟨hmissing, hfull⟩, p, name, leading, parent, rc, d', hparent, -, hcreate, heq⟩ := mkdir_cases hfuel
  · cases hback
  have hnamed : parent_and_name fuel st n = some (st.fat32_cwd_cluster, n, false) := by
    simp [parent_and_name, split_last_slash_eq_none.mpr hslash]
  cases hnamed.symm.trans hparent
  rw [if_neg hcwd] at hcreate
  obtain ⟨hrc, rfl⟩ := Prod.mk.inj heq
  obtain rfl : rc = 0 := by
    by_contra hne
    simp [hne] at hrc
  exact ⟨_, parent, _, (fat32_resolve_path_stable st n).returns hmissing, hsupply.1 hfull, hv.find_free_isFree hfull,
    rfl, rfl, (create_entry_stable _ _ _ _ _ _).returns hcreate⟩

theorem mkdir_made (hzero : 0 ∉ n) (hret : Returns (fun fuel => fat32_mkdir fuel st n) (0, st₁)) :
    ∃ l' y, Made st st₁ n l' y := by
  obtain ⟨y, parent, d, hmissing, hy, hfree, hd, hst₁, hcreate⟩ := mkdir_steps hv hl hsupply hslash hret
  generalize st₁.disk = d' at hst₁ hcreate
  subst hst₁
  have halloc := hv.allocated_directory hy st.disk parent
  rw [← hd] at halloc
  have hout : y ∉ l := fun hmem => hl.not_free hv hmem hfree
  obtain ⟨l', k, j, i, hins, hrest⟩ := hv.create_entry_inserts (halloc.cells hv hfree hl) (halloc.grows hv hfree hl hsupply) hcreate
  obtain ⟨hlink, hslots⟩ := hrest y hy hout halloc.not_free
  have hown : Cells st.vol d' y [y] := .last hy (hlink.trans (halloc.link hv))
  refine ⟨l', y, rfl, hins.cells, hown, fun i' hi' => ?_, fun r hr => ?_⟩
  · obtain ⟨h0, h1, hrest⟩ := hv.init_directory_slots hy (set_next_cluster st.vol st.disk y FAT32_EOC) parent
    rw [← hd] at h0 h1 hrest
    change (slot st.vol d' y i').name0 = dot ∨ (slot st.vol d' y i').name0 = 0
    rw [hslots i' hi']
    by_cases hi0 : i' = 0
    · rw [hi0, h0]
      exact .inl rfl
    · by_cases hi1 : i' = 1
      · rw [hi1, h1]
        exact .inl rfl
      · exact .inr (hrest i' hi' (by omega))
  · have hresolve := @resolve_component { st with disk := d' } n hslash hv hmounted hne l' hins.cells
    obtain rfl := hr.unique hresolve
    have hlt : y < 2 ^ 32 := by
      have := hy.lt_eoc
      omega
    have hentry : (slot st.vol d' k (16 * j + i)).first_cluster = y := by
      rw [hins.entry, made_entry_first_cluster hlt]
    cases hfound : lookup st.vol d' true l' n with
    | none => exact .inl rfl
    | some pos =>
      obtain ⟨k', j', i'⟩ := pos
      obtain ⟨_, hj', hi', _, hmark, _, hname, _⟩ := lookup_some hfound
      have hmatch : matches_name true (standardize_name n)
          (made_entry (standardize_base n) (standardize_ext n) FAT_ATTR_DIRECTORY y 0) = true := by
        refine matches_name_iff.mpr ⟨?_, fun _ => show FAT_ATTR_DIRECTORY ≠ FAT_ATTR_LFN by decide, rfl, rfl⟩
        rw [fat32_dir_entry_t.name0, hname] at hmark
        exact hmark
      rcases hins.chain_hit hmatch (standardize_base_ne_zero hzero) with hold | hnew
      · -- the name was found here before, and had no clusters
        by_cases heq : (k', 16 * j' + i') = (k, 16 * j + i)
        · obtain ⟨rfl, hindex⟩ := Prod.mk.inj heq
          simp only [hindex]
          exact .inr hentry
        · have hbefore : lookup st.vol st.disk true l n = some (k', j', i') := by
            rw [← hfound]
            refine (chain_hit_congr fun x hx s hs => ?_).symm.trans hold.symm
            exact halloc.data x (hl.inRange hx) (fun heq => hout (heq ▸ hx)) s hs
          have hk' := (lookup_some hbefore).1
          have hresolve := resolve_component hslash hv hmounted hne hl
          rw [hbefore] at hresolve
          refine .inl (Eq.trans ?_ (hresolve.unique hmissing))
          simp only [hins.slots k' hk' _ (slot_index_lt hj' hi') heq]
          rw [slot_congr]
          exact halloc.data k' (hl.inRange hk') (fun heq => hout (heq ▸ hk')) _ (sector_of_slot (slot_index_lt hj' hi'))
      · rw [hfound.symm.trans hnew]
        exact .inr hentry

end Made

/-- Going down to `n` and up again both succeed and restore the current directory. -/
def Cancels (st : Fat32) (n : CStr) : Prop :=
  ∃ st₁ st₂, Returns (fun fuel => fat32_chdir fuel st n) (0, st₁) ∧
    Returns (fun fuel => fat32_chdir fuel st₁ [dot, dot]) (0, st₂) ∧
    st₂.fat32_cwd_cluster = st.fat32_cwd_cluster ∧ st₂.fat32_cwd_path = st.fat32_cwd_path

/-- What a `fat32_chdir` that returned 0 has resolved and done. -/
theorem chdir_steps {path : CStr} {st₁ : Fat32} (h : Returns (fun fuel => fat32_chdir fuel st path) (0, st₁)) :
    ∃ r, Returns (fun fuel => fat32_resolve_path fuel st path) r ∧ r ≠ 0 ∧ change_cwd st path r = some (0, st₁) := by
  obtain ⟨fuel, hfuel⟩ := h.exists
  obtain ⟨r, hr, hcwd⟩ := Option.bind_eq_some_iff.mp hfuel
  refine ⟨r, (fat32_resolve_path_stable st path).returns hr, ?_, hcwd⟩
  rintro rfl
  simp [change_cwd] at hcwd

theorem change_cwd_up_root {r : ℕ} (hr : r ≠ 0) (hpath : st.fat32_cwd_path = [slash]) :
    change_cwd st [dot, dot] r = some (0, st) := by
  unfold change_cwd
  rw [if_neg hr, if_neg (by decide), if_neg (by decide), if_pos rfl, if_pos hpath]

/-- Away from the root, `..` goes to the cluster it was resolved to, under a shorter path. -/
theorem change_cwd_up_below {r : ℕ} {st₁ : Fat32} (hr : r ≠ 0) (hpath : st.fat32_cwd_path ≠ [slash])
    (h : change_cwd st [dot, dot] r = some (0, st₁)) :
    ∃ path, path ≠ st.fat32_cwd_path ∧ st₁ = { st with fat32_cwd_path := path, fat32_cwd_cluster := r } := by
  unfold change_cwd at h
  rw [if_neg hr, if_neg (by decide), if_neg (by decide), if_pos rfl, if_neg hpath] at h
  cases hsplit : split_last_slash st.fat32_cwd_path with
  | none =>
    rw [hsplit] at h
    cases h
  | some pair =>
    obtain ⟨front, back⟩ := pair
    rw [hsplit] at h
    cases front with
    | nil =>
      cases h
      exact ⟨_, hpath.symm, rfl⟩
    | cons c cs =>
      cases h
      refine ⟨_, fun heq => ?_, rfl⟩
      have hlen := congrArg List.length ((split_last_slash_some hsplit).1.symm.trans heq.symm)
      simp at hlen

theorem change_cwd_dot {r : ℕ} (hr : r ≠ 0) : change_cwd st [dot] r = some (0, st) := by
  unfold change_cwd
  rw [if_neg hr, if_neg (by decide), if_pos rfl]

/-- A name that is no dot name is appended to the current path. -/
theorem change_cwd_down {n : CStr} {r : ℕ} {st₁ : Fat32} (hr : r ≠ 0) (hslash : slash ∉ n) (hdot : n ≠ [dot])
    (hdots : n ≠ [dot, dot]) (h : change_cwd st n r = some (0, st₁)) :
    ∃ path, st₁ = { st with fat32_cwd_path := path, fat32_cwd_cluster := r } := by
  unfold change_cwd at h
  rw [if_neg hr, if_neg (head_of_no_slash hslash), if_neg hdot, if_neg hdots] at h
  cases h
  exact ⟨_, rfl⟩

/-- From the new directory there is no way up: its entry `..` is not the 8.3 form
    that the name `..` is searched under. -/
theorem Made.no_ascent {st₁ st₂ st₃ : Fat32} {n path : CStr} {y : ℕ} (h : Made st st₁ n l y) (hv : st.vol.Sane)
    (hmounted : st.mounted = true) (hst₂ : st₂ = { st₁ with fat32_cwd_path := path, fat32_cwd_cluster := y }) :
    ¬ Returns (fun fuel => fat32_chdir fuel st₂ [dot, dot]) (0, st₃) := by
  intro hret
  obtain ⟨r, hr, hne, _⟩ := chdir_steps hret
  have hsame := h.same
  have hvol : st₁.vol = st.vol := by rw [hsame]
  have hmounted₁ : st₁.mounted = true := by rw [hsame, hmounted]
  subst hst₂
  have hnone : lookup st₁.vol st₁.disk true [y] [dot, dot] = none := by
    cases hfound : lookup st₁.vol st₁.disk true [y] [dot, dot] with
    | none => rfl
    | some pos =>
      obtain ⟨k, j, i⟩ := pos
      obtain ⟨hk, hj, hi, hzero, _, _, hname, _⟩ := lookup_some hfound
      obtain rfl := List.mem_singleton.mp hk
      refine absurd (h.dots _ (slot_index_lt hj hi)) (not_or.mpr ⟨?_, hzero⟩)
      rw [fat32_dir_entry_t.name0, hname]
      exact standardize_base_ne_dot _
  have hresolve := @resolve_component { st₁ with fat32_cwd_path := path, fat32_cwd_cluster := y } [dot, dot]
    (by decide) (hvol.symm ▸ hv) hmounted₁ (by decide) [y] h.own
  simp only [hnone] at hresolve
  exact hne (hr.unique hresolve)

/-- Descending into a directory that `fat32_mkdir` has just made and ascending again
    restores the current directory only from the root, and only when the name is a
    dot name, for which `fat32_chdir` does nothing. -/
theorem chdir_cancels_iff (st st₁ : Fat32) (n : CStr) (l : List ℕ) (hmounted : st.mounted = true) (hv : st.vol.Sane)
    (hl : Cells st.vol st.disk st.fat32_cwd_cluster l) (hsupply : EntrySupply st.vol st.disk st.fat32_cwd_cluster)
    (hne : n ≠ []) (hslash : slash ∉ n) (hzero : 0 ∉ n) (hmkdir : Returns (fun fuel => fat32_mkdir fuel st n) (0, st₁)) :
    Cancels st₁ n ↔ st₁.fat32_cwd_path = [slash] ∧ (n = [dot] ∨ n = [dot, dot]) ∧ Finds st₁ n ∧
      Finds st₁ [dot, dot] := by
  obtain ⟨l', y, hmade⟩ := mkdir_made hv hmounted hl hsupply hne hslash hzero hmkdir
  have hv₁ : st₁.vol.Sane := by
    rw [hmade.same]
    exact hv
  have hmounted₁ : st₁.mounted = true := by
    rw [hmade.same]
    exact hmounted
  have hfinds : ∀ {m : CStr} {r : ℕ}, m ≠ [] → slash ∉ m → Returns (fun fuel => fat32_resolve_path fuel st₁ m) r →
      (Finds st₁ m ↔ r ≠ 0) := fun hm hs hr => finds_iff hv₁ hmounted₁ hs hm hmade.cells hr
  constructor
  · rintro ⟨st₂, st₃, hdown, hup, hcluster, hpath⟩
    obtain ⟨r, hr, hrne, hchange⟩ := chdir_steps hdown
    obtain rfl := (hmade.target r hr).resolve_left hrne
    by_cases hdot : n = [dot]
    · subst hdot
      rw [change_cwd_dot hrne] at hchange
      cases hchange
      obtain ⟨r', hr', hrne', hchange'⟩ := chdir_steps hup
      refine ⟨?_, .inl rfl, (hfinds hne hslash hr).mpr hrne, (hfinds (by decide) (by decide) hr').mpr hrne'⟩
      by_contra hroot
      obtain ⟨path, hshort, rfl⟩ := change_cwd_up_below hrne' hroot hchange'
      exact hshort hpath
    · by_cases hdots : n = [dot, dot]
      · subst hdots
        have hfound := (hfinds hne hslash hr).mpr hrne
        refine ⟨?_, .inr rfl, hfound, hfound⟩
        by_contra hroot
        obtain ⟨path, _, hst₂⟩ := change_cwd_up_below hrne hroot hchange
        exact hmade.no_ascent hv hmounted hst₂ hup
      · obtain ⟨path, hst₂⟩ := change_cwd_down hrne hslash hdot hdots hchange
        exact absurd hup (hmade.no_ascent hv hmounted hst₂)
  · rintro ⟨hroot, hname, hfound, hfound'⟩
    have hr := resolve_component hslash hv₁ hmounted₁ hne hmade.cells
    have hr' := resolve_component (n := [dot, dot]) (by decide) hv₁ hmounted₁ (by decide) hmade.cells
    have hrne := (hfinds hne hslash hr).mp hfound
    have hrne' := (hfinds (by decide) (by decide) hr').mp hfound'
    refine ⟨st₁, st₁, chdir_returns hr ?_, chdir_returns hr' (change_cwd_up_root hrne' hroot), rfl, rfl⟩
    rcases hname with rfl | rfl
    · exact change_cwd_dot hrne
    · exact change_cwd_up_root hrne hroot

/-- Directly under the root a directory named `..` can be entered and left, since
    `fat32_chdir` stays where it is. -/
theorem chdir_cancels_dots :
    ∃ st₁, Returns (fun fuel => fat32_mkdir fuel small_state [dot, dot]) (0, st₁) ∧ Cancels st₁ [dot, dot] := by
  obtain ⟨⟨rc, st₁⟩, hres, htest⟩ := Option.map_eq_some_iff.mp
    (show (fat32_mkdir 4 small_state [dot, dot]).map (fun res => decide (res.1 = 0 ∧
      res.2.fat32_cwd_path = [slash] ∧ fat32_resolve_path 4 res.2 [dot, dot] = some 3)) = some true by decide +kernel)
  obtain ⟨rfl, hpath, hresolve⟩ := of_decide_eq_true htest
  have hmkdir := (fat32_mkdir_stable small_state [dot, dot]).returns hres
  have hsupply : EntrySupply small_state.vol small_state.disk small_state.fat32_cwd_cluster :=
    entrySupply_of_takes small_volume_sane (takesInRange_of_table small_volume_table 2) _
  have hcells := blank_root_cells small_volume_sane small_root_inRange
  obtain ⟨l, y, hmade⟩ := mkdir_made (n := [dot, dot]) small_volume_sane rfl hcells hsupply (by decide) (by decide)
    (by decide) hmkdir
  have hfinds : Finds st₁ [dot, dot] := by
    refine (finds_iff ?_ ?_ (by decide) (by decide) hmade.cells
      ((fat32_resolve_path_stable st₁ _).returns hresolve)).mpr (by decide)
    · rw [hmade.same]
      exact small_volume_sane
    · rw [hmade.same]
      rfl
  refine ⟨st₁, hmkdir, (chdir_cancels_iff small_state st₁ [dot, dot] _ rfl small_volume_sane hcells hsupply
    (by decide) (by decide) (by decide) hmkdir).mpr ⟨hpath, .inr rfl, hfinds, hfinds⟩⟩

/-- On an empty volume, the directory just made can be entered but not left. -/
theorem new_directory_has_no_way_up :
    ∃ st₁ st₂, Returns (fun fuel => fat32_mkdir fuel small_state (ascii "A")) (0, st₁) ∧
      Returns (fun fuel => fat32_chdir fuel st₁ (ascii "A")) (0, st₂) ∧
      Returns (fun fuel => fat32_chdir fuel st₂ [dot, dot]) (-1, st₂) ∧ ¬ Cancels st₁ (ascii "A") := by
  obtain ⟨⟨rc₁, st₁⟩, h₁, hrest⟩ := Option.bind_eq_some_iff.mp
    (show ((fat32_mkdir 4 small_state (ascii "A")).bind fun res₁ => (fat32_chdir 4 res₁.2 (ascii "A")).map fun res₂ =>
      decide (res₁.1 = 0 ∧ res₂.1 = 0 ∧ fat32_resolve_path 4 res₂.2 [dot, dot] = some 0)) = some true by decide +kernel)
  obtain ⟨⟨rc₂, st₂⟩, h₂, htest⟩ := Option.map_eq_some_iff.mp hrest
  obtain ⟨rfl, rfl, hresolve⟩ := of_decide_eq_true htest
  have hdown := (fat32_chdir_stable st₁ (ascii "A")).returns h₂
  have hup : Returns (fun fuel => fat32_chdir fuel st₂ [dot, dot]) (-1, st₂) :=
    chdir_returns ((fat32_resolve_path_stable st₂ _).returns hresolve) (by simp [change_cwd])
  refine ⟨st₁, st₂, (fat32_mkdir_stable small_state (ascii "A")).returns h₁, hdown, hup, ?_⟩
  rintro ⟨st₂', st₃, hdown', hup', _⟩
  obtain ⟨_, rfl⟩ := Prod.mk.inj (hdown.unique hdown')
  exact absurd (Prod.mk.inj (hup.unique hup')).1 (by decide)

end os_dev.fat32
