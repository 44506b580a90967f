import OsDev.Fat32.Stability
import OsDev.Fat32.Blank

open os_dev.ata os_dev.libc little_endian link_chain fuel

namespace os_dev.fat32

variable {v : Volume} {d d' : Disk} {c x : ℕ}

/-- The number of a cluster that has a table word. -/
def Volume.HasWord (v : Volume) (c : ℕ) : Prop := 2 ≤ c ∧ c < FAT32_BAD ∧ v.InTable c

/-- Every word of the table is free, an end mark, or the number of some cluster, be it in a circle. -/
def LinksInTable (v : Volume) (d : Disk) : Prop :=
  ∀ c, v.InTable c → IsFree v d c ∨ 0x0FFFFFF8 ≤ fat_word v d c &&& 0x0FFFFFFF ∨ v.HasWord (fat_word v d c &&& 0x0FFFFFFF)

/-- The clusters that the links lead to. -/
abbrev ReachesCluster (v : Volume) (d : Disk) : ℕ → ℕ → Prop := Reaches v.HasWord (get_next_cluster v d)

/-- The clusters that `c` reaches have been freed, and nothing else has changed. -/
structure FreesReached (v : Volume) (d d' : Disk) (c : ℕ) : Prop where
  cleared : ∀ x, v.InTable x → ReachesCluster v d c x → fat_word v d' x = 0
  kept : ∀ x, v.InTable x → ¬ ReachesCluster v d c x → fat_word v d' x = fat_word v d x
  outside : ∀ lba, lba < v.fat_lba ∨ v.fat_lba + v.bpb.fat_size_32 ≤ lba → d' lba = d lba

/-- How many words of the table are not zero. -/
def words_used (v : Volume) (d : Disk) : ℕ := ((Finset.range (128 * v.bpb.fat_size_32)).filter fun x => fat_word v d x ≠ 0).card

theorem not_hasWord_zero : ¬ v.HasWord 0 := fun h => absurd h.1 (by decide)

theorem not_hasWord_eoc : ¬ v.HasWord FAT32_EOC := fun h => absurd h.2.1 (by decide)

theorem Volume.HasWord.wordAt (hv : v.TableReadable) (hc : v.HasWord c) : v.WordAt c := by
  obtain ⟨htwo, hbad, htable⟩ := hc
  unfold FAT32_BAD at hbad
  unfold Volume.InTable at htable
  obtain ⟨hholds, hbound⟩ := hv (c / 128) (by omega)
  have hoff : u32 (c * 4) = c * 4 := u32_of_lt (by omega)
  refine ⟨hholds, ?_, by omega⟩
  rw [hoff, show c * 4 / 512 = c / 128 by omega]
  exact u32_of_lt hbound

section Step

variable (hv : v.TableReadable) (hc : v.HasWord c)

include hv hc

theorem word_freed (x : ℕ) :
    fat_word v (set_next_cluster v d c FAT32_FREE) x = if x = c then 0 else fat_word v d x :=
  (hc.wordAt hv).fat_word_set_next (by decide) d

theorem freed_outside {lba : ℕ} (hlba : lba < v.fat_lba ∨ v.fat_lba + v.bpb.fat_size_32 ≤ lba) :
    set_next_cluster v d c FAT32_FREE lba = d lba := by
  have htable : c < 128 * v.bpb.fat_size_32 := hc.2.2
  rw [(hc.wordAt hv).set_next_cluster_eq, Function.update_of_ne (by omega)]

/-- Freeing a cluster cuts its link and leaves the others. -/
theorem link_freed_self : get_next_cluster v (set_next_cluster v d c FAT32_FREE) c = 0 := by
  rw [(hc.wordAt hv).get_next_cluster_eq, word_freed hv hc, if_pos rfl]
  rfl

theorem words_used_freed (hused : fat_word v d c ≠ 0) :
    words_used v (set_next_cluster v d c FAT32_FREE) < words_used v d := by
  refine Finset.card_lt_card (Finset.ssubset_iff_of_subset (fun x hx => ?_) |>.mpr ⟨c, ?_, ?_⟩)
  · simp only [Finset.mem_filter, word_freed hv hc] at hx ⊢
    split at hx
    · exact absurd rfl hx.2
    · exact hx
  · exact Finset.mem_filter.mpr ⟨Finset.mem_range.mpr hc.2.2, hused⟩
  · simp only [Finset.mem_filter, word_freed hv hc, if_pos, ne_eq, not_true, and_false, not_false_eq_true]

theorem LinksInTable.freed (h : LinksInTable v d) : LinksInTable v (set_next_cluster v d c FAT32_FREE) := by
  intro x hx
  unfold IsFree
  rw [word_freed hv hc]
  split
  · exact .inl rfl
  · exact h x hx

/-- One round of the loop on a link that leads nowhere: only the cluster itself is freed. -/
theorem FreesReached.last (hend : ¬ v.HasWord (get_next_cluster v d c)) :
    FreesReached v d (set_next_cluster v d c FAT32_FREE) c := by
  refine ⟨fun x _ hx => ?_, fun x _ hx => ?_, fun lba hlba => freed_outside hv hc hlba⟩
  · rw [word_freed hv hc, if_pos ((reaches_of_end hend).mp hx)]
  · rw [word_freed hv hc, if_neg (mt (reaches_of_end hend).mpr hx)]

/-- What a cluster reaches, in terms of the table after it has been freed. -/
theorem reaches_freed {b : ℕ} (hb : v.HasWord b) (hnext : get_next_cluster v d c = b) (x : ℕ) :
    ReachesCluster v d c x ↔ x = c ∨ ReachesCluster v (set_next_cluster v d c FAT32_FREE) b x := by
  refine reaches_cut (fun y hy hne => ?_) hb ?_ hnext
  · rw [(Volume.HasWord.wordAt hv hy).get_next_cluster_eq, (Volume.HasWord.wordAt hv hy).get_next_cluster_eq, word_freed hv hc, if_neg hne]
  · rw [link_freed_self hv hc]
    exact not_hasWord_zero

/-- One round of the loop, and the rest of it on what is left of the table. -/
theorem FreesReached.step {b : ℕ} (hb : v.HasWord b) (hnext : get_next_cluster v d c = b)
    (hrest : FreesReached v (set_next_cluster v d c FAT32_FREE) d' b) : FreesReached v d d' c := by
  have hreach := reaches_freed hv hc hb hnext
  refine ⟨fun x hx hreached => ?_, fun x hx hout => ?_, fun lba hlba => ?_⟩
  · by_cases hagain : ReachesCluster v (set_next_cluster v d c FAT32_FREE) b x
    · exact hrest.cleared x hx hagain
    · obtain rfl := ((hreach x).mp hreached).resolve_right hagain
      rw [hrest.kept x hx hagain, word_freed hv hc, if_pos rfl]
  · rw [hreach, not_or] at hout
    rw [hrest.kept x hx hout.2, word_freed hv hc, if_neg hout.1]
  · exact (hrest.outside lba hlba).trans (freed_outside hv hc hlba)

end Step

theorem free_chain_ends (hend : c = 0 ∨ c = FAT32_EOC) : Returns (fun fuel => free_chain v fuel d c) d := by
  refine .of_gt 0 fun fuel hfuel => ?_
  exact free_chain_stop hfuel hend

/-- The loop ends on every table whose words name clusters, and it frees what its start reaches. There are
    no more rounds than words that are not zero. -/
theorem free_chain_damaged (hv : v.TableReadable) (hlinks : LinksInTable v d) (hc : v.HasWord c) :
    ∃ d', Returns (fun fuel => free_chain v fuel d c) d' ∧ FreesReached v d d' c := by
  generalize hused : words_used v d = n
  induction n using Nat.strong_induction_on generalizing d c with
  | _ n ih =>
    have hcond : c ≠ 0 ∧ c < 0x0FFFFFF8 := by
      obtain ⟨htwo, hbad, -⟩ := hc
      unfold FAT32_BAD at hbad
      omega
    have hround : ∀ {d'}, Returns (fun fuel => free_chain v fuel (set_next_cluster v d c FAT32_FREE) (get_next_cluster v d c)) d' →
        Returns (fun fuel => free_chain v fuel d c) d' := by
      intro d' hrest
      exact .of_succ hrest fun fuel => by rw [free_chain, if_pos hcond]
    have hnext := (hc.wordAt hv).get_next_cluster_eq d
    rw [link_of_word] at hnext
    rcases hlinks c hc.2.2 with hfree | hmark | hlink
    · rw [IsFree] at hfree
      rw [hfree, if_neg (by decide)] at hnext
      refine ⟨_, hround (free_chain_ends (.inl hnext)), .last hv hc ?_⟩
      rw [hnext]
      exact not_hasWord_zero
    · rw [if_pos hmark] at hnext
      refine ⟨_, hround (free_chain_ends (.inr hnext)), .last hv hc ?_⟩
      rw [hnext]
      exact not_hasWord_eoc
    · have hbad := hlink.2.1
      unfold FAT32_BAD at hbad
      rw [if_neg (by omega)] at hnext
      have hword : fat_word v d c ≠ 0 := by
        intro hzero
        rw [hzero] at hlink
        exact not_hasWord_zero hlink
      obtain ⟨d', hret, hfrees⟩ := ih _ (hused ▸ words_used_freed hv hc hword) (hlinks.freed hv hc) hlink rfl
      rw [← hnext] at hret
      exact ⟨d', hround hret, hfrees.step hv hc hlink hnext⟩

/-- A chain that runs in a circle. -/
def circle_disk : Disk := set_next_cluster small_volume (set_next_cluster small_volume small_state.disk 3 4) 4 3

theorem circle_disk_links : ∀ c < 128, IsFree small_volume circle_disk c ∨
    0x0FFFFFF8 ≤ fat_word small_volume circle_disk c &&& 0x0FFFFFFF ∨
    2 ≤ fat_word small_volume circle_disk c &&& 0x0FFFFFFF ∧ fat_word small_volume circle_disk c &&& 0x0FFFFFFF < 128 := by
  unfold IsFree
  decide +kernel

theorem free_chain_damaged_circle : ∃ d', Returns (fun fuel => free_chain small_volume fuel circle_disk 3) d' ∧
    FreesReached small_volume circle_disk d' 3 := by
  have hhas : ∀ c, 2 ≤ c → c < 128 → small_volume.HasWord c := by
    intro c htwo hc
    refine ⟨htwo, ?_, hc⟩
    unfold FAT32_BAD
    omega
  refine free_chain_damaged small_volume_sane.table_readable (fun c hc => ?_) (hhas 3 (by decide) (by decide))
  rcases circle_disk_links c hc with hfree | hmark | ⟨htwo, hlink⟩
  · exact .inl hfree
  · exact .inr (.inl hmark)
  · exact .inr (.inr (hhas _ htwo hlink))

end os_dev.fat32
