import OsDev.Fat32.Walk

open os_dev.libc

namespace os_dev.fat32

variable {s base ext chars name : CStr} {c : UInt8} {width : ℕ}

/-- A character of an 8.3 name: printable, and none of the separators. -/
def NameChar (c : UInt8) : Prop := 0x20 < c ∧ c < 0x7F ∧ c ≠ dot ∧ c ≠ slash

/-- A base and an extension as one name. -/
def join_name (base ext : CStr) : CStr := base ++ if ext = [] then [] else dot :: ext

/-- A valid 8.3 name: one to eight characters, and behind a dot one to three more, if there are any. -/
structure ShortName (n base ext : CStr) : Prop where
  split : n = join_name base ext
  base_pos : base ≠ []
  base_le : base.length ≤ 8
  ext_le : ext.length ≤ 3
  chars : ∀ c ∈ base ++ ext, NameChar c

/-- A character that stands for itself in a name field. -/
def FieldChar (c : UInt8) : Prop := c ≠ 0 ∧ c ≠ space ∧ c ≠ dot ∧ to_upper c = c

/-- A name field: its characters, filled up with spaces. -/
structure Field (width : ℕ) (field chars : List UInt8) : Prop where
  padded : field = pad width chars
  le : chars.length ≤ width
  chars : ∀ c ∈ chars, FieldChar c

theorem to_upper_idem (c : UInt8) : to_upper (to_upper c) = to_upper c := by
  have hout : ¬ (0x61 ≤ to_upper c ∧ to_upper c ≤ 0x7A) := by
    rintro ⟨hlo, hhi⟩
    unfold to_upper at hlo hhi
    split at hlo
    case isTrue hlower =>
      have hle := UInt8.le_iff_toNat_le.mp hlower.1
      have hge := UInt8.le_iff_toNat_le.mp hlower.2
      have hsub := UInt8.le_iff_toNat_le.mp hlo
      rw [UInt8.toNat_sub_of_le c 32 (UInt8.le_iff_toNat_le.mpr (Nat.le_trans (by decide) hle))] at hsub
      simp only [UInt8.toNat_ofNat] at hge hsub
      omega
    case isFalse hother =>
      rw [if_neg hother] at hhi
      exact hother ⟨hlo, hhi⟩
  rw [to_upper.eq_1 (to_upper c), if_neg hout]

/-- What is read back from a padded field. -/
theorem filter_pad (h : space ∉ chars) : (pad width chars).filter (· ≠ space) = chars := by
  rw [pad, List.filter_append, List.filter_eq_self.mpr, List.filter_replicate_of_neg (by simp), List.append_nil]
  intro c hc
  refine decide_eq_true ?_
  rintro rfl
  exact h hc

theorem format_name_pad (hbase : space ∉ base) (hext : space ∉ ext) :
    format_name (pad 8 base) (pad 3 ext) = join_name base ext := by
  rw [format_name, join_name, filter_pad hbase, filter_pad hext]
  cases ext with
  | nil => rfl
  | cons c ext =>
    have hc : c ≠ space := fun heq => hext (heq ▸ List.mem_cons_self)
    have hhead : (pad 3 (c :: ext)).headD 0 ≠ space := hc
    rw [if_pos hhead, if_neg (List.cons_ne_nil c ext)]

/-- The encoder splits a name at its first dot. -/
theorem standardize_join (hbase : dot ∉ base) (hbase_le : base.length ≤ 8) (hext_le : ext.length ≤ 3) :
    standardize_name (join_name base ext) = (pad 8 (base.map to_upper), pad 3 (ext.map to_upper)) := by
  have hpass : ∀ c ∈ base, decide (c ≠ dot) = true := by
    intro c hc
    refine decide_eq_true ?_
    rintro rfl
    exact hbase hc
  have htake : (join_name base ext).takeWhile (· ≠ dot) = base := by
    rw [join_name, List.takeWhile_append_of_pos hpass]
    split
    · rw [List.takeWhile_nil, List.append_nil]
    · rw [List.takeWhile_cons_of_neg (by simp), List.append_nil]
  have hdrop : ((join_name base ext).dropWhile (· ≠ dot)).drop 1 = ext := by
    rw [join_name, List.dropWhile_append_of_pos hpass]
    split
    case isTrue hnil => rw [List.dropWhile_nil, List.drop_nil, hnil]
    case isFalse => rw [List.dropWhile_cons_of_neg (by simp), List.drop_succ_cons, List.drop_zero]
  rw [standardize_name, standardize_base, standardize_ext, htake, hdrop, List.take_of_length_le hbase_le, List.take_of_length_le hext_le]

/-- The encoder does not look at the case of letters. -/
theorem standardize_map_upper (s : CStr) : standardize_name (s.map to_upper) = standardize_name s := by
  have hdot : ((fun c => decide (c ≠ dot)) ∘ to_upper) = fun c : UInt8 => decide (c ≠ dot) := by
    funext c
    simp only [Function.comp_apply, ne_eq, to_upper_eq_iff (show dot < 0x41 ∨ 0x7A < dot by decide)]
  have hidem : to_upper ∘ to_upper = to_upper := funext to_upper_idem
  simp only [standardize_name, standardize_base, standardize_ext, List.takeWhile_map, List.dropWhile_map, hdot, ← List.map_take,
    ← List.map_drop, List.map_map, hidem]

theorem map_upper_join (base ext : CStr) : (join_name base ext).map to_upper = join_name (base.map to_upper) (ext.map to_upper) := by
  have hdot : to_upper dot = dot := by decide
  simp only [join_name, List.map_append, List.map_eq_nil_iff, apply_ite (List.map to_upper), List.map_nil, List.map_cons, hdot]

section ShortNames

variable (h : ShortName s base ext)

include h

theorem ShortName.not_mem {sep : UInt8} (hsep : ¬ NameChar sep) : sep ∉ base ++ ext := fun hmem => hsep (h.chars sep hmem)

theorem ShortName.space_not_mem_upper : space ∉ base.map to_upper ∧ space ∉ ext.map to_upper := by
  have hout : ∀ c ∈ base ++ ext, to_upper c ≠ space := by
    intro c hc hspace
    rw [to_upper_eq_iff (.inl (by decide))] at hspace
    exact absurd (hspace ▸ h.chars c hc).1 (by decide)
  refine ⟨fun hmem => ?_, fun hmem => ?_⟩
  · obtain ⟨c, hc, hspace⟩ := List.mem_map.mp hmem
    exact hout c (List.mem_append_left ext hc) hspace
  · obtain ⟨c, hc, hspace⟩ := List.mem_map.mp hmem
    exact hout c (List.mem_append_right base hc) hspace

/-- Encoding and decoding turns the letters of a name to upper case. -/
theorem ShortName.format_standardize : format_name (standardize_base s) (standardize_ext s) = s.map to_upper := by
  have hdot : dot ∉ base := fun hmem => h.not_mem (fun hchar => hchar.2.2.1 rfl) (List.mem_append_left ext hmem)
  have hfields := standardize_join hdot h.base_le h.ext_le
  rw [← h.split] at hfields
  obtain ⟨hspace, hspace'⟩ := h.space_not_mem_upper
  rw [(Prod.mk.inj hfields).1, (Prod.mk.inj hfields).2, format_name_pad hspace hspace', h.split, map_upper_join]

theorem ShortName.standardize_inj {s' base' ext' : CStr} (h' : ShortName s' base' ext') :
    standardize_name s = standardize_name s' ↔ s.map to_upper = s'.map to_upper := by
  constructor
  · intro hsame
    have hbase : standardize_base s = standardize_base s' := congrArg Prod.fst hsame
    have hext : standardize_ext s = standardize_ext s' := congrArg Prod.snd hsame
    rw [← h.format_standardize, ← h'.format_standardize, hbase, hext]
  · intro hsame
    rw [← standardize_map_upper s, ← standardize_map_upper s', hsame]

theorem ShortName.chars_of_mem : ∀ c ∈ s, 0x20 < c ∧ c < 0x7F ∧ c ≠ slash := by
  intro c hc
  rw [h.split, join_name, List.mem_append] at hc
  rcases hc with hbase | hext
  · obtain ⟨hlo, hhi, -, hslash⟩ := h.chars c (List.mem_append_left _ hbase)
    exact ⟨hlo, hhi, hslash⟩
  · split at hext
    case isTrue => cases hext
    case isFalse =>
      rcases List.mem_cons.mp hext with rfl | hext
      · decide
      · obtain ⟨hlo, hhi, -, hslash⟩ := h.chars c (List.mem_append_right _ hext)
        exact ⟨hlo, hhi, hslash⟩

theorem ShortName.no_space : space ∉ s := fun hmem => absurd (h.chars_of_mem _ hmem).1 (by decide)

end ShortNames

section Fields

variable {name_field ext_field : List UInt8} (hname : Field 8 name_field name) (hext : Field 3 ext_field ext)

theorem Field.upper {field : List UInt8} (h : Field width field chars) : chars.map to_upper = chars := by
  refine (List.map_congr_left fun c hc => (h.chars c hc).2.2.2).trans (List.map_id chars)

theorem Field.not_mem {field : List UInt8} (h : Field width field chars) {sep : UInt8} (hsep : ¬ FieldChar sep) : sep ∉ chars :=
  fun hmem => hsep (h.chars sep hmem)

include hname hext

/-- Decoding and encoding gives the fields back. -/
theorem Field.standardize_format : standardize_name (format_name name_field ext_field) = (name_field, ext_field) := by
  have hspace : ¬ FieldChar space := fun hchar => hchar.2.1 rfl
  have hdot : ¬ FieldChar dot := fun hchar => hchar.2.2.1 rfl
  rw [hname.padded, hext.padded, format_name_pad (hname.not_mem hspace) (hext.not_mem hspace),
    standardize_join (hname.not_mem hdot) hname.le hext.le, hname.upper, hext.upper]

end Fields

/-- The 8.3 encoding of names and its inverse. -/
theorem name_codec {s s' base base' ext ext' : CStr} (h : ShortName s base ext) (h' : ShortName s' base' ext')
    {name_field ext_field name extension : List UInt8} (hname : Field 8 name_field name)
    (hext : Field 3 ext_field extension) :
    format_name (standardize_base s) (standardize_ext s) = s.map to_upper ∧
      (standardize_name s = standardize_name s' ↔ s.map to_upper = s'.map to_upper) ∧
      standardize_name (format_name name_field ext_field) = (name_field, ext_field) :=
  ⟨h.format_standardize, h.standardize_inj h', hname.standardize_format hext⟩

/-- One name in both cases, and a field without an extension. -/
theorem name_codec_letters :
    format_name (standardize_base (ascii "a.c")) (standardize_ext (ascii "a.c")) = (ascii "a.c").map to_upper ∧
      (standardize_name (ascii "a.c") = standardize_name (ascii "A.C") ↔ (ascii "a.c").map to_upper = (ascii "A.C").map to_upper) ∧
      standardize_name (format_name (ascii "AB      ") (ascii "   ")) = (ascii "AB      ", ascii "   ") := by
  have hchars : ∀ c ∈ [0x61, 0x63, 0x41, 0x43], NameChar c := by
    intro c hc
    simp only [List.mem_cons, List.not_mem_nil, or_false] at hc
    rcases hc with rfl | rfl | rfl | rfl <;> exact ⟨by decide, by decide, by decide, by decide⟩
  have hlower : ShortName (ascii "a.c") (ascii "a") (ascii "c") := by
    refine ⟨rfl, by decide, by decide, by decide, fun c hc => hchars c ?_⟩
    rcases List.mem_append.mp hc with hbase | hext
    · exact List.mem_append_left [0x63, 0x41, 0x43] hbase
    · exact List.mem_append_right [0x61] (List.mem_append_left [0x41, 0x43] hext)
  have hupper : ShortName (ascii "A.C") (ascii "A") (ascii "C") := by
    refine ⟨rfl, by decide, by decide, by decide, fun c hc => hchars c ?_⟩
    exact List.mem_append_right [0x61, 0x63] hc
  have hname : Field 8 (ascii "AB      ") (ascii "AB") := by
    refine ⟨rfl, by decide, fun c hc => ?_⟩
    obtain rfl | rfl : c = 0x41 ∨ c = 0x42 := by simpa [ascii] using hc
    · exact ⟨by decide, by decide, by decide, by decide⟩
    · exact ⟨by decide, by decide, by decide, by decide⟩
  have hext : Field 3 (ascii "   ") [] := ⟨rfl, by decide, fun c hc => absurd hc List.not_mem_nil⟩
  exact name_codec hlower hupper hname hext

end os_dev.fat32
