import OsDev.Core.CommandLines
import OsDev.Core.PrintFile
import OsDev.Fat32.CreatedFile

open os_dev.ata os_dev.libc os_dev.fat32 os_dev.agent link_chain fuel

namespace os_dev.shell

variable {os : Os} {st : Fat32} {screen : CStr} {calls : List Call} {l lf : List ℕ} {f t base ext line text : CStr} {k j i : ℕ}

/-- Executing `line` prints `text` and ends the line. -/
def Prints (os : Os) (line text : CStr) : Prop :=
  ∃ os', Returns (fun fuel => shell_execute fuel os line) os' ∧ os'.screen = os.screen ++ text ++ ascii "\n"

/-- The lines `write f t` and `cat f`, one after the other: the second prints `t`. -/
def WriteThenCat (os : Os) (f t : CStr) : Prop :=
  ∃ os', Returns (fun fuel => shell_execute fuel os (write_line f t)) os' ∧ Prints os' (cat_line f) t

/-- The size that `fat32_open` takes for a file: the one in the first entry of the name, be it part of a long name. -/
def open_size (v : Volume) (d : Disk) (l : List ℕ) (f : CStr) : ℕ :=
  match lookup v d false l f with
  | none => 0
  | some (k, j, i) => (slot v d k (16 * j + i)).file_size

/-- What the old content of `f` and the shape of `t` have to be for the text to come back. -/
def ShowsAgain (st : Fat32) (l : List ℕ) (f t : CStr) : Prop :=
  if free_handle st.open_files = none then t = ascii "File not found!"
  else match lookup st.vol st.disk true l f with
    | none => t ≠ [] ∧ cut t = t
    | some (k, j, i) =>
      if (slot st.vol st.disk k (16 * j + i)).first_cluster = 0 then
        if FreeBefore st.vol st.disk l (k, 16 * j + i) then t ≠ [] ∧ cut t = t else t = ascii "File not found!"
      else ∃ lf, Cells st.vol st.disk (slot st.vol st.disk k (16 * j + i)).first_cluster lf ∧
        shown_from (cut t).length (delivered st.vol st.disk lf (open_size st.vol st.disk l f)) = t.drop (cut t).length

theorem Prints.unique {a b : CStr} (ha : Prints os line a) (hb : Prints os line b) : a = b := by
  obtain ⟨os₁, hret₁, hscreen₁⟩ := ha
  obtain ⟨os₂, hret₂, hscreen₂⟩ := hb
  obtain rfl := hret₁.unique hret₂
  exact List.append_cancel_left (List.append_cancel_right (hscreen₁.symm.trans hscreen₂))

/-- Both lines do one thing each, so there is one text that comes back. -/
theorem writeThenCat_iff {os' : Os} (hwrite : Returns (fun fuel => shell_execute fuel os (write_line f t)) os')
    (hcat : Prints os' (cat_line f) text) : WriteThenCat os f t ↔ text = t := by
  constructor
  · rintro ⟨os₁, hret, hprints⟩
    obtain rfl := hret.unique hwrite
    exact hcat.unique hprints
  · rintro rfl
    exact ⟨os', hwrite, hcat⟩

section Name

variable (screen calls) (hf : ShortName f base ext)

include hf

theorem cat_line_fails (hopen : Returns (fun fuel => fat32_open fuel st f mode_r) (-1, st)) :
    Prints ⟨st, screen, calls⟩ (cat_line f) (ascii "File not found!") := by
  refine ⟨⟨st, screen ++ ascii "File not found!\n", calls⟩, ?_, ?_⟩
  · filter_upwards [hopen] with fuel h
    simp [shell_execute, parse_cat_line hf, execute, cat_command, h, Os.print_string]
  · rw [List.append_assoc]
    rfl

theorem write_line_fails (ht : Text t) (hne : t ≠ []) {st' : Fat32} (hopen : Returns (fun fuel => fat32_open fuel st f mode_w) (-1, st')) :
    Returns (fun fuel => shell_execute fuel ⟨st, screen, calls⟩ (write_line f t))
      ⟨st', screen ++ ascii "Failed to write to file.\n", calls⟩ := by
  filter_upwards [hopen] with fuel h
  simp [shell_execute, parse_write_line hf ht hne, execute, write_command, h, Os.print_string]

/-- Without a text `write` only shows its usage. -/
theorem write_line_nil :
    Returns (fun fuel => shell_execute fuel ⟨st, screen, calls⟩ (write_line f []))
      ⟨st, screen ++ ascii "Usage: write <file> <text>\n", calls⟩ := by
  refine .of_forall fun fuel => ?_
  rw [shell_execute, parse_write_line_nil hf]
  rfl

variable (hmounted : st.mounted = true) (hl : Cells st.vol st.disk st.fat32_cwd_cluster l)

include hmounted hl

/-- `cat` of a name that resolves to nothing, or without a free handle. -/
theorem cat_line_not_found (hv : st.vol.Sane)
    (hwhy : free_handle st.open_files = none ∨ target_cluster st.vol st.disk l f = 0) :
    Prints ⟨st, screen, calls⟩ (cat_line f) (ascii "File not found!") := by
  refine cat_line_fails _ _ hf ?_
  by_cases hzero : target_cluster st.vol st.disk l f = 0
  · exact hf.valid.open_absent hv hmounted hl hzero
  · have hopen := hf.valid.open_existing hv hmounted hl hzero mode_r
    rwa [opened_none (hwhy.resolve_right hzero)] at hopen

/-- `cat` of a file shows it. -/
theorem cat_line_shows (hwf : WellFormed st.vol st.disk) (hfree : free_handle st.open_files ≠ none)
    (hne : target_cluster st.vol st.disk l f ≠ 0) (hlf : Cells st.vol st.disk (target_cluster st.vol st.disk l f) lf) :
    Prints ⟨st, screen, calls⟩ (cat_line f) (shown (delivered st.vol st.disk lf (open_size st.vol st.disk l f))) := by
  have hopen := hf.valid.open_existing hwf.sane hmounted hl hne mode_r
  obtain ⟨fd, hfd⟩ := Option.ne_none_iff_exists'.mp hfree
  have hfound : ∃ pos, lookup st.vol st.disk true l f = some pos := by
    refine Option.ne_none_iff_exists'.mp fun hnone => hne ?_
    rw [target_cluster, hnone]
  obtain ⟨_, hfound⟩ := hfound
  obtain ⟨⟨k, j, i⟩, hlookup⟩ := lookup_of_skip hfound
  rw [← base_name_of_no_slash hf.valid.no_slash] at hlookup
  rw [opened_eq hfd hlookup] at hopen
  rw [base_name_of_no_slash hf.valid.no_slash] at hlookup
  have hsize : open_size st.vol st.disk l f = (slot st.vol st.disk k (16 * j + i)).file_size := by
    rw [open_size, hlookup]
  rw [hsize]
  obtain ⟨file, hprint⟩ := print_opened_returns hwf.sane hlf screen f calls fd k (16 * j + i)
  refine ⟨⟨fat32_close { st with open_files := Function.update st.open_files fd file } (fd.val : Int),
    screen ++ shown (delivered st.vol st.disk lf (slot st.vol st.disk k (16 * j + i)).file_size) ++ ascii "\n", calls⟩, ?_, rfl⟩
  filter_upwards [hopen, hprint] with fuel h₁ h₂
  simp [shell_execute, parse_cat_line hf, execute, cat_command, h₁, h₂, Os.print_string]

end Name

theorem cut_append (t : CStr) : cut t ++ t.drop (cut t).length = t := by
  obtain ⟨rest, hrest⟩ := List.rdropWhile_prefix (· = slash) t
  have hdrop := congrArg (List.drop (cut t).length) hrest
  rw [cut, List.drop_left] at hdrop
  rw [cut, ← hdrop, hrest]

theorem cut_length_le (t : CStr) : (cut t).length ≤ t.length := (List.rdropWhile_prefix _ t).length_le

theorem Text.zero_not_mem_cut (ht : Text t) : 0 ∉ cut t := fun hmem =>
  absurd (ht.printable 0 ((List.rdropWhile_prefix _ t).subset hmem)).1 (by decide)

section Writes

variable (screen calls) {st' : Fat32} {l' : List ℕ} {y : ℕ} {fd : Fin 8} (hf : ShortName f base ext) (ht : Text t) (hne : t ≠ [])
  (hlen : t.length < 512) (hopen : Returns (fun fuel => fat32_open fuel st f mode_w) (opened st' f y l'))
  (hfd : free_handle st'.open_files = some fd) (hlookup : lookup st'.vol st'.disk false l' f = some (k, j, i))
  (hwf : WellFormed st'.vol st'.disk) (hcwd : LiveDir st'.vol st'.disk st'.fat32_cwd_cluster)
  (hl : Cells st'.vol st'.disk st'.fat32_cwd_cluster l') (hlists : ∃ p k₀ s₀, Lists st'.vol st'.disk p k₀ s₀ false y)
  (hlf : Cells st'.vol st'.disk y lf)

include hf ht hne hlen hopen hfd hlookup hwf hcwd hl hlists hlf

/-- `write` through a handle on the regular file `y` puts the text at its start. -/
theorem write_line_writes : ∃ d' new file, Returns (fun fuel => shell_execute fuel ⟨st, screen, calls⟩ (write_line f t))
      ⟨{ st' with disk := d', open_files := Function.update st'.open_files fd file }, screen ++ ascii "File written.\n", calls⟩ ∧
    file.valid = false ∧ Rewrites st'.vol st'.disk d' y lf new k (16 * j + i)
      (max (slot st'.vol st'.disk k (16 * j + i)).file_size (cut t).length) (cut t) := by
  obtain ⟨hk, hj, hi, -⟩ := lookup_some hlookup
  have hcut : (cut t).length < 512 := Nat.lt_of_le_of_lt (cut_length_le t) hlen
  obtain ⟨d', new, file, hwrite, hvalid, hrewrites⟩ := @with_opened_write st' f lf y k fd (cut t) hwf hlf (16 * j + i) hlists
    ⟨_, l', hcwd, hl, hk⟩ (slot_index_lt hj hi) (by omega) (hlf.roomFor_short hwf.sane hcut)
  rw [← base_name_of_no_slash hf.valid.no_slash] at hlookup
  rw [opened_eq hfd hlookup] at hopen
  refine ⟨d', new, file, ?_, hvalid, hrewrites⟩
  filter_upwards [hopen] with fuel h
  simp [shell_execute, parse_write_line hf ht hne, execute, write_command, h, Os.print_string, hwrite]

/-- What `cat` shows afterwards: the text and the rest of the old content, if the name now resolves to the file. -/
theorem write_line_shows (hmounted : st'.mounted = true) :
    ∃ os', Returns (fun fuel => shell_execute fuel ⟨st, screen, calls⟩ (write_line f t)) os' ∧
      (target_cluster st'.vol st'.disk l' f = y → Prints os' (cat_line f) (cut t ++
        shown_from (cut t).length (delivered st'.vol st'.disk lf (open_size st'.vol st'.disk l' f)))) ∧
      (target_cluster st'.vol st'.disk l' f = 0 → Prints os' (cat_line f) (ascii "File not found!")) := by
  obtain ⟨d', new, file, hwrite, hvalid, hrewrites⟩ :=
    write_line_writes screen calls hf ht hne hlen hopen hfd hlookup hwf hcwd hl hlists hlf
  have hwf' := hrewrites.tree.wf
  have hl' := hrewrites.dir_cells hwf hcwd hl
  have htarget : target_cluster st'.vol d' l' f = target_cluster st'.vol st'.disk l' f := by
    rw [target_cluster, target_cluster, hrewrites.lookup hcwd hl]
    cases hfound : lookup st'.vol st'.disk true l' f with
    | none => rfl
    | some pos =>
      obtain ⟨hk, hj, hi, -⟩ := lookup_some hfound
      exact (hrewrites.entry ⟨_, l', hcwd, hl, hk⟩ (slot_index_lt hj hi)).1
  refine ⟨_, hwrite, fun htrue => ?_, fun hzero => ?_⟩
  · obtain ⟨hk, hj, hi, -⟩ := lookup_some hlookup
    have hcut : (cut t).length ≤ 512 := Nat.le_trans (cut_length_le t) hlen.le
    have hsize : open_size st'.vol d' l' f = max (open_size st'.vol st'.disk l' f) (cut t).length := by
      simp only [open_size, hrewrites.lookup hcwd hl, hlookup]
      rw [hrewrites.slots k _ ⟨_, l', hcwd, hl, hk⟩ (slot_index_lt hj hi), if_pos rfl]
    have hlf' := hrewrites.cells
    have hfree : free_handle (Function.update st'.open_files fd file) ≠ none :=
      @free_handle_ne_none _ fd (by rwa [Function.update_self])
    have hexists : target_cluster st'.vol d' l' f ≠ 0 := by
      rw [htarget, htrue]
      exact (hlf.inRange hlf.head_mem).ne_zero
    rw [← htrue, ← htarget] at hlf'
    have hshows := @cat_line_shows { st' with disk := d', open_files := Function.update st'.open_files fd file } 
      (screen ++ ascii "File written.\n") calls l' (lf ++ new) f base ext hf hmounted hl' hwf' hfree hexists hlf'
    obtain ⟨m, hdelivered⟩ := hrewrites.delivered_eq (le_max_right (open_size st'.vol st'.disk l' f) (cut t).length)
    rwa [hsize, hdelivered, shown_overwritten ht.zero_not_mem_cut hcut, shown_from_append_zeros,
      shown_from_congr hcut (delivered_drop hcut)] at hshows
  · exact cat_line_not_found _ _ hf hmounted hl' hwf'.sane (.inr (htarget.trans hzero))

end Writes

section RoundTrip

variable {a b : ℕ} (hmounted : st.mounted = true) (hwf : WellFormed st.vol st.disk)
  (hcwd : LiveDir st.vol st.disk st.fat32_cwd_cluster) (hl : Cells st.vol st.disk st.fat32_cwd_cluster l)
  (hf : ShortName f base ext) (ht : Text t) (hne : t ≠ []) (hlen : t.length < 512)
  (hfree : free_handle st.open_files ≠ none)

include hfree in
theorem showsAgain_file (hexists : target_cluster st.vol st.disk l f ≠ 0)
    (hlf : Cells st.vol st.disk (target_cluster st.vol st.disk l f) lf) : ShowsAgain st l f t ↔
      shown_from (cut t).length (delivered st.vol st.disk lf (open_size st.vol st.disk l f)) = t.drop (cut t).length := by
  rw [ShowsAgain, if_neg hfree]
  cases hfound : lookup st.vol st.disk true l f with
  | none => exact absurd (by rw [target_cluster, hfound]) hexists
  | some pos =>
    obtain ⟨k, j, i⟩ := pos
    rw [target_cluster_eq hfound] at hexists hlf
    simp only [if_neg hexists]
    constructor
    · rintro ⟨lf', hlf', hshown⟩
      rwa [hlf'.unique hlf] at hshown
    · exact fun hshown => ⟨lf, hlf, hshown⟩

include hwf hcwd hl

/-- The file that a name resolves to, if it is no directory. -/
theorem target_file (hregular : ∀ k j i, lookup st.vol st.disk true l f = some (k, j, i) →
      (slot st.vol st.disk k (16 * j + i)).isDirectory = false) (hexists : target_cluster st.vol st.disk l f ≠ 0) :
    (∃ pos, lookup st.vol st.disk false l f = some pos) ∧ (∃ lf, Cells st.vol st.disk (target_cluster st.vol st.disk l f) lf) ∧
      ∃ p k s, Lists st.vol st.disk p k s false (target_cluster st.vol st.disk l f) := by
  cases hfound : lookup st.vol st.disk true l f with
  | none => exact absurd (by rw [target_cluster, hfound]) hexists
  | some pos =>
    obtain ⟨k, j, i⟩ := pos
    obtain ⟨-, -, -, -, -, hlfn, -⟩ := lookup_some hfound
    rw [target_cluster_eq hfound] at hexists ⊢
    have hlists := lookup_lists hcwd hl hfound (hlfn rfl) hexists
    rw [hregular k j i hfound] at hlists
    exact ⟨lookup_of_skip hfound, hwf.entry_cells ⟨_, hlists⟩, _, _, _, hlists⟩

include hf

variable (hregular : ∀ k j i, lookup st.vol st.disk true l f = some (k, j, i) →
    (slot st.vol st.disk k (16 * j + i)).isDirectory = false)

include hregular hmounted

/-- A line without a text leaves the file as it is. -/
theorem write_nil_then_cat (hfree : free_handle st.open_files ≠ none) :
    WriteThenCat ⟨st, screen, calls⟩ f [] ↔ ShowsAgain st l f [] := by
  have hnil := @write_line_nil st screen calls f base ext hf
  by_cases hzero : target_cluster st.vol st.disk l f = 0
  · have hdiffers : ascii "File not found!" ≠ [] := by decide
    rw [writeThenCat_iff hnil (cat_line_not_found _ _ hf hmounted hl hwf.sane (.inr hzero)), ShowsAgain, if_neg hfree]
    cases hfound : lookup st.vol st.disk true l f with
    | none => simp [hdiffers]
    | some pos =>
      rw [target_cluster_eq hfound] at hzero
      simp [hzero, hdiffers, hdiffers.symm]
  · obtain ⟨-, ⟨lf, hlf⟩, -⟩ := target_file hwf hcwd hl hregular hzero
    rw [writeThenCat_iff hnil (cat_line_shows _ _ hf hmounted hl hwf hfree hzero hlf), showsAgain_file hfree hzero hlf, cut,
      List.rdropWhile_nil, List.length_nil, List.drop_zero, shown_from_zero]

include ht hne hlen

/-- A text for a file that exists. -/
theorem write_existing_then_cat (hfree : free_handle st.open_files ≠ none) (hexists : target_cluster st.vol st.disk l f ≠ 0) :
    WriteThenCat ⟨st, screen, calls⟩ f t ↔ ShowsAgain st l f t := by
  obtain ⟨⟨⟨k, j, i⟩, hlookup⟩, ⟨lf, hlf⟩, hlists⟩ := target_file hwf hcwd hl hregular hexists
  obtain ⟨fd, hfd⟩ := Option.ne_none_iff_exists'.mp hfree
  obtain ⟨os', hwrite, hshows, -⟩ := write_line_shows screen calls hf ht hne hlen
    (hf.valid.open_existing hwf.sane hmounted hl hexists mode_w) hfd hlookup hwf hcwd hl hlists hlf hmounted
  rw [writeThenCat_iff hwrite (hshows rfl), showsAgain_file hfree hexists hlf]
  nth_rewrite 3 [← cut_append t]
  exact List.append_right_inj _

omit hregular

variable (hab : a ≠ b) (ha : st.vol.InRange a) (hb : st.vol.InRange b) (hafree : IsFree st.vol st.disk a)
  (hbfree : IsFree st.vol st.disk b)

include hab ha hb hafree hbfree

/-- A text for a new file. -/
theorem write_new_then_cat (hfree : free_handle st.open_files ≠ none) (habsent : target_cluster st.vol st.disk l f = 0) :
    WriteThenCat ⟨st, screen, calls⟩ f t ↔ ShowsAgain st l f t := by
  obtain ⟨y, d', l', front, back, s, hopen, hcreated⟩ := hf.valid.open_new hmounted hwf hcwd hl habsent hab ha hb hafree hbfree
  obtain ⟨fd, hfd⟩ := Option.ne_none_iff_exists'.mp hfree
  obtain ⟨⟨k, j, i⟩, hlookup⟩ := hcreated.lookup_isSome hf.valid.no_zero hf.valid.no_mark
  obtain ⟨os', hwrite, hshows, hhidden⟩ := write_line_shows screen calls hf ht hne hlen hopen hfd hlookup hcreated.wf hcreated.live
    hcreated.dir ⟨_, hcreated.lists⟩ hcreated.own hmounted
  obtain ⟨n, hzeros⟩ := hcreated.delivered_zero (open_size st.vol d' l' f)
  rw [hzeros, shown_from_zeros, List.append_nil] at hshows
  have hcut : cut t = t ↔ t ≠ [] ∧ cut t = t := (and_iff_right hne).symm
  rw [ShowsAgain, if_neg hfree]
  cases hfound : lookup st.vol st.disk true l f with
  | none =>
    have htarget := hcreated.target_of_none hl hf.valid.no_zero hf.valid.no_mark hfound
    exact (writeThenCat_iff hwrite (hshows htarget)).trans hcut
  | some pos =>
    obtain ⟨k', j', i'⟩ := pos
    rw [target_cluster_eq hfound] at habsent
    have htarget := hcreated.target_of_empty hl hf.valid.no_zero hf.valid.no_mark hfound habsent
    simp only [if_pos habsent]
    split at htarget
    case isTrue hbefore =>
      rw [if_pos hbefore]
      exact (writeThenCat_iff hwrite (hshows htarget)).trans hcut
    case isFalse hafter => rw [writeThenCat_iff hwrite (hhidden htarget), if_neg hafter, eq_comm]

omit hlen

/-- Without a free handle the text is not written. -/
theorem write_without_handle (hfull : free_handle st.open_files = none) :
    WriteThenCat ⟨st, screen, calls⟩ f t ↔ t = ascii "File not found!" := by
  by_cases habsent : target_cluster st.vol st.disk l f = 0
  · obtain ⟨y, d', l', front, back, s, hopen, hcreated⟩ := hf.valid.open_new hmounted hwf hcwd hl habsent hab ha hb hafree hbfree
    rw [@opened_none { st with disk := d' } f l' y hfull] at hopen
    rw [writeThenCat_iff (write_line_fails screen calls hf ht hne hopen)
      (cat_line_not_found _ _ hf hmounted hcreated.dir hwf.sane (.inl hfull)), eq_comm]
  · have hopen := hf.valid.open_existing hwf.sane hmounted hl habsent mode_w
    rw [opened_none hfull] at hopen
    rw [writeThenCat_iff (write_line_fails screen calls hf ht hne hopen) (cat_line_not_found _ _ hf hmounted hl hwf.sane (.inl hfull)),
      eq_comm]

end RoundTrip

/-- When `write f t` and `cat f` bring the text back: for every name of a regular file, or of nothing yet,
    and every text that the shell's line can hold. -/
theorem write_then_cat_iff (st : Fat32) (screen : CStr) (calls : List Call) (l : List ℕ) (f base ext t : CStr) {a b : ℕ}
    (hmounted : st.mounted = true) (hwf : WellFormed st.vol st.disk) (hcwd : LiveDir st.vol st.disk st.fat32_cwd_cluster)
    (hl : Cells st.vol st.disk st.fat32_cwd_cluster l) (hab : a ≠ b) (ha : st.vol.InRange a) (hb : st.vol.InRange b)
    (hafree : IsFree st.vol st.disk a) (hbfree : IsFree st.vol st.disk b) (hf : ShortName f base ext)
    (hregular : ∀ k j i, lookup st.vol st.disk true l f = some (k, j, i) →
      (slot st.vol st.disk k (16 * j + i)).isDirectory = false)
    (ht : Text t) (hline : (write_line f t).length ≤ 255) :
    WriteThenCat ⟨st, screen, calls⟩ f t ↔ ShowsAgain st l f t := by
  have hlen : t.length < 512 := by
    simp only [write_line, List.length_append, List.length_cons] at hline
    omega
  by_cases hfull : free_handle st.open_files = none
  · rw [ShowsAgain, if_pos hfull]
    by_cases hne : t = []
    · subst hne
      rw [writeThenCat_iff (write_line_nil screen calls hf) (cat_line_not_found _ _ hf hmounted hl hwf.sane (.inl hfull)), eq_comm]
    · exact write_without_handle hmounted hwf hcwd hl hf ht hne hab ha hb hafree hbfree hfull
  · by_cases hne : t = []
    · subst hne
      exact write_nil_then_cat hmounted hwf hcwd hl hf hregular hfull
    · by_cases hexists : target_cluster st.vol st.disk l f = 0
      · exact write_new_then_cat hmounted hwf hcwd hl hf ht hne hlen hab ha hb hafree hbfree hfull hexists
      · exact write_existing_then_cat hmounted hwf hcwd hl hf ht hne hlen hregular hfull hexists

theorem short_name_letter : ShortName (ascii "A") (ascii "A") [] := by
  refine ⟨rfl, by decide, by decide, by decide, fun c hc => ?_⟩
  obtain rfl : c = 0x41 := by simpa [ascii] using hc
  exact ⟨by decide, by decide, by decide, by decide⟩

theorem text_short : Text (ascii "HI") := by
  refine ⟨fun c hc => ?_, by decide, by decide⟩
  obtain rfl | rfl : c = 0x48 ∨ c = 0x49 := by simpa [ascii] using hc
  · exact ⟨by decide, by decide⟩
  · exact ⟨by decide, by decide⟩

/-- A new file on an empty volume. -/
theorem write_then_cat_iff_new : WriteThenCat ⟨small_state, [], []⟩ (ascii "A") (ascii "HI") := by
  have hlookup : lookup small_volume small_state.disk true [2] (ascii "A") = none := by decide +kernel
  refine (write_then_cat_iff small_state [] [] [2] (ascii "A") (ascii "A") [] (ascii "HI") rfl
    (blank_shape small_volume_sane small_root_inRange).1 liveDir_root (blank_root_cells small_volume_sane small_root_inRange)
    (show 3 ≠ 4 by decide) (by decide) (by decide) (by decide +kernel) (by decide +kernel) short_name_letter
    (fun k j i hfound => ?_) text_short (by decide)).mpr ?_
  · cases hlookup.symm.trans hfound
  · have hvol : small_state.vol = small_volume := rfl
    rw [ShowsAgain, if_neg (by decide), hvol, hlookup]
    exact ⟨by decide, by decide⟩

/-- The root holds the file A with the text HELLO. -/
def hello_state : Fat32 :=
  { small_state with
    disk := Function.update (Function.update (set_next_cluster small_volume small_state.disk 3 FAT32_EOC)
      2 (put_entry zero_buf 0 (ascii "A       ") (ascii "   ") FAT_ATTR_ARCHIVE 3 5))
      3 (Sector.ofFn fun j => (ascii "HELLO").getD j 0) }

theorem hello_table : get_next_cluster small_volume hello_state.disk 2 = FAT32_EOC ∧
    get_next_cluster small_volume hello_state.disk 3 = FAT32_EOC ∧
    (∀ i < slots_per_cluster small_volume,
      named_object (slot small_volume hello_state.disk 2 i) = if i = 0 then some (false, 3) else none) ∧
    lookup small_volume hello_state.disk true [2] (ascii "A") = some (2, 0, 0) ∧
    (slot small_volume hello_state.disk 2 0).isDirectory = false ∧ target_cluster small_volume hello_state.disk [2] (ascii "A") = 3 ∧
    shown_from 2 (delivered small_volume hello_state.disk [3] (open_size small_volume hello_state.disk [2] (ascii "A"))) = ascii "LLO" := by
  decide +kernel

theorem hello_root_cells : Cells small_volume hello_state.disk 2 [2] := .last small_root_inRange hello_table.1

theorem hello_cells : Cells small_volume hello_state.disk 3 [3] :=
  .last (show small_volume.InRange 3 by decide) hello_table.2.1

/-- A shorter text leaves the end of the older one behind it: `cat` shows HILLO. -/
theorem older_text_shows_through : hello_state.mounted = true ∧ WellFormed hello_state.vol hello_state.disk ∧
    LiveDir hello_state.vol hello_state.disk hello_state.fat32_cwd_cluster ∧ IsFree hello_state.vol hello_state.disk 4 ∧
    IsFree hello_state.vol hello_state.disk 5 ∧ ShortName (ascii "A") (ascii "A") [] ∧ Text (ascii "HI") ∧
    (write_line (ascii "A") (ascii "HI")).length ≤ 255 ∧ ¬ WriteThenCat ⟨hello_state, [], []⟩ (ascii "A") (ascii "HI") := by
  have hwf : WellFormed small_volume hello_state.disk :=
    (wellFormed_of_one_file small_volume_sane small_root_inRange hello_table.1 hello_cells hello_table.2.2.1 (by decide)).1
  obtain ⟨-, -, -, hfound, hfile, htarget, hshown⟩ := hello_table
  have hexists : target_cluster small_volume hello_state.disk [2] (ascii "A") ≠ 0 := by
    rw [htarget]
    decide
  refine ⟨rfl, hwf, liveDir_root, by decide +kernel, by decide +kernel, short_name_letter, text_short, by decide, ?_⟩
  rw [write_existing_then_cat rfl hwf liveDir_root hello_root_cells short_name_letter text_short (by decide) (by decide)
    (fun k j i h => ?_) (by decide) hexists, showsAgain_file (by decide) hexists (htarget ▸ hello_cells)]
  · refine mt hshown.symm.trans ?_
    decide
  · cases hfound.symm.trans h
    exact hfile

end os_dev.shell
