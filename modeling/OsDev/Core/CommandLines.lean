import OsDev.Core.Shell
import OsDev.Fat32.DirectoryMap
import OsDev.Fat32.NameCodec

open os_dev.libc os_dev.fat32

namespace os_dev.fat32

theorem ShortName.valid {s base ext : CStr} (h : ShortName s base ext) : ValidName s := by
  refine ⟨?_, ?_, fun hmem => (h.chars_of_mem _ hmem).2.2 rfl, fun hmem => absurd (h.chars_of_mem _ hmem).1 (by decide), ?_⟩
  · rw [h.split]
    exact List.append_ne_nil_of_left_ne_nil h.base_pos _
  · have hbase := h.base_le
    have hext := h.ext_le
    rw [h.split, join_name, List.length_append]
    split <;> simp <;> omega
  · intro hhead
    exact absurd (h.chars_of_mem _ (List.mem_of_head? hhead)).2.1 (by decide)

end os_dev.fat32

namespace os_dev.shell

variable {f t : CStr} {s : CStr}

/-- A text of printable characters without a space at its ends. -/
structure Text (t : CStr) : Prop where
  printable : ∀ c ∈ t, 0x20 ≤ c ∧ c < 0x7F
  first : t.head? ≠ some space
  last : t.getLast? ≠ some space

def write_line (f t : CStr) : CStr := ascii "write" ++ space :: (f ++ space :: t)

def cat_line (f : CStr) : CStr := ascii "cat" ++ space :: f

/-- The text without the slashes that the shell cuts off the end of the argument. -/
def cut (t : CStr) : CStr := t.rdropWhile (· = slash)

theorem rdropWhile_append_cons {p : UInt8 → Bool} {c : UInt8} (hc : p c = false) (front back : CStr) :
    (front ++ c :: back).rdropWhile p = front ++ c :: back.rdropWhile p := by
  induction back using List.reverseRecOn with
  | nil => rw [List.rdropWhile_concat_neg _ _ _ (by simp [hc]), List.rdropWhile_nil]
  | append_singleton back x ih =>
    rw [← List.cons_append, ← List.append_assoc, List.rdropWhile_concat, ih, List.rdropWhile_concat]
    split
    · rfl
    · simp

theorem split_space_append (h : space ∉ s) (rest : CStr) : split_space (s ++ space :: rest) = some (s, rest) := by
  have hpass : ∀ c ∈ s, decide (c ≠ space) = true := by
    intro c hc
    refine decide_eq_true ?_
    rintro rfl
    exact h hc
  have htake : (s ++ space :: rest).takeWhile (· ≠ space) = s := by
    rw [List.takeWhile_append_of_pos hpass, List.takeWhile_cons_of_neg (by simp), List.append_nil]
  have hdrop : (s ++ space :: rest).dropWhile (· ≠ space) = space :: rest := by
    rw [List.dropWhile_append_of_pos hpass, List.dropWhile_cons_of_neg (by simp)]
  rw [split_space, if_pos (by simp), htake, hdrop, List.tail_cons]

theorem split_space_none (h : space ∉ s) : split_space s = none := if_neg h

/-- An argument that starts with a name loses no more than the slashes at its end. -/
theorem argument_name {c : UInt8} (hc : c ≠ space) (rest : CStr) : argument (c :: rest) = some (c :: rest.rdropWhile (· = slash)) := by
  have hdrop : (c :: rest).dropWhile (· = space) = c :: rest := List.dropWhile_cons_of_neg (by simpa using hc)
  rw [argument, hdrop]
  rfl

theorem trim_of_ends {c : UInt8} (hc : c ≠ space) {rest : CStr} (hlast : (c :: rest).getLast? ≠ some space) :
    trim (c :: rest) = c :: rest := by
  have hdrop : (c :: rest).dropWhile (· = space) = c :: rest := List.dropWhile_cons_of_neg (by simpa using hc)
  rw [trim, hdrop, List.rdropWhile_eq_self_iff]
  intro hne hspace
  exact hlast ((List.getLast?_eq_some_getLast hne).trans (congrArg some (of_decide_eq_true hspace)))

/-- A command and its arguments, taken apart. -/
theorem parse_line_command {cmd rest : CStr} (hcmd : space ∉ cmd) (hne : cmd ≠ []) (hlast : (cmd ++ space :: rest).getLast? ≠ some space) :
    parse_line (cmd ++ space :: rest) = command_of cmd (argument rest) := by
  obtain ⟨c, cmd', rfl⟩ := List.exists_cons_of_ne_nil hne
  have hc : c ≠ space := fun heq => hcmd (heq ▸ List.mem_cons_self)
  have htrim : trim (c :: cmd' ++ space :: rest) = c :: cmd' ++ space :: rest := trim_of_ends hc hlast
  rw [parse_line, htrim, if_neg (by simp), split_line, split_space_append hcmd]

theorem getLast?_behind {back : CStr} (hne : back ≠ []) (front : CStr) (c : UInt8) :
    (front ++ c :: back).getLast? = back.getLast? := by
  obtain ⟨back, x, rfl⟩ := List.eq_nil_or_concat' back |>.resolve_left hne
  rw [← List.cons_append, ← List.append_assoc, List.getLast?_concat, List.getLast?_concat]

section Lines

variable {base ext : CStr} (hf : ShortName f base ext) (ht : Text t)

theorem command_of_write (arg : Option CStr) :
    command_of (ascii "write") arg = with_two (ascii "Usage: write <file> <text>\n") arg .write := by
  rfl

include hf

theorem name_getLast?_ne : f.getLast? ≠ some space := fun hlast => hf.no_space (List.mem_of_getLast? hlast)

theorem name_argument_eq : argument f = some f := by
  obtain ⟨c, f', rfl⟩ := List.exists_cons_of_ne_nil hf.valid.nonempty
  have hc : c ≠ space := fun heq => hf.no_space (heq ▸ List.mem_cons_self)
  rw [argument_name hc, List.rdropWhile_eq_self_iff.mpr]
  intro hne hlast
  exact hf.valid.no_slash (List.mem_cons_of_mem c (of_decide_eq_true hlast ▸ List.getLast_mem hne))

theorem parse_cat_line : parse_line (cat_line f) = .cat f := by
  have hlast : (ascii "cat" ++ space :: f).getLast? ≠ some space := by
    rw [getLast?_behind hf.valid.nonempty]
    exact name_getLast?_ne hf
  rw [cat_line, parse_line_command (by decide) (by decide) hlast, name_argument_eq hf]
  rfl

theorem parse_write_line (ht : Text t) (hne : t ≠ []) : parse_line (write_line f t) = .write f (cut t) := by
  have hlast : (ascii "write" ++ space :: (f ++ space :: t)).getLast? ≠ some space := by
    rw [getLast?_behind (by simp), getLast?_behind hne]
    exact ht.last
  have harg : argument (f ++ space :: t) = some (f ++ space :: cut t) := by
    obtain ⟨c, f', rfl⟩ := List.exists_cons_of_ne_nil hf.valid.nonempty
    have hc : c ≠ space := fun heq => hf.no_space (heq ▸ List.mem_cons_self)
    rw [List.cons_append, argument_name hc, rdropWhile_append_cons (by decide)]
    rfl
  rw [write_line, parse_line_command (by decide) (by decide) hlast, harg, command_of_write, with_two, with_arg]
  simp only [split_space_append hf.no_space]

/-- Without a text the line ends with a space, which does not count. -/
theorem parse_write_line_nil : parse_line (write_line f []) = .usage (ascii "Usage: write <file> <text>\n") := by
  have hlast : (ascii "write" ++ space :: f).getLast? ≠ some space := by
    rw [getLast?_behind hf.valid.nonempty]
    exact name_getLast?_ne hf
  have htrim : trim (write_line f []) = trim (ascii "write" ++ space :: f) := by
    have hdrop : ∀ rest, (ascii "write" ++ rest).dropWhile (· = space) = ascii "write" ++ rest := fun _ => rfl
    rw [write_line, trim, trim, hdrop, hdrop, ← List.cons_append, ← List.append_assoc, List.rdropWhile_concat_pos _ _ _ (by decide)]
  have hparse := parse_line_command (by decide) (by decide) hlast
  rw [name_argument_eq hf, command_of_write, with_two, with_arg] at hparse
  simp only [split_space_none hf.no_space] at hparse
  rw [← hparse, parse_line, parse_line, htrim]

end Lines

end os_dev.shell
