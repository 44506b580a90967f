import Mathlib.Data.List.Basic

namespace os_dev.libc

/-- The bytes of a C string in front of its terminating NUL. -/
abbrev CStr := List UInt8

/-- The bytes of an ASCII literal of the source. -/
def ascii (s : String) : CStr := s.toList.map fun c => UInt8.ofNat c.toNat

/-- A literal is a list of characters to the kernel, so that these need not decode it. -/
theorem ascii_ofList (l : List Char) : ascii (String.ofList l) = l.map fun c => UInt8.ofNat c.toNat := by
  rw [ascii, String.toList_ofList]

theorem ascii_ofList_length (l : List Char) : (ascii (String.ofList l)).length = l.length := by
  rw [ascii_ofList, List.length_map]

/-- The path separator. -/
def slash : UInt8 := 0x2F

def dot : UInt8 := 0x2E

def space : UInt8 := 0x20

/-- The string that starts at the first byte of a buffer: `print_string` and
    friends stop at the first NUL. -/
def cstr (bytes : List UInt8) : CStr := bytes.takeWhile (· ≠ 0)

/-- Split at the last slash, as the `last_slash` loops of `fat32_mkdir` and
    `fat32_rmdir` do: the bytes before it and the bytes after it. -/
def split_last_slash : CStr → Option (CStr × CStr)
  | [] => none
  | c :: cs =>
    match split_last_slash cs with
    | some (front, back) => some (c :: front, back)
    | none => if c = slash then some ([], cs) else none

/-- The file name `fat32_open` takes from a path: everything behind the last
    slash, or the whole path when it has none. -/
def base_name (path : CStr) : CStr :=
  match split_last_slash path with
  | some (_, back) => back
  | none => path

/-- The components visited by the loop of `fat32_resolve_path`: cut at every
    slash, without the empty rest behind a trailing one. `acc` holds the bytes
    of the component being read, last byte first. -/
def path_parts (acc : CStr) : CStr → List CStr
  | [] => if acc = [] then [] else [acc.reverse]
  | c :: cs => if c = slash then acc.reverse :: path_parts [] cs else path_parts (c :: acc) cs

theorem split_last_slash_eq_none {path : CStr} :
    split_last_slash path = none ↔ slash ∉ path := by
  induction path with
  | nil => simp [split_last_slash]
  | cons c cs ih =>
    simp only [split_last_slash, List.mem_cons, not_or]
    cases hrest : split_last_slash cs with
    | some pair =>
      have hmem : slash ∈ cs := by
        by_contra hnot
        rw [ih.mpr hnot] at hrest
        cases hrest
      simp [hmem]
    | none =>
      have hnot := ih.mp hrest
      by_cases hc : c = slash
      · simp [hc]
      · simp [hc, hnot, Ne.symm hc]

/-- The two halves around the last slash give the path back. -/
theorem split_last_slash_some {path front back : CStr}
    (h : split_last_slash path = some (front, back)) :
    path = front ++ slash :: back ∧ slash ∉ back := by
  induction path generalizing front with
  | nil => simp [split_last_slash] at h
  | cons c cs ih =>
    simp only [split_last_slash] at h
    cases hrest : split_last_slash cs with
    | some pair =>
      obtain ⟨front', back'⟩ := pair
      simp only [hrest, Option.some.injEq, Prod.mk.injEq] at h
      obtain ⟨rfl, rfl⟩ := h
      obtain ⟨hcs, hback⟩ := ih hrest
      exact ⟨by simp [hcs], hback⟩
    | none =>
      simp only [hrest] at h
      by_cases hc : c = slash
      · simp only [hc, if_true, Option.some.injEq, Prod.mk.injEq] at h
        obtain ⟨rfl, rfl⟩ := h
        exact ⟨by simp [hc], split_last_slash_eq_none.mp hrest⟩
      · simp [hc] at h

theorem split_last_slash_append {front back : CStr} (h : slash ∉ back) :
    split_last_slash (front ++ slash :: back) = some (front, back) := by
  induction front with
  | nil => simp only [List.nil_append, split_last_slash, split_last_slash_eq_none.mpr h, if_true]
  | cons c front ih => simp only [List.cons_append, split_last_slash, ih]

theorem base_name_append {front back : CStr} (h : slash ∉ back) : base_name (front ++ slash :: back) = back := by
  simp only [base_name, split_last_slash_append h]

theorem base_name_of_no_slash {path : CStr} (h : slash ∉ path) : base_name path = path := by
  simp [base_name, split_last_slash_eq_none.mpr h]

theorem path_parts_of_no_slash {path : CStr} (acc : CStr) (h : slash ∉ path) :
    path_parts acc path = if acc = [] ∧ path = [] then [] else [acc.reverse ++ path] := by
  induction path generalizing acc with
  | nil => simp [path_parts]
  | cons c cs ih =>
    simp only [List.mem_cons, not_or] at h
    simp only [path_parts, if_neg (Ne.symm h.1), ih (c :: acc) h.2]
    simp

theorem path_parts_eq_nil {acc path : CStr} : path_parts acc path = [] ↔ acc = [] ∧ path = [] := by
  induction path generalizing acc with
  | nil => simp [path_parts]
  | cons c cs ih =>
    simp only [path_parts]
    split
    · simp
    · simp [ih]

/-- A separator behind a component that is not empty joins two lists of components. -/
theorem path_parts_append {acc front back : CStr} (hacc : front = [] → acc ≠ [])
    (hlast : front.getLast? ≠ some slash) :
    path_parts acc (front ++ slash :: back) = path_parts acc front ++ path_parts [] back := by
  induction front generalizing acc with
  | nil =>
    have hne := hacc rfl
    simp [path_parts, hne]
  | cons c cs ih =>
    have hlast' : cs.getLast? ≠ some slash := by
      cases cs with
      | nil => simp
      | cons c' cs' => simpa using hlast
    by_cases hc : c = slash
    · have hcs : cs ≠ [] := by
        rintro rfl
        simp [hc] at hlast
      simp [path_parts, hc, ih (fun heq => absurd heq hcs) hlast']
    · simp [path_parts, hc, ih (fun _ => List.cons_ne_nil c acc) hlast']

/-- A separator behind another one adds an empty component. -/
theorem path_parts_append_blank {acc front back : CStr}
    (hlast : front = [] ∧ acc = [] ∨ front.getLast? = some slash) :
    path_parts acc (front ++ slash :: back) = path_parts acc front ++ [] :: path_parts [] back := by
  induction front generalizing acc with
  | nil =>
    obtain ⟨-, rfl⟩ | hlast := hlast
    · simp [path_parts]
    · cases hlast
  | cons c cs ih =>
    have hlast' : (c :: cs).getLast? = some slash := hlast.resolve_left (by simp)
    by_cases hcs : cs = []
    · subst hcs
      obtain rfl : c = slash := by simpa using hlast'
      simp [path_parts]
    · have htail : cs.getLast? = some slash := by
        cases cs with
        | nil => exact absurd rfl hcs
        | cons c' cs' => simpa using hlast'
      by_cases hc : c = slash
      · simp [path_parts, hc, ih (.inr htail)]
      · simp [path_parts, hc, ih (.inr htail)]

/-- A single component is visited as it stands. -/
theorem path_parts_single {path : CStr} (h : slash ∉ path) (hne : path ≠ []) :
    path_parts [] path = [path] := by
  simp [path_parts_of_no_slash [] h, hne]

end os_dev.libc
