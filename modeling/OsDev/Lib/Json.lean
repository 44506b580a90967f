import OsDev.Lib.JsonText

open json_text

namespace json

/-- A byte of a decoded string, or a code unit that was written as `\uXXXX`. -/
inductive Sym where
  | byte (b : UInt8)
  | code (unit : ℕ)
  deriving DecidableEq

inductive Value where
  | null
  | bool (b : Bool)
  | number (text : List UInt8)
  | string (text : List Sym)
  | array (items : List Value)
  | object (members : List (List Sym × Value))

/-- What the letter of a short escape stands for. -/
def short_escape (e : UInt8) : Option UInt8 :=
  if e = 0x22 then some 0x22
  else if e = 0x5C then some 0x5C
  else if e = 0x2F then some 0x2F
  else if e = 0x62 then some 0x08
  else if e = 0x66 then some 0x0C
  else if e = 0x6E then some 0x0A
  else if e = 0x72 then some 0x0D
  else if e = 0x74 then some 0x09
  else none

/-- Where a string is read: between characters, behind a backslash, or in front of the
    last digits of `\uXXXX`. -/
inductive Mode where
  | normal
  | escape
  | hex (left value : ℕ)

/-- A string behind its opening quote, up to the closing one. Beyond ASCII the bytes are
    taken as they are. -/
def string_rest : Mode → List UInt8 → Option (List Sym × List UInt8)
  | _, [] => none
  | .normal, c :: s =>
    if c = 0x22 then some ([], s)
    else if c = 0x5C then string_rest .escape s
    else if c < 0x20 then none
    else (string_rest .normal s).map fun (text, rest) => (.byte c :: text, rest)
  | .escape, e :: s =>
    if e = 0x75 then string_rest (.hex 4 0) s
    else match short_escape e with
      | some b => (string_rest .normal s).map fun (text, rest) => (.byte b :: text, rest)
      | none => none
  | .hex left v, h :: s =>
    match hex_value h with
    | some d =>
      if left ≤ 1 then (string_rest .normal s).map fun (text, rest) => (.code (16 * v + d) :: text, rest)
      else string_rest (.hex (left - 1) (16 * v + d)) s
    | none => none

def string_body (s : List UInt8) : Option (List Sym × List UInt8) := string_rest .normal s

def is_space (c : UInt8) : Bool := c = 0x20 || c = 0x09 || c = 0x0A || c = 0x0D

def skip_space (s : List UInt8) : List UInt8 := s.dropWhile is_space

def is_digit (c : UInt8) : Bool := 0x30 ≤ c && c ≤ 0x39

/-- At least one digit. -/
def digits (s : List UInt8) : Option (List UInt8 × List UInt8) :=
  if s.takeWhile is_digit = [] then none else some (s.takeWhile is_digit, s.dropWhile is_digit)

/-- The part behind the point, if there is one. -/
def fraction : List UInt8 → Option (List UInt8 × List UInt8)
  | 0x2E :: s => (digits s).map fun (text, rest) => (0x2E :: text, rest)
  | s => some ([], s)

/-- The part behind the `e`, if there is one. -/
def exponent : List UInt8 → Option (List UInt8 × List UInt8)
  | e :: s =>
    if e = 0x65 ∨ e = 0x45 then
      match s with
      | sign :: s =>
        if sign = 0x2B ∨ sign = 0x2D then (digits s).map fun (text, rest) => (e :: sign :: text, rest)
        else (digits (sign :: s)).map fun (text, rest) => (e :: text, rest)
      | [] => none
    else some ([], e :: s)
  | [] => some ([], [])

/-- A number; the integer part has no zero in front of other digits. -/
def number (s : List UInt8) : Option (List UInt8 × List UInt8) := do
  let (sign, s) : List UInt8 × List UInt8 := if s.head? = some 0x2D then ([0x2D], s.drop 1) else ([], s)
  let (int, s) ← digits s
  if int.head? = some 0x30 ∧ int.length ≠ 1 then none
  else
    let (frac, s) ← fraction s
    let (exp, s) ← exponent s
    some (sign ++ int ++ frac ++ exp, s)

/-- A word at the front. -/
def word (w s : List UInt8) : Option (List UInt8) := if w.isPrefixOf s then some (s.drop w.length) else none

mutual

/-- A value, and what follows it; `fuel` bounds the depth. -/
def value : ℕ → List UInt8 → Option (Value × List UInt8)
  | 0, _ => none
  | fuel + 1, s =>
    match skip_space s with
    | [] => none
    | c :: rest =>
      if c = 0x22 then (string_body rest).map fun (text, rest) => (.string text, rest)
      else if c = 0x7B then
        if (skip_space rest).head? = some 0x7D then some (.object [], (skip_space rest).drop 1)
        else (members fuel rest).map fun (l, rest) => (.object l, rest)
      else if c = 0x5B then
        if (skip_space rest).head? = some 0x5D then some (.array [], (skip_space rest).drop 1)
        else (items fuel rest).map fun (l, rest) => (.array l, rest)
      else
        match word [0x74, 0x72, 0x75, 0x65] (c :: rest), word [0x66, 0x61, 0x6C, 0x73, 0x65] (c :: rest),
          word [0x6E, 0x75, 0x6C, 0x6C] (c :: rest) with
        | some rest, _, _ => some (.bool true, rest)
        | none, some rest, _ => some (.bool false, rest)
        | none, none, some rest => some (.null, rest)
        | none, none, none => (number (c :: rest)).map fun (text, rest) => (.number text, rest)

/-- The members of an object, up to the closing brace. -/
def members : ℕ → List UInt8 → Option (List (List Sym × Value) × List UInt8)
  | 0, _ => none
  | fuel + 1, s =>
    match skip_space s with
    | [] => none
    | c :: rest =>
      if c = 0x22 then
        match string_body rest with
        | none => none
        | some (name, rest) =>
          match skip_space rest with
          | [] => none
          | colon :: rest =>
            if colon = 0x3A then
              match value fuel rest with
              | none => none
              | some (v, rest) =>
                match skip_space rest with
                | [] => none
                | d :: rest =>
                  if d = 0x2C then (members fuel rest).map fun (l, rest) => ((name, v) :: l, rest)
                  else if d = 0x7D then some ([(name, v)], rest)
                  else none
            else none
      else none

/-- The items of an array, up to the closing bracket. -/
def items : ℕ → List UInt8 → Option (List Value × List UInt8)
  | 0, _ => none
  | fuel + 1, s =>
    match value fuel s with
    | none => none
    | some (v, rest) =>
      match skip_space rest with
      | [] => none
      | d :: rest =>
        if d = 0x2C then (items fuel rest).map fun (l, rest) => (v :: l, rest)
        else if d = 0x5D then some ([v], rest)
        else none

end

/-- A whole text. -/
def parse (s : List UInt8) : Option Value :=
  match value (s.length + 1) s with
  | some (v, rest) => if skip_space rest = [] then some v else none
  | none => none

/-- The inside of a string that is written without `\uXXXX`. -/
inductive Plain : List UInt8 → List Sym → Prop
  | nil : Plain [] []
  | byte {c : UInt8} {s : List UInt8} {text : List Sym} : 0x20 ≤ c → c ≠ 0x22 → c ≠ 0x5C → Plain s text →
      Plain (c :: s) (.byte c :: text)
  | short {e b : UInt8} {s : List UInt8} {text : List Sym} : short_escape e = some b → Plain s text →
      Plain (0x5C :: e :: s) (.byte b :: text)

variable {s s' rest : List UInt8} {text text' name : List Sym} {c : UInt8} {fuel : ℕ}

theorem Plain.append (h : Plain s text) (h' : Plain s' text') : Plain (s ++ s') (text ++ text') := by
  induction h with
  | nil => exact h'
  | byte hlow hquote hback _ ih => exact .byte hlow hquote hback ih
  | short hescape _ ih => exact .short hescape ih

/-- Characters that stand for themselves. -/
theorem plain_bytes (h : ∀ c ∈ s, 0x20 ≤ c ∧ c ≠ 0x22 ∧ c ≠ 0x5C) : Plain s (s.map .byte) := by
  induction s with
  | nil => exact .nil
  | cons c s ih =>
    obtain ⟨hlow, hquote, hback⟩ := h c List.mem_cons_self
    exact .byte hlow hquote hback (ih fun c hc => h c (List.mem_cons_of_mem _ hc))

theorem short_escape_ne_u {e b : UInt8} (h : short_escape e = some b) : e ≠ 0x75 := by
  rintro rfl
  cases h

theorem string_rest_byte (hlow : 0x20 ≤ c) (hquote : c ≠ 0x22) (hback : c ≠ 0x5C) :
    string_rest .normal (c :: s) = (string_rest .normal s).map fun (text, rest) => (.byte c :: text, rest) := by
  rw [string_rest, if_neg hquote, if_neg hback, if_neg (UInt8.not_lt.mpr hlow)]

theorem string_rest_short {e b : UInt8} (h : short_escape e = some b) :
    string_rest .normal (0x5C :: e :: s) = (string_rest .normal s).map fun (text, rest) => (.byte b :: text, rest) := by
  have hquote : (0x5C : UInt8) ≠ 0x22 := by decide
  simp only [string_rest, if_neg hquote, if_true, if_neg (short_escape_ne_u h), h]

/-- The string up to its closing quote. -/
theorem Plain.string_body (h : Plain s text) (rest : List UInt8) : string_body (s ++ 0x22 :: rest) = some (text, rest) := by
  rw [json.string_body]
  induction h with
  | nil => simp only [List.nil_append, string_rest, if_true]
  | byte hlow hquote hback _ ih =>
    rw [List.cons_append, string_rest_byte hlow hquote hback, ih]
    rfl
  | short hescape _ ih =>
    rw [List.cons_append, List.cons_append, string_rest_short hescape, ih]
    rfl

/-- A control character cannot stand in a string. -/
theorem Plain.control (h : Plain s text) (hc : c < 0x20) (rest : List UInt8) : json.string_body (s ++ c :: rest) = none := by
  rw [json.string_body]
  induction h with
  | nil =>
    have hquote : c ≠ 0x22 := by
      rintro rfl
      exact absurd hc (by decide)
    have hback : c ≠ 0x5C := by
      rintro rfl
      exact absurd hc (by decide)
    rw [List.nil_append, string_rest, if_neg hquote, if_neg hback, if_pos hc]
  | byte hlow hquote hback _ ih =>
    rw [List.cons_append, string_rest_byte hlow hquote hback, ih]
    rfl
  | short hescape _ ih =>
    rw [List.cons_append, List.cons_append, string_rest_short hescape, ih]
    rfl

/-- Decide whether a string is plain. -/
def is_plain : List UInt8 → Bool
  | [] => true
  | c :: s =>
    if c = 0x5C then
      match s with
      | [] => false
      | e :: s => (short_escape e).isSome && is_plain s
    else 0x20 ≤ c && c ≠ 0x22 && is_plain s

theorem exists_plain (h : is_plain s = true) : ∃ text, Plain s text := by
  fun_induction is_plain s with
  | case1 => exact ⟨[], .nil⟩
  | case2 => cases h
  | case3 e s ih =>
    rw [Bool.and_eq_true] at h
    obtain ⟨text, htext⟩ := ih h.2
    obtain ⟨b, hb⟩ := Option.isSome_iff_exists.mp h.1
    exact ⟨_, .short hb htext⟩
  | case4 c s hback ih =>
    simp only [Bool.and_eq_true, decide_eq_true_eq] at h
    obtain ⟨text, htext⟩ := ih h.2
    exact ⟨_, .byte h.1.1 h.1.2 hback htext⟩

theorem skip_space_cons (h : is_space c = false) : skip_space (c :: s) = c :: s :=
  List.dropWhile_cons_of_neg (by rw [h]; exact Bool.false_ne_true)

/-- A string as a value. -/
theorem value_string (fuel : ℕ) (rest : List UInt8) : value (fuel + 1) (0x22 :: rest) =
    (string_body rest).map fun (text, rest) => (.string text, rest) := by
  rw [value, skip_space_cons rfl]
  simp only [if_true]

theorem value_false (fuel : ℕ) (rest : List UInt8) :
    value (fuel + 1) ([0x66, 0x61, 0x6C, 0x73, 0x65] ++ rest) = some (.bool false, rest) := by
  rw [value, List.cons_append, skip_space_cons rfl]
  rfl

/-- An object with a member. -/
theorem value_object (fuel : ℕ) (rest : List UInt8) : value (fuel + 1) (0x7B :: 0x22 :: rest) =
    (members fuel (0x22 :: rest)).map fun (l, rest) => (.object l, rest) := by
  rw [value, skip_space_cons rfl]
  simp only [skip_space_cons (show is_space 0x22 = false from rfl)]
  rfl

/-- The first member of several. -/
theorem members_cons (hname : Plain s name) {v : Value} (hvalue : value fuel s' = some (v, 0x2C :: rest)) :
    members (fuel + 1) (0x22 :: (s ++ 0x22 :: 0x3A :: s')) = (members fuel rest).map fun (l, rest) => ((name, v) :: l, rest) := by
  rw [members, skip_space_cons rfl]
  simp only [if_true, hname.string_body, skip_space_cons (show is_space 0x3A = false from rfl), hvalue,
    skip_space_cons (show is_space 0x2C = false from rfl)]

theorem members_last (hname : Plain s name) {v : Value} (hvalue : value fuel s' = some (v, 0x7D :: rest)) :
    members (fuel + 1) (0x22 :: (s ++ 0x22 :: 0x3A :: s')) = some ([(name, v)], rest) := by
  rw [members, skip_space_cons rfl]
  simp only [if_true, hname.string_body, skip_space_cons (show is_space 0x3A = false from rfl), hvalue,
    skip_space_cons (show is_space 0x7D = false from rfl)]
  rfl

theorem members_none (hname : Plain s name) (hvalue : value fuel s' = none) :
    members (fuel + 1) (0x22 :: (s ++ 0x22 :: 0x3A :: s')) = none := by
  rw [members, skip_space_cons rfl]
  simp only [if_true, hname.string_body, skip_space_cons (show is_space 0x3A = false from rfl), hvalue]

end json
