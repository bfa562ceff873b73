import AppendLists.Proofs.Json.Numbers

namespace AppendLists

/-!
# JSON documents read back

A document that holds nothing but what its written form keeps is read back from it. The reader is
bounded by twice the length of the input, and every step of it is paid for by a byte of what it
reads.

* `Json.Kept`: documents without fractional numbers and without ill-formed texts;
* `Json.valueBytes`, `Json.elementsBytes`, `Json.membersBytes`: the written form of a value, and of
  what follows the first entry of a list up to its closing bracket;
* `valueBytes_head`, `skipBlanks_indent`: indentation ends where a value begins;
* `Json.ReadsBack`, `readsBack`: values, elements and members, by the number of steps;
* `parse_pretty`: whole documents.
-/

namespace Json

/-- A value whose written form keeps all of it. -/
inductive Kept : Json → Prop where
  /-- `null`. -/
  | null : Kept .null
  /-- `true` or `false`. -/
  | bool (b : Bool) : Kept (.bool b)
  /-- An integer. -/
  | int (i : Int) : Kept (.int i)
  /-- A text of characters. -/
  | text (s : String) : Kept (.text s)
  /-- An array of such values. -/
  | array {js : List Json} (h : ∀ j ∈ js, Kept j) : Kept (.array js)
  /-- An object of such values under names of characters. -/
  | object {ms : List (Option String × Json)} (hnames : ∀ m ∈ ms, m.1.isSome = true)
      (h : ∀ m ∈ ms, Kept m.2) : Kept (.object ms)

/-! ### The written form in bytes -/

/-- The bytes of a value. -/
def valueBytes (level : Nat) (j : Json) : Bytes := Utf8.encode (pretty level j)

/-- The bytes of a line break with indentation. -/
def indentBytes (level : Nat) : Bytes := Utf8.encode (indent level)

/-- The bytes of a member. -/
def memberBytes (level : Nat) (name : String) (j : Json) : Bytes :=
  Utf8.encode (quote name) ++ 0x3A :: 0x20 :: valueBytes level j

/-- The bytes behind the first element of an array. -/
def elementsBytes (level : Nat) (js : List Json) : Bytes :=
  Utf8.encode (prettyElements (level + 1) js) ++ indentBytes level ++ [0x5D]

/-- The bytes behind the first member of an object. -/
def membersBytes (level : Nat) (ms : List (Option String × Json)) : Bytes :=
  Utf8.encode (prettyMembers (level + 1) ms) ++ indentBytes level ++ [0x7D]

/-- The spellings of the values that have only one. -/
theorem valueBytes_null (level : Nat) : valueBytes level .null = [0x6E, 0x75, 0x6C, 0x6C] := by
  -- the printers compute on each case, so here and below what they write is put in their place
  show Utf8.encode "null" = _
  decide

theorem valueBytes_true (level : Nat) :
    valueBytes level (.bool true) = [0x74, 0x72, 0x75, 0x65] := by
  show Utf8.encode "true" = _
  decide

theorem valueBytes_false (level : Nat) :
    valueBytes level (.bool false) = [0x66, 0x61, 0x6C, 0x73, 0x65] := by
  show Utf8.encode "false" = _
  decide

/-- An array without elements is written without a line break. -/
theorem valueBytes_array_nil (level : Nat) : valueBytes level (.array []) = [0x5B, 0x5D] := by
  show Utf8.encode "[]" = _
  decide

/-- So is an object without members. -/
theorem valueBytes_object_nil (level : Nat) : valueBytes level (.object []) = [0x7B, 0x7D] := by
  show Utf8.encode "\x7b\x7d" = _
  decide

/-- A text is written in quotes. -/
theorem valueBytes_text (level : Nat) (s : String) :
    valueBytes level (.text s) = Utf8.encode (quote s) := rfl

/-- An integer is written in decimals. -/
theorem valueBytes_int (level : Nat) (i : Int) :
    valueBytes level (.int i) = Utf8.encode (toString i) := rfl

theorem encode_comma : Utf8.encode "," = [0x2C] := by decide

theorem encode_colon : Utf8.encode ": " = [0x3A, 0x20] := by decide

theorem encode_bracket : Utf8.encode "[" = [0x5B] ∧ Utf8.encode "]" = [0x5D] := by decide

theorem encode_brace : Utf8.encode "\x7b" = [0x7B] ∧ Utf8.encode "\x7d" = [0x7D] := by decide

/-- A member is its name in quotes, a colon, and its value. -/
theorem encode_prettyMember (level : Nat) (name : String) (j : Json) :
    Utf8.encode (prettyMember level (some name, j)) = memberBytes level name j := by
  show Utf8.encode (quote name ++ ": " ++ pretty level j) = _
  rw [Utf8.encode_append, Utf8.encode_append, encode_colon, List.append_assoc]
  rfl

/-- An array opens, and each of its elements stands on a line of its own. -/
theorem valueBytes_array (level : Nat) (j : Json) (js : List Json) :
    valueBytes level (.array (j :: js))
      = 0x5B :: (indentBytes (level + 1) ++ (valueBytes (level + 1) j ++ elementsBytes level js))
    := by
  show Utf8.encode ("[" ++ indent (level + 1) ++ pretty (level + 1) j
    ++ prettyElements (level + 1) js ++ indent level ++ "]") = _
  simp only [Utf8.encode_append, List.append_assoc, encode_bracket, List.cons_append,
    List.nil_append, elementsBytes, indentBytes, valueBytes]

/-- An object opens, and each of its members stands on a line of its own. -/
theorem valueBytes_object (level : Nat) (name : String) (j : Json)
    (ms : List (Option String × Json)) :
    valueBytes level (.object ((some name, j) :: ms))
      = 0x7B :: (indentBytes (level + 1)
          ++ (memberBytes (level + 1) name j ++ membersBytes level ms)) := by
  show Utf8.encode ("\x7b" ++ indent (level + 1) ++ prettyMember (level + 1) (some name, j)
    ++ prettyMembers (level + 1) ms ++ indent level ++ "\x7d") = _
  simp only [Utf8.encode_append, List.append_assoc, encode_brace, encode_prettyMember,
    List.cons_append, List.nil_append, membersBytes, indentBytes]

/-- Behind the last element the array closes, on a line of its own. -/
theorem elementsBytes_nil (level : Nat) : elementsBytes level [] = indentBytes level ++ [0x5D] := rfl

/-- Any other element has a comma in front. -/
theorem elementsBytes_cons (level : Nat) (j : Json) (js : List Json) :
    elementsBytes level (j :: js)
      = 0x2C :: (indentBytes (level + 1) ++ (valueBytes (level + 1) j ++ elementsBytes level js))
    := by
  rw [elementsBytes]
  show Utf8.encode ("," ++ indent (level + 1) ++ pretty (level + 1) j
    ++ prettyElements (level + 1) js) ++ indentBytes level ++ [0x5D] = _
  simp only [Utf8.encode_append, List.append_assoc, encode_comma, List.cons_append,
    List.nil_append, elementsBytes, indentBytes, valueBytes]

/-- Behind the last member the object closes. -/
theorem membersBytes_nil (level : Nat) : membersBytes level [] = indentBytes level ++ [0x7D] := rfl

/-- Any other member has a comma in front. -/
theorem membersBytes_cons (level : Nat) (name : String) (j : Json)
    (ms : List (Option String × Json)) :
    membersBytes level ((some name, j) :: ms)
      = 0x2C :: (indentBytes (level + 1)
          ++ (memberBytes (level + 1) name j ++ membersBytes level ms)) := by
  rw [membersBytes]
  show Utf8.encode ("," ++ indent (level + 1) ++ prettyMember (level + 1) (some name, j)
    ++ prettyMembers (level + 1) ms) ++ indentBytes level ++ [0x7D] = _
  simp only [Utf8.encode_append, List.append_assoc, encode_comma, encode_prettyMember,
    List.cons_append, List.nil_append, membersBytes, indentBytes]

/-! ### White space -/

/-- A line break, and two blanks for every level. -/
theorem indentBytes_eq (level : Nat) :
    indentBytes level = 0x0A :: List.replicate (2 * level) 0x20 := by
  have hspaces : Utf8.encode (String.ofList (List.replicate (2 * level) ' '))
      = List.replicate (2 * level) 0x20 := by
    rw [Utf8.encode, String.toList_ofList, List.flatMap_replicate]
    exact List.flatten_replicate_singleton
  rw [indentBytes, indent, Utf8.encode_append, hspaces]
  rfl

/-- Indentation is white space. -/
theorem isBlank_of_mem_indentBytes {level : Nat} {b : UInt8} (h : b ∈ indentBytes level) :
    isBlank b = true := by
  rw [indentBytes_eq] at h
  rcases List.mem_cons.1 h with rfl | h
  · rfl
  · rw [(List.mem_replicate.1 h).2]
    rfl

/-- What indents is passed over up to what stands behind it. -/
theorem skipBlanks_indentBytes (level : Nat) {b : UInt8} (hb : isBlank b = false) (rest : Bytes) :
    skipBlanks (indentBytes level ++ b :: rest) = b :: rest := by
  rw [skipBlanks, List.dropWhile_append_of_pos fun b => isBlank_of_mem_indentBytes]
  exact List.dropWhile_cons_of_neg (by simp [hb])

/-- What is not blank is not passed over. -/
theorem skipBlanks_of_not_blank {b : UInt8} (hb : isBlank b = false) (rest : Bytes) :
    skipBlanks (b :: rest) = b :: rest :=
  List.dropWhile_cons_of_neg (by simp [hb])

/-- Digits are not blank. -/
theorem isBlank_of_isDigit {b : UInt8} (h : isDigit b = true) : isBlank b = false := by
  rw [Bool.eq_false_iff]
  intro hblank
  simp only [isBlank, Bool.or_eq_true, beq_iff_eq] at hblank
  rcases hblank with ((rfl | rfl) | rfl) | rfl <;> exact absurd h (by decide)

/-- What is quoted begins with a quotation mark. -/
theorem encode_quote_eq (s : String) :
    Utf8.encode (quote s) = 0x22 :: (Utf8.encode (quote s)).tail := by
  rw [encode_quote]
  rfl

/-- An integer begins with a minus sign or a digit. -/
theorem encode_toString_head (i : Int) :
    ∃ b more, Utf8.encode (toString i) = b :: more ∧ (isDigit b = true ∨ b = 0x2D) := by
  rw [encode_toString_int]
  split
  · exact ⟨_, _, rfl, .inr rfl⟩
  · obtain ⟨b, bs, hb⟩ := List.exists_cons_of_ne_nil (numeral_ne_nil i.natAbs)
    exact ⟨b, bs, hb, .inl (isDigit_of_mem_numeral (n := i.natAbs) (hb ▸ List.mem_cons_self))⟩

/-- A value begins with neither white space nor a closing bracket. -/
theorem valueBytes_head (level : Nat) {j : Json} (h : Kept j) :
    ∃ b more, valueBytes level j = b :: more ∧ isBlank b = false ∧ b ≠ 0x5D := by
  cases h with
  | null => exact ⟨_, _, valueBytes_null level, rfl, by decide⟩
  | bool b =>
    cases b with
    | false => exact ⟨_, _, valueBytes_false level, rfl, by decide⟩
    | true => exact ⟨_, _, valueBytes_true level, rfl, by decide⟩
  | int i =>
    -- a number begins with a digit or with a minus
    obtain ⟨b, more, hbytes, hdigit | rfl⟩ := encode_toString_head i
    · refine ⟨b, more, hbytes, isBlank_of_isDigit hdigit, ?_⟩
      rintro rfl
      exact absurd hdigit (by decide)
    · exact ⟨_, more, hbytes, rfl, by decide⟩
  | text s =>
    rw [valueBytes_text, encode_quote_eq]
    exact ⟨_, _, rfl, rfl, by decide⟩
  | @array js h =>
    cases js with
    | nil => exact ⟨_, _, valueBytes_array_nil level, rfl, by decide⟩
    | cons j js => exact ⟨_, _, valueBytes_array level j js, rfl, by decide⟩
  | @object ms hnames h =>
    cases ms with
    | nil => exact ⟨_, _, valueBytes_object_nil level, rfl, by decide⟩
    | cons m ms =>
      obtain ⟨_ | name, j⟩ := m
      · -- a member without a legible name is not among what is kept
        cases hnames _ List.mem_cons_self
      · exact ⟨_, _, valueBytes_object level name j ms, rfl, by decide⟩

/-- Indentation ends where a value begins. -/
theorem skipBlanks_valueBytes (level level' : Nat) {j : Json} (h : Kept j) (rest : Bytes) :
    skipBlanks (indentBytes level ++ (valueBytes level' j ++ rest)) = valueBytes level' j ++ rest
    := by
  obtain ⟨b, more, hbytes, hblank, -⟩ := valueBytes_head level' h
  rw [hbytes]
  exact skipBlanks_indentBytes level hblank _

/-- Indentation ends where a member begins. -/
theorem skipBlanks_memberBytes (level level' : Nat) (name : String) (j : Json) (rest : Bytes) :
    skipBlanks (indentBytes level ++ (memberBytes level' name j ++ rest))
      = memberBytes level' name j ++ rest := by
  rw [memberBytes, encode_quote_eq]
  exact skipBlanks_indentBytes level rfl _

/-- Passing over blanks once is enough. -/
theorem skipBlanks_idem (bs : Bytes) : skipBlanks (skipBlanks bs) = skipBlanks bs := by
  induction bs with
  | nil => rfl
  | cons b bs ih =>
    by_cases hb : isBlank b = true
    · have hskip : skipBlanks (b :: bs) = skipBlanks bs := List.dropWhile_cons_of_pos hb
      rw [hskip, ih]
    · rw [skipBlanks_of_not_blank (by simpa using hb), skipBlanks_of_not_blank (by simpa using hb)]

/-- Behind a value there is nothing, a line break or a comma. -/
def ValueEnds (rest : Bytes) : Prop := ∀ b ∈ rest.head?, b = 0x0A ∨ b = 0x2C

/-- Where a value ends a number does. -/
theorem ValueEnds.numberEnds {rest : Bytes} (h : ValueEnds rest) : NumberEnds rest := by
  intro b hb
  rcases h b hb with rfl | rfl <;> decide

/-- Behind an element comes a comma or the end of its line. -/
theorem valueEnds_elementsBytes (level : Nat) (js : List Json) (rest : Bytes) :
    ValueEnds (elementsBytes level js ++ rest) := by
  cases js with
  | nil =>
    rw [elementsBytes_nil, indentBytes_eq]
    rintro b ⟨⟩
    exact .inl rfl
  | cons j js =>
    rw [elementsBytes_cons]
    rintro b ⟨⟩
    exact .inr rfl

/-- Behind a member too. -/
theorem valueEnds_membersBytes (level : Nat) {ms : List (Option String × Json)}
    (hnames : ∀ m ∈ ms, m.1.isSome = true) (rest : Bytes) :
    ValueEnds (membersBytes level ms ++ rest) := by
  cases ms with
  | nil =>
    rw [membersBytes_nil, indentBytes_eq]
    rintro b ⟨⟩
    exact .inl rfl
  | cons m ms =>
    obtain ⟨_ | name, j⟩ := m
    · cases hnames _ List.mem_cons_self
    · rw [membersBytes_cons]
      rintro b ⟨⟩
      exact .inr rfl

/-! ### Values, elements and members -/

variable {fuel level : Nat} {bs rest rest' : Bytes} {j : Json}

/-- What `fuel` steps are enough for: two steps for each byte of the written form. -/
structure ReadsBack (fuel : Nat) : Prop where
  /-- A value, with white space before it. -/
  value {level : Nat} {j : Json} {bs rest : Bytes} : Kept j → ValueEnds rest →
    skipBlanks bs = valueBytes level j ++ rest → 2 * (valueBytes level j).length ≤ fuel →
    readValue fuel bs = some (j, rest)
  /-- The elements of an array. -/
  elements {level : Nat} {j : Json} {js : List Json} {bs rest : Bytes} : Kept j →
    (∀ j ∈ js, Kept j) →
    skipBlanks bs = valueBytes (level + 1) j ++ (elementsBytes level js ++ rest) →
    2 * ((valueBytes (level + 1) j).length + (elementsBytes level js).length) < fuel →
    readElements fuel bs = some (j :: js, rest)
  /-- The members of an object. -/
  members {level : Nat} {name : String} {j : Json} {ms : List (Option String × Json)}
    {bs rest : Bytes} : Kept j → (∀ m ∈ ms, m.1.isSome = true) → (∀ m ∈ ms, Kept m.2) →
    skipBlanks bs = memberBytes (level + 1) name j ++ (membersBytes level ms ++ rest) →
    2 * ((memberBytes (level + 1) name j).length + (membersBytes level ms).length) < fuel →
    readMembers fuel bs = some ((some name, j) :: ms, rest)

namespace ReadsBack


/-- The value, and then the bracket or a comma and the other elements. -/
theorem elements_succ (h : ReadsBack fuel) {js : List Json} (hj : Kept j)
    (hjs : ∀ j ∈ js, Kept j)
    (hskip : skipBlanks bs = valueBytes (level + 1) j ++ (elementsBytes level js ++ rest))
    (hfuel : 2 * ((valueBytes (level + 1) j).length + (elementsBytes level js).length) < fuel + 1) :
    readElements (fuel + 1) bs = some (j :: js, rest) := by
  rw [readElements, h.value hj (valueEnds_elementsBytes level js rest) hskip (by omega)]
  simp only [Option.bind_eq_bind, Option.bind_some]
  cases js with
  | nil =>
    rw [elementsBytes_nil, List.append_assoc, List.singleton_append,
      skipBlanks_indentBytes level (by rfl)]
    rfl
  | cons j' js =>
    obtain ⟨hj', hjs⟩ := List.forall_mem_cons.1 hjs
    rw [elementsBytes_cons, List.length_cons, List.length_append, List.length_append] at hfuel
    have hvalue := skipBlanks_valueBytes (level + 1) (level + 1) hj'
      (elementsBytes level js ++ rest)
    have hrun := h.elements hj' hjs hvalue (by omega)
    rw [elementsBytes_cons, List.cons_append, skipBlanks_of_not_blank (by rfl)]
    simp only [List.append_assoc, hrun]
    rfl

/-- The name, the value, and then the brace or a comma and the other members. -/
theorem members_succ (h : ReadsBack fuel) {name : String} {ms : List (Option String × Json)}
    (hj : Kept j) (hnames : ∀ m ∈ ms, m.1.isSome = true) (hms : ∀ m ∈ ms, Kept m.2)
    (hskip : skipBlanks bs = memberBytes (level + 1) name j ++ (membersBytes level ms ++ rest))
    (hfuel : 2 * ((memberBytes (level + 1) name j).length + (membersBytes level ms).length)
      < fuel + 1) :
    readMembers (fuel + 1) bs = some ((some name, j) :: ms, rest) := by
  rw [memberBytes, List.length_append, List.length_cons, List.length_cons] at hfuel
  rw [memberBytes, encode_quote_eq, List.cons_append, List.cons_append] at hskip
  -- behind the colon there is one blank, and then the value
  have hvalue : skipBlanks (0x20 :: (valueBytes (level + 1) j ++ (membersBytes level ms ++ rest)))
      = valueBytes (level + 1) j ++ (membersBytes level ms ++ rest) := by
    obtain ⟨b, more, hbytes, hblank, -⟩ := valueBytes_head (level + 1) hj
    rw [hbytes]
    exact skipBlanks_of_not_blank hblank _
  rw [readMembers, hskip]
  simp only [List.append_assoc, List.cons_append, readString_quote, Option.bind_eq_bind,
    Option.bind_some]
  rw [skipBlanks_of_not_blank (by rfl)]
  simp only [h.value hj (valueEnds_membersBytes level hnames rest) hvalue (by omega),
    Option.bind_some]
  -- the value is followed by the end of the object or by a comma and the other members
  cases ms with
  | nil =>
    rw [membersBytes_nil, List.append_assoc, List.singleton_append,
      skipBlanks_indentBytes level (by rfl)]
    rfl
  | cons m ms =>
    obtain ⟨_ | name', j'⟩ := m
    · cases hnames _ List.mem_cons_self
    · obtain ⟨(hj' : Kept j'), hms⟩ := List.forall_mem_cons.1 hms
      obtain ⟨-, hnames⟩ := List.forall_mem_cons.1 hnames
      rw [membersBytes_cons, List.length_cons, List.length_append, List.length_append] at hfuel
      have hmember := skipBlanks_memberBytes (level + 1) (level + 1) name' j'
        (membersBytes level ms ++ rest)
      have hrun := h.members hj' hnames hms hmember (by omega)
      rw [membersBytes_cons, List.cons_append, skipBlanks_of_not_blank (by rfl)]
      simp only [List.append_assoc, hrun]
      rfl

end ReadsBack

/-! ### Values by their first byte -/

/-- A word is found in front of anything. -/
theorem expect_append (word rest : Bytes) : expect word (word ++ rest) = some rest := by
  rw [expect, if_pos (by simp), List.drop_left]

/-- A value that begins with a quotation mark is a text. -/
theorem readValue_text {s : String} (hskip : skipBlanks bs = 0x22 :: rest)
    (hread : readString rest = some (some s, rest')) :
    readValue (fuel + 1) bs = some (.text s, rest') := by
  rw [readValue, hskip]
  simp only [hread, Option.map_some]

/-- A value that begins with a bracket is an array; it has elements unless it closes at once. -/
theorem readValue_array {js : List Json} (hskip : skipBlanks bs = 0x5B :: rest)
    (hfirst : (skipBlanks rest).head? ≠ some 0x5D)
    (hread : readElements fuel (skipBlanks rest) = some (js, rest')) :
    readValue (fuel + 1) bs = some (.array js, rest') := by
  rw [readValue, hskip]
  generalize hbytes : skipBlanks rest = bytes at hfirst hread
  simp only [hbytes]
  split
  · exact absurd rfl hfirst
  · rw [hread]
    rfl

/-- A value that begins with a brace is an object; it has members unless it closes at once. -/
theorem readValue_object {ms : List (Option String × Json)} (hskip : skipBlanks bs = 0x7B :: rest)
    (hfirst : (skipBlanks rest).head? ≠ some 0x7D)
    (hread : readMembers fuel (skipBlanks rest) = some (ms, rest')) :
    readValue (fuel + 1) bs = some (.object ms, rest') := by
  rw [readValue, hskip]
  generalize hbytes : skipBlanks rest = bytes at hfirst hread
  simp only [hbytes]
  split
  · exact absurd rfl hfirst
  · rw [hread]
    rfl

/-- Digits and the minus sign begin numbers. -/
theorem readValue_number {b : UInt8} {more : Bytes} (hskip : skipBlanks bs = b :: more)
    (hb : isDigit b = true ∨ b = 0x2D) : readValue (fuel + 1) bs = readNumber (b :: more) := by
  have hne (c : UInt8) (hdigit : isDigit c = false) (hminus : c ≠ 0x2D) : b ≠ c := by
    rintro rfl
    rcases hb with hb | hb
    · rw [hdigit] at hb
      cases hb
    · exact hminus hb
  rw [readValue, hskip]
  split
  · case h_1 heq => exact absurd (List.cons.inj heq).1 (hne _ rfl (by decide))
  · case h_2 heq => exact absurd (List.cons.inj heq).1 (hne _ rfl (by decide))
  · case h_3 heq => exact absurd (List.cons.inj heq).1 (hne _ rfl (by decide))
  · case h_4 heq => exact absurd (List.cons.inj heq).1 (hne _ rfl (by decide))
  · case h_5 heq => exact absurd (List.cons.inj heq).1 (hne _ rfl (by decide))
  · case h_6 heq => exact absurd (List.cons.inj heq).1 (hne _ rfl (by decide))
  · rfl

/-! ### Whole documents -/

namespace ReadsBack

/-- A value, by what it begins with. -/
theorem value_succ (h : ReadsBack fuel) (hj : Kept j) (hrest : ValueEnds rest)
    (hskip : skipBlanks bs = valueBytes level j ++ rest)
    (hfuel : 2 * (valueBytes level j).length ≤ fuel + 1) :
    readValue (fuel + 1) bs = some (j, rest) := by
  cases hj with
  -- the spelled words stand for themselves
  | null =>
    rw [valueBytes_null, List.cons_append] at hskip
    rw [readValue, hskip]
    simp only [expect_append, Option.map_some]
  | bool b =>
    cases b with
    | false =>
      rw [valueBytes_false, List.cons_append] at hskip
      rw [readValue, hskip]
      simp only [expect_append, Option.map_some]
    | true =>
      rw [valueBytes_true, List.cons_append] at hskip
      rw [readValue, hskip]
      simp only [expect_append, Option.map_some]
  -- a number has no end of its own, so what follows it must not belong to it
  | int i =>
    rw [valueBytes_int] at hskip
    obtain ⟨b, more, hbytes, hb⟩ := encode_toString_head i
    rw [← readNumber_toString i hrest.numberEnds]
    rw [hbytes, List.cons_append] at hskip ⊢
    exact readValue_number hskip hb
  | text s =>
    rw [valueBytes_text, encode_quote_eq, List.cons_append] at hskip
    exact readValue_text hskip (readString_quote s rest)
  | @array js hjs =>
    -- the bracket that closes is looked for before the first element
    cases js with
    | nil =>
      rw [valueBytes_array_nil] at hskip
      rw [readValue, hskip]
      rfl
    | cons j js =>
      obtain ⟨hj, hjs⟩ := List.forall_mem_cons.1 hjs
      rw [valueBytes_array, List.length_cons, List.length_append, List.length_append] at hfuel
      rw [valueBytes_array, List.cons_append, List.append_assoc, List.append_assoc] at hskip
      have hvalue := skipBlanks_valueBytes (level + 1) (level + 1) hj
        (elementsBytes level js ++ rest)
      refine readValue_array hskip ?_ (h.elements hj hjs ((skipBlanks_idem _).trans hvalue) ?_)
      · -- the first element does not begin with a bracket that closes
        obtain ⟨b, more, hbytes, -, hb⟩ := valueBytes_head (level + 1) hj
        rw [hvalue, hbytes]
        simpa using hb
      · omega
  | @object ms hnames hms =>
    -- the same with the brace that closes
    cases ms with
    | nil =>
      rw [valueBytes_object_nil] at hskip
      rw [readValue, hskip]
      rfl
    | cons m ms =>
      obtain ⟨_ | name, j⟩ := m
      · cases hnames _ List.mem_cons_self
      · obtain ⟨(hj : Kept j), hms⟩ := List.forall_mem_cons.1 hms
        obtain ⟨-, hnames⟩ := List.forall_mem_cons.1 hnames
        rw [valueBytes_object, List.length_cons, List.length_append, List.length_append] at hfuel
        rw [valueBytes_object, List.cons_append, List.append_assoc, List.append_assoc] at hskip
        have hmember := skipBlanks_memberBytes (level + 1) (level + 1) name j
          (membersBytes level ms ++ rest)
        refine readValue_object hskip ?_
          (h.members hj hnames hms ((skipBlanks_idem _).trans hmember) ?_)
        · rw [hmember, memberBytes, encode_quote_eq]
          simp
        · omega

/-- No value is written without a byte, so no step is enough only for what is not there. -/
theorem all (fuel : Nat) : ReadsBack fuel := by
  induction fuel with
  | zero =>
    refine ⟨fun hj _ _ hfuel => ?_, fun _ _ _ hfuel => ?_, fun _ _ _ _ hfuel => ?_⟩
    · obtain ⟨b, more, hbytes, -⟩ := valueBytes_head _ hj
      rw [hbytes, List.length_cons] at hfuel
      omega
    · omega
    · omega
  | succ fuel ih => exact ⟨ih.value_succ, ih.elements_succ, ih.members_succ⟩

end ReadsBack

/-- **A document is read back from its written form.** -/
theorem parse_pretty (h : Kept j) : parse (Utf8.encode (j.pretty 0)) = some j := by
  obtain ⟨b, more, hbytes, hblank, -⟩ := valueBytes_head 0 h
  have hskip : skipBlanks (valueBytes 0 j) = valueBytes 0 j ++ [] := by
    rw [List.append_nil, hbytes]
    exact skipBlanks_of_not_blank hblank more
  have hread := (ReadsBack.all _).value h (by rintro _ ⟨⟩) hskip
    (Nat.le_succ (2 * (valueBytes 0 j).length))
  rw [valueBytes] at hread
  rw [parse, hread]
  rfl

end Json

end AppendLists
