import AppendLists.Json.Parser
import AppendLists.Json.Printer
import AppendLists.Proofs.Text.Utf8

namespace AppendLists

/-!
# Texts in JSON read back

A text of any characters is written between quotes with its quotes, backslashes and controls
escaped, and the reader gives the same text back whatever stands behind the closing quote.

* `Utf8.encode_append`, `Utf8.encode_join`: the bytes of texts put together;
* `Json.Spells`: bytes between quotes that are read as some content, whatever follows;
* `spells_short`, `spells_unit`, `spells_raw`: the three ways to write a character;
* `spells_quoteChar`, `spells_characters`: each character, and all of them;
* `encode_quote`, `readString_quote`: whole texts.
-/

/-! ### Texts put together -/

namespace Utf8

/-- Texts are encoded one behind the other. -/
theorem encode_append (s t : String) : encode (s ++ t) = encode s ++ encode t := by
  rw [encode, String.toList_append, List.flatMap_append]
  rfl

theorem encode_join (ss : List String) : encode (String.join ss) = ss.flatMap encode := by
  rw [encode, String.toList_join, List.flatMap_assoc]
  rfl

/-- A character below 0x80 is a byte. -/
theorem utf8EncodeChar_of_lt {c : Char} (h : c.toNat < 0x80) :
    String.utf8EncodeChar c = [UInt8.ofNat c.toNat] := by
  have hone : c.val.toNat ≤ 0x7F := Nat.le_of_lt_succ h
  unfold String.utf8EncodeChar
  rw [if_pos hone]
  rfl

/-- The bytes of any other character are not below 0x80. -/
theorem not_lt_of_mem_utf8EncodeChar {c : Char} (h : 0x80 ≤ c.toNat) {b : UInt8}
    (hb : b ∈ String.utf8EncodeChar c) : 0x80 ≤ b.toNat := by
  have hone : ¬ c.val.toNat ≤ 0x7F := Nat.not_le.2 h
  unfold String.utf8EncodeChar at hb
  rw [if_neg hone] at hb
  -- two, three or four bytes, all of them with the highest bit
  split at hb
  · simp only [List.mem_cons, List.not_mem_nil, or_false] at hb
    rcases hb with rfl | rfl <;> simp <;> omega
  split at hb
  · simp only [List.mem_cons, List.not_mem_nil, or_false] at hb
    rcases hb with rfl | rfl | rfl <;> simp <;> omega
  · simp only [List.mem_cons, List.not_mem_nil, or_false] at hb
    rcases hb with rfl | rfl | rfl | rfl <;> simp <;> omega

end Utf8

namespace Json

/-! ### What stands between quotes -/

/-- Bytes between quotes that are read as `content`, whatever stands behind them. -/
def Spells (form content : Bytes) : Prop :=
  ∃ ps : List Piece,
    (∀ rest, readPieces (form ++ rest)
      = (readPieces rest).map fun (ps', rest) => (ps ++ ps', rest)) ∧
    ∀ ps', piecesBytes? (ps ++ ps') = (piecesBytes? ps').map (content ++ ·)

/-- Nothing spells nothing. -/
theorem spells_nil : Spells [] [] := by
  refine ⟨[], fun rest => ?_, fun ps' => ?_⟩
  · exact Option.map_id'.symm
  · exact Option.map_id'.symm

/-- What is spelled in parts is spelled together. -/
theorem Spells.append {form form' content content' : Bytes} (h : Spells form content)
    (h' : Spells form' content') : Spells (form ++ form') (content ++ content') := by
  obtain ⟨ps, hread, hbytes⟩ := h
  obtain ⟨ps', hread', hbytes'⟩ := h'
  refine ⟨ps ++ ps', fun rest => ?_, fun ps'' => ?_⟩
  · rw [List.append_assoc, hread, hread', Option.map_map]
    simp only [Function.comp_def, List.append_assoc]
  · rw [List.append_assoc, hbytes, hbytes', Option.map_map]
    simp only [Function.comp_def, List.append_assoc]

/-- An escape of two bytes. -/
theorem spells_short {e b : UInt8} (he : e ≠ 0x75) (hb : shortEscape? e = some b) :
    Spells [0x5C, e] [b] := by
  refine ⟨[.raw b], fun rest => ?_, fun ps' => rfl⟩
  show readPieces (0x5C :: e :: rest) = _
  rw [readPieces.eq_def]
  simp only [if_neg he, hb]
  rfl

/-- An escape by the number of the character, which is no half of a surrogate pair. -/
theorem spells_unit {a b c d : UInt8} {n : Nat} (hunit : hexUnit? a b c d = some n)
    (hn : n < 0xD800) :
    Spells [0x5C, 0x75, a, b, c, d] (String.utf8EncodeChar (Char.ofNat n)) := by
  refine ⟨[.unit n], fun rest => ?_, fun ps' => ?_⟩
  · show readPieces (0x5C :: 0x75 :: a :: b :: c :: d :: rest) = _
    rw [readPieces.eq_def]
    simp only [hunit]
    rfl
  · show piecesBytes? (.unit n :: ps') = _
    rw [piecesBytes?.eq_def]
    simp only [if_neg (show ¬ (0xD800 ≤ n ∧ n < 0xDC00) by omega),
      if_neg (show ¬ (0xDC00 ≤ n ∧ n < 0xE000) by omega)]

/-- A byte that needs no escape. -/
theorem spells_raw {b : UInt8} (hquote : b ≠ 0x22) (hbackslash : b ≠ 0x5C) (hmin : 0x20 ≤ b) :
    Spells [b] [b] := by
  refine ⟨[.raw b], fun rest => ?_, fun ps' => rfl⟩
  show readPieces (b :: rest) = _
  rw [readPieces.eq_def]
  simp only [if_neg hquote, if_neg hbackslash, if_neg (UInt8.not_lt.2 hmin)]
  rfl

/-- Characters that need no escape stand for themselves. -/
theorem spells_raw_all {bs : Bytes} (h : ∀ b ∈ bs, b ≠ 0x22 ∧ b ≠ 0x5C ∧ 0x20 ≤ b) :
    Spells bs bs := by
  induction bs with
  | nil => exact spells_nil
  | cons b bs ih =>
    obtain ⟨⟨hquote, hbackslash, hmin⟩, hbs⟩ := List.forall_mem_cons.1 h
    exact (spells_raw hquote hbackslash hmin).append (ih hbs)

/-! ### Characters -/

/-- The last two of the four digits by which a control is written. -/
theorem encode_control : ∀ n < 0x20,
    Utf8.encode (if n < 0x10 then "\\u000" ++ Text.hexadecimal n else "\\u00" ++ Text.hexadecimal n)
      = [0x5C, 0x75, 0x30, 0x30, 0x30 + UInt8.ofNat (n / 16),
          if n % 16 < 10 then 0x30 + UInt8.ofNat (n % 16) else 0x57 + UInt8.ofNat (n % 16)] := by
  decide

/-- The two digits of a control character tell it. -/
theorem hexUnit?_control : ∀ n < 0x20,
    hexUnit? 0x30 0x30 (0x30 + UInt8.ofNat (n / 16))
      (if n % 16 < 10 then 0x30 + UInt8.ofNat (n % 16) else 0x57 + UInt8.ofNat (n % 16))
        = some n := by
  decide

/-- A character that is written as it is. -/
theorem spells_plain {c : Char} (hquote : c.toNat ≠ 0x22) (hbackslash : c.toNat ≠ 0x5C)
    (hmin : 0x20 ≤ c.toNat) : Spells (Utf8.encode c.toString) (String.utf8EncodeChar c) := by
  have hform : Utf8.encode c.toString = String.utf8EncodeChar c := by simp [Utf8.encode]
  rw [hform]
  apply spells_raw_all
  intro b hb
  rw [Ne, Ne, ← UInt8.toNat_inj, ← UInt8.toNat_inj, UInt8.le_iff_toNat_le]
  show b.toNat ≠ 34 ∧ b.toNat ≠ 92 ∧ 32 ≤ b.toNat
  by_cases hascii : c.toNat < 0x80
  · rw [Utf8.utf8EncodeChar_of_lt hascii, List.mem_singleton] at hb
    have hnum : b.toNat = c.toNat := by
      rw [hb, UInt8.toNat_ofNat']
      omega
    omega
  · have hhigh := Utf8.not_lt_of_mem_utf8EncodeChar (by omega) hb
    omega

/-- The written form of a character is read as that character. -/
theorem spells_quoteChar (c : Char) : Spells (Utf8.encode (quoteChar c)) (String.utf8EncodeChar c)
    := by
  have hc : c = Char.ofNat c.toNat := (Char.ofNat_toNat c).symm
  unfold quoteChar
  split
  · case h_1 h => exact hc ▸ h ▸ spells_short (e := 0x22) (by decide) rfl
  · case h_2 h => exact hc ▸ h ▸ spells_short (e := 0x5C) (by decide) rfl
  · case h_3 h => exact hc ▸ h ▸ spells_short (e := 0x62) (by decide) rfl
  · case h_4 h => exact hc ▸ h ▸ spells_short (e := 0x66) (by decide) rfl
  · case h_5 h => exact hc ▸ h ▸ spells_short (e := 0x6E) (by decide) rfl
  · case h_6 h => exact hc ▸ h ▸ spells_short (e := 0x72) (by decide) rfl
  · case h_7 h => exact hc ▸ h ▸ spells_short (e := 0x74) (by decide) rfl
  · case h_8 hquote hbackslash _ _ _ _ _ =>
    by_cases hcontrol : c.toNat < 0x20
    · have hform := encode_control c.toNat hcontrol
      have hunit := spells_unit (hexUnit?_control c.toNat hcontrol) (by omega)
      rw [← hc, ← hform] at hunit
      simpa only [if_pos hcontrol] using hunit
    · rw [if_neg (by omega), if_neg hcontrol]
      exact spells_plain hquote hbackslash (by omega)

/-- Quoted characters spell the characters. -/
theorem spells_characters (cs : List Char) :
    Spells (cs.flatMap fun c => Utf8.encode (quoteChar c)) (cs.flatMap String.utf8EncodeChar) := by
  induction cs with
  | nil => exact spells_nil
  | cons c cs ih => exact (spells_quoteChar c).append ih

/-! ### Whole texts -/

/-- A quoted text has its characters between quotation marks. -/
theorem encode_quote (s : String) : Utf8.encode (quote s)
    = 0x22 :: (s.toList.flatMap fun c => Utf8.encode (quoteChar c)) ++ [0x22] := by
  rw [quote, Utf8.encode_append, Utf8.encode_append, Utf8.encode_join, List.flatMap_map]
  rfl

/-- Content in UTF-8 is read as its text. -/
theorem Spells.readString {form : Bytes} {s : String} (h : Spells form (Utf8.encode s))
    (rest : Bytes) : readString (form ++ 0x22 :: rest) = some (some s, rest) := by
  obtain ⟨ps, hread, hbytes⟩ := h
  have hquote : readPieces (0x22 :: rest) = some ([], rest) := by
    rw [readPieces.eq_def]
    rfl
  have htext : piecesText? ps = some s := by
    have hall := hbytes []
    rw [List.append_nil] at hall
    simp only [piecesText?, hall, piecesBytes?, Option.map_some, List.append_nil,
      Utf8.decode_encode]
  rw [Json.readString, hread, hquote]
  simp only [Option.map_some, List.append_nil, htext]

/-- A text is read back from behind its opening quote. -/
theorem readString_quote (s : String) (rest : Bytes) :
    readString ((Utf8.encode (quote s)).tail ++ rest) = some (some s, rest) := by
  rw [encode_quote, List.cons_append, List.tail_cons, List.append_assoc]
  exact (spells_characters s.toList).readString rest

end Json

end AppendLists
