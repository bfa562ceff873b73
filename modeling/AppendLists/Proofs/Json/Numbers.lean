import AppendLists.Proofs.Json.Texts

namespace AppendLists

/-!
# Integers in JSON read back

An integer is written in decimal without leading zeros, and the reader gives it back if what stands
behind it does not go on with the number.

* `Json.numeral`, `encode_toString_nat`, `encode_toString_int`: the digits of a number;
* `isDigit_of_mem_numeral`, `decimal_numeral`, `head?_numeral`: they are digits, they denote the
  number, and only zero begins with a zero;
* `Json.NumberEnds`: what may stand behind a number;
* `readDigits_numeral`, `readMagnitude_numeral`, `readNumber_toString`: reading.
-/

namespace Json

variable {rest : Bytes}

/-! ### Digits -/

/-- The decimal digits of a number as bytes. -/
def numeral (n : Nat) : Bytes := (Nat.toDigits 10 n).map fun c => UInt8.ofNat c.toNat

/-- Digits stand between zero and nine. -/
theorem toNat_of_isDigit {c : Char} (h : c.isDigit = true) : 0x30 ≤ c.toNat ∧ c.toNat ≤ 0x39 := by
  rw [Char.isDigit, Bool.and_eq_true, decide_eq_true_eq, decide_eq_true_eq] at h
  exact ⟨UInt32.le_iff_toNat_le.1 h.1, UInt32.le_iff_toNat_le.1 h.2⟩

/-- The digits of a number are such. -/
theorem digit_of_mem_toDigits {n : Nat} {c : Char} (h : c ∈ Nat.toDigits 10 n) :
    0x30 ≤ c.toNat ∧ c.toNat ≤ 0x39 :=
  toNat_of_isDigit (Nat.isDigit_of_mem_toDigits (by decide) (by decide) h)

/-- Characters of seven bits are encoded as themselves. -/
theorem flatMap_utf8EncodeChar {cs : List Char} (h : ∀ c ∈ cs, c.toNat < 0x80) :
    cs.flatMap String.utf8EncodeChar = cs.map fun c => UInt8.ofNat c.toNat := by
  induction cs with
  | nil => rfl
  | cons c cs ih =>
    obtain ⟨hc, hcs⟩ := List.forall_mem_cons.1 h
    rw [List.flatMap_cons, Utf8.utf8EncodeChar_of_lt hc, ih hcs]
    rfl

/-- A number is written as its digits. -/
theorem encode_toString_nat (n : Nat) : Utf8.encode (toString n) = numeral n := by
  show Utf8.encode n.repr = _
  rw [Nat.repr_eq_ofList_toDigits, Utf8.encode, String.toList_ofList]
  have hascii : ∀ c ∈ Nat.toDigits 10 n, c.toNat < 0x80 := fun c hc =>
    Nat.lt_of_le_of_lt (digit_of_mem_toDigits hc).2 (by decide)
  exact flatMap_utf8EncodeChar hascii

/-- A negative number has a sign in front. -/
theorem encode_toString_int (i : Int) : Utf8.encode (toString i)
    = if i < 0 then 0x2D :: numeral i.natAbs else numeral i.natAbs := by
  cases i with
  | ofNat n =>
    rw [if_neg (by simp)]
    exact encode_toString_nat n
  | negSucc n =>
    rw [if_pos (Int.negSucc_lt_zero n)]
    show Utf8.encode ("-" ++ toString (n + 1)) = _
    rw [Utf8.encode_append, encode_toString_nat]
    rfl

/-- A numeral has digits only. -/
theorem isDigit_of_mem_numeral {n : Nat} {b : UInt8} (h : b ∈ numeral n) : isDigit b = true := by
  obtain ⟨c, hc, rfl⟩ := List.mem_map.1 h
  have hrange := digit_of_mem_toDigits hc
  rw [isDigit, Bool.and_eq_true, decide_eq_true_eq, decide_eq_true_eq, UInt8.le_iff_toNat_le,
    UInt8.le_iff_toNat_le, UInt8.toNat_ofNat']
  show 48 ≤ c.toNat % 256 ∧ c.toNat % 256 ≤ 57
  omega

/-- It has at least one. -/
theorem numeral_ne_nil (n : Nat) : numeral n ≠ [] := by
  rw [numeral, Ne, List.map_eq_nil_iff]
  exact Nat.toDigits_ne_nil

/-- Digit by digit the same number is added. -/
theorem foldl_digits {cs : List Char} (h : ∀ c ∈ cs, c.toNat ≤ 0x39) (n : Nat) :
    (cs.map fun c => UInt8.ofNat c.toNat).foldl (fun n b => 10 * n + (b.toNat - 0x30)) n
      = cs.foldl (fun n c => 10 * n + (c.toNat - '0'.toNat)) n := by
  induction cs generalizing n with
  | nil => rfl
  | cons c cs ih =>
    obtain ⟨hc, hcs⟩ := List.forall_mem_cons.1 h
    have hnum : (UInt8.ofNat c.toNat).toNat = c.toNat := by
      rw [UInt8.toNat_ofNat']
      omega
    rw [List.map_cons, List.foldl_cons, List.foldl_cons, ih hcs, hnum]
    rfl

/-- Its value is the number. -/
theorem decimal_numeral (n : Nat) : decimal (numeral n) = n := by
  have hdigits := @Nat.ofDigitChars_ten_toDigits n
  rw [Nat.ofDigitChars_eq_foldl] at hdigits
  rw [decimal, numeral, foldl_digits fun c hc => (digit_of_mem_toDigits hc).2, hdigits]

/-- Only zero begins with a zero. -/
theorem head?_numeral {n : Nat} (h : (numeral n).head? = some 0x30) : n = 0 := by
  induction n using Nat.strongRecOn with
  | ind n ih =>
    by_cases hn : n < 10
    · revert h
      clear ih
      decide +revert
    · -- the first digit is that of the tenth part
      have hsplit : numeral n
          = numeral (n / 10) ++ [UInt8.ofNat (Nat.digitChar (n % 10)).toNat] := by
        rw [numeral, Nat.toDigits_of_base_le (by decide) (by omega), List.map_append]
        rfl
      obtain ⟨b, bs, htenth⟩ := List.exists_cons_of_ne_nil (numeral_ne_nil (n / 10))
      rw [hsplit, htenth] at h
      have hzero := ih (n / 10) (by omega) (by rw [htenth]; exact h)
      omega

/-! ### Reading -/

/-- Input that does not go on with a number. -/
def NumberEnds (rest : Bytes) : Prop :=
  ∀ b ∈ rest.head?, isDigit b = false ∧ b ≠ 0x2E ∧ b ≠ 0x65 ∧ b ≠ 0x45

/-- A numeral is read to its end, where no digit follows. -/
theorem readDigits_numeral (n : Nat) (hrest : NumberEnds rest) :
    readDigits (numeral n ++ rest) = some (numeral n, rest) := by
  have hdigits : ∀ b ∈ numeral n, isDigit b = true := fun b => isDigit_of_mem_numeral
  have hstop : rest.takeWhile isDigit = [] ∧ rest.dropWhile isDigit = rest := by
    cases rest with
    | nil => exact ⟨rfl, rfl⟩
    | cons b rest =>
      have hb : ¬ isDigit b = true := by simp [(hrest b rfl).1]
      exact ⟨List.takeWhile_cons_of_neg hb, List.dropWhile_cons_of_neg hb⟩
  have htake : (numeral n ++ rest).takeWhile isDigit = numeral n := by
    rw [List.takeWhile_append_of_pos hdigits, hstop.1, List.append_nil]
  have hdrop : (numeral n ++ rest).dropWhile isDigit = rest := by
    rw [List.dropWhile_append_of_pos hdigits, hstop.2]
  unfold readDigits
  rw [htake, hdrop]
  cases hn : numeral n with
  | nil => exact absurd hn (numeral_ne_nil n)
  | cons b bs => rfl

/-- Where a number ends there is no fraction. -/
theorem readFraction_of_numberEnds (hrest : NumberEnds rest) :
    readFraction rest = some (false, rest) := by
  unfold readFraction
  split
  · exact absurd rfl (hrest _ rfl).2.1
  · rfl

/-- Nor is there an exponent. -/
theorem readExponent_of_numberEnds (hrest : NumberEnds rest) :
    readExponent rest = some (false, rest) := by
  cases rest with
  | nil => rfl
  | cons b rest =>
    obtain ⟨-, -, hsmall, hlarge⟩ := hrest b rfl
    simp [readExponent, hsmall, hlarge]

/-- A numeral is read as its number, with the sign that stood in front. -/
theorem readMagnitude_numeral {negative : Bool} {n : Nat} (hzero : ¬ (negative ∧ n = 0))
    (hrest : NumberEnds rest) : readMagnitude negative (numeral n ++ rest)
      = some (.int (if negative then -(n : Int) else n), rest) := by
  have hleading : ¬ ((numeral n).length > 1 && (numeral n).head? == some 0x30) = true := by
    rw [Bool.and_eq_true, decide_eq_true_eq, beq_iff_eq]
    rintro ⟨hlength, hhead⟩
    obtain rfl := head?_numeral hhead
    exact absurd hlength (by decide)
  have hminus : (negative && n == 0) = false := by simpa using hzero
  unfold readMagnitude
  simp only [readDigits_numeral n hrest, Option.bind_eq_bind, Option.bind_some, if_neg hleading,
    readFraction_of_numberEnds hrest, readExponent_of_numberEnds hrest, decimal_numeral, hminus]
  rfl

/-- An integer is read back. -/
theorem readNumber_toString (i : Int) (hrest : NumberEnds rest) :
    readNumber (Utf8.encode (toString i) ++ rest) = some (.int i, rest) := by
  rw [encode_toString_int]
  by_cases hneg : i < 0
  · rw [if_pos hneg, List.cons_append, readNumber, readMagnitude_numeral (by omega) hrest,
      if_pos rfl, show -(i.natAbs : Int) = i by omega]
  · rw [if_neg hneg]
    have hread : readNumber (numeral i.natAbs ++ rest)
        = readMagnitude false (numeral i.natAbs ++ rest) := by
      cases hn : numeral i.natAbs with
      | nil => exact absurd hn (numeral_ne_nil _)
      | cons b bs =>
        -- the first digit is no minus sign
        have hb : isDigit b = true :=
          isDigit_of_mem_numeral (n := i.natAbs) (hn ▸ List.mem_cons_self)
        have hminus : b ≠ 0x2D := by
          rintro rfl
          exact absurd hb (by decide)
        rw [List.cons_append, readNumber.eq_def]
        split
        · case h_1 heq => exact absurd (List.cons.inj heq).1 hminus
        · rfl
    rw [hread, readMagnitude_numeral (by simp) hrest, if_neg (by simp),
      show (i.natAbs : Int) = i by omega]

end Json

end AppendLists
