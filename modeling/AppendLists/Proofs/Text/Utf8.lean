import AppendLists.Text.Utf8

namespace AppendLists

/-!
# UTF-8 read back

The bytes of a text are decoded to the text, and no other bytes are.

* `Bytes.lt_of_toNat`, `Bytes.not_lt_of_toNat`: bytes compared through their numbers;
* `first_of_one`, `first_of_two`, `first_of_three`, `first_of_four`: a code point by its number of
  bytes;
* `first_utf8EncodeChar`: the bytes of a character begin with that character;
* `decode_encode`, `encode_inj`: whole texts;
* `utf8EncodeChar_of_one`, `utf8EncodeChar_of_two`, `utf8EncodeChar_of_three`,
  `utf8EncodeChar_of_four`, `utf8EncodeChar_of_first`: a character found at the beginning of some
  bytes is written as those bytes;
* `encode_of_decode`: a text found in some bytes is written as those bytes.
-/

namespace Bytes

/-- Bytes are compared as the numbers they are. -/
theorem not_lt_of_toNat {b c : UInt8} (h : c.toNat ≤ b.toNat) : ¬ b < c := by
  rw [UInt8.lt_iff_toNat_lt]
  omega

theorem lt_of_toNat {b c : UInt8} (h : b.toNat < c.toNat) : b < c := UInt8.lt_iff_toNat_lt.2 h

end Bytes

namespace Utf8

open Bytes (not_lt_of_toNat lt_of_toNat)

variable {n : Nat} {b₀ b₁ b₂ b₃ : UInt8} {tail : Bytes}

/-! ### Ranges of bytes -/

/-- A byte behind the first one holds six bits, below a mark of two. -/
theorem isContinuation_of_toNat {m : Nat} {b : UInt8} (h : b.toNat = m % 64 + 0x80) :
    isContinuation b = true := by
  simp only [isContinuation, Bool.and_eq_true, decide_eq_true_eq, UInt8.le_iff_toNat_le]
  show 128 ≤ b.toNat ∧ b.toNat ≤ 191
  omega

/-- The six bits are what it adds. -/
theorem payload_of_toNat {m : Nat} {b : UInt8} (h : b.toNat = m % 64 + 0x80) :
    payload b = m % 64 := by
  unfold payload
  omega

/-- No overlong form and no surrogate has such a second byte. -/
theorem isSecondOfThree_of_toNat (hlow : 0x800 ≤ n) (hscalar : n < 0xD800 ∨ 0xDFFF < n)
    (hhigh : n < 0x10000) (h₀ : b₀.toNat = n / 4096 % 16 + 0xE0)
    (h₁ : b₁.toNat = n / 64 % 64 + 0x80) : isSecondOfThree b₀ b₁ = true := by
  unfold isSecondOfThree
  split
  · case isTrue h =>
    -- a smaller second byte would be an overlong form
    have hb : b₀.toNat = 0xE0 := by rw [h]; rfl
    simp only [Bool.and_eq_true, decide_eq_true_eq, UInt8.le_iff_toNat_le]
    show 160 ≤ b₁.toNat ∧ b₁.toNat ≤ 191
    omega
  · split
    · case isTrue h =>
      -- a greater one would be a surrogate
      have hb : b₀.toNat = 0xED := by rw [h]; rfl
      simp only [Bool.and_eq_true, decide_eq_true_eq, UInt8.le_iff_toNat_le]
      show 128 ≤ b₁.toNat ∧ b₁.toNat ≤ 159
      omega
    · exact isContinuation_of_toNat h₁

/-- No overlong form and nothing beyond the last code point has such a second byte. -/
theorem isSecondOfFour_of_toNat (hlow : 0x10000 ≤ n) (hhigh : n < 0x110000)
    (h₀ : b₀.toNat = n / 262144 % 8 + 0xF0) (h₁ : b₁.toNat = n / 4096 % 64 + 0x80) :
    isSecondOfFour b₀ b₁ = true := by
  unfold isSecondOfFour
  split
  · case isTrue h =>
    -- a smaller second byte would be an overlong form
    have hb : b₀.toNat = 0xF0 := by rw [h]; rfl
    simp only [Bool.and_eq_true, decide_eq_true_eq, UInt8.le_iff_toNat_le]
    show 144 ≤ b₁.toNat ∧ b₁.toNat ≤ 191
    omega
  · split
    · case isTrue h =>
      -- a greater one would be beyond the last code point
      have hb : b₀.toNat = 0xF4 := by rw [h]; rfl
      simp only [Bool.and_eq_true, decide_eq_true_eq, UInt8.le_iff_toNat_le]
      show 128 ≤ b₁.toNat ∧ b₁.toNat ≤ 143
      omega
    · exact isContinuation_of_toNat h₁

/-! ### Code points by their number of bytes -/

/-- A character of seven bits is its own byte. -/
theorem first_of_one (hhigh : n < 0x80) (h₀ : b₀.toNat = n) :
    first b₀ tail = .char (Char.ofNat n) 0 := by
  unfold first
  rw [if_pos (lt_of_toNat (by show b₀.toNat < 128; omega)), h₀]

/-- A character of up to eleven bits is read off two bytes. -/
theorem first_of_two (hlow : 0x80 ≤ n) (hhigh : n < 0x800) (h₀ : b₀.toNat = n / 64 % 32 + 0xC0)
    (h₁ : b₁.toNat = n % 64 + 0x80) : first b₀ (b₁ :: tail) = .char (Char.ofNat n) 1 := by
  have hn : b₀.toNat % 32 * 64 + payload b₁ = n := by
    rw [payload_of_toNat h₁]
    omega
  unfold first
  rw [if_neg (not_lt_of_toNat (by show 128 ≤ b₀.toNat; omega)),
    if_neg (not_lt_of_toNat (by show 194 ≤ b₀.toNat; omega)),
    if_pos (lt_of_toNat (by show b₀.toNat < 224; omega))]
  simp only [isContinuation_of_toNat h₁, if_true, hn]

/-- A character of up to sixteen bits is read off three bytes, unless it is a surrogate. -/
theorem first_of_three (hlow : 0x800 ≤ n) (hscalar : n < 0xD800 ∨ 0xDFFF < n) (hhigh : n < 0x10000)
    (h₀ : b₀.toNat = n / 4096 % 16 + 0xE0) (h₁ : b₁.toNat = n / 64 % 64 + 0x80)
    (h₂ : b₂.toNat = n % 64 + 0x80) :
    first b₀ (b₁ :: b₂ :: tail) = .char (Char.ofNat n) 2 := by
  have hn : (b₀.toNat % 16 * 64 + payload b₁) * 64 + payload b₂ = n := by
    rw [payload_of_toNat h₁, payload_of_toNat h₂]
    omega
  -- the first byte is in none of the classes of shorter forms
  unfold first
  rw [if_neg (not_lt_of_toNat (by show 128 ≤ b₀.toNat; omega)),
    if_neg (not_lt_of_toNat (by show 194 ≤ b₀.toNat; omega)),
    if_neg (not_lt_of_toNat (by show 224 ≤ b₀.toNat; omega)),
    if_pos (lt_of_toNat (by show b₀.toNat < 240; omega))]
  simp only [isSecondOfThree_of_toNat hlow hscalar hhigh h₀ h₁, isContinuation_of_toNat h₂, if_true,
    hn]

/-- A character of up to twenty-one bits is read off four bytes. -/
theorem first_of_four (hlow : 0x10000 ≤ n) (hhigh : n < 0x110000)
    (h₀ : b₀.toNat = n / 262144 % 8 + 0xF0) (h₁ : b₁.toNat = n / 4096 % 64 + 0x80)
    (h₂ : b₂.toNat = n / 64 % 64 + 0x80) (h₃ : b₃.toNat = n % 64 + 0x80) :
    first b₀ (b₁ :: b₂ :: b₃ :: tail) = .char (Char.ofNat n) 3 := by
  have hn : ((b₀.toNat % 8 * 64 + payload b₁) * 64 + payload b₂) * 64 + payload b₃ = n := by
    rw [payload_of_toNat h₁, payload_of_toNat h₂, payload_of_toNat h₃]
    omega
  unfold first
  rw [if_neg (not_lt_of_toNat (by show 128 ≤ b₀.toNat; omega)),
    if_neg (not_lt_of_toNat (by show 194 ≤ b₀.toNat; omega)),
    if_neg (not_lt_of_toNat (by show 224 ≤ b₀.toNat; omega)),
    if_neg (not_lt_of_toNat (by show 240 ≤ b₀.toNat; omega)),
    if_pos (lt_of_toNat (by show b₀.toNat < 245; omega))]
  simp only [isSecondOfFour_of_toNat hlow hhigh h₀ h₁, isContinuation_of_toNat h₂,
    isContinuation_of_toNat h₃, if_true, hn]

/-! ### Characters and texts -/

/-- The bytes of a character begin with that character, whatever follows. -/
theorem first_utf8EncodeChar (c : Char) :
    ∃ b more, String.utf8EncodeChar c = b :: more ∧
      ∀ tail, first b (more ++ tail) = .char c more.length := by
  have hc : Char.ofNat c.val.toNat = c := Char.ofNat_toNat c
  have hvalid : c.val.toNat < 0xD800 ∨ 0xDFFF < c.val.toNat ∧ c.val.toNat < 0x110000 := c.valid
  unfold String.utf8EncodeChar
  -- from here on only the number of the code point matters
  generalize c.val.toNat = n at hc hvalid
  rw [← hc]
  by_cases h₁ : n ≤ 0x7F
  · rw [if_pos h₁]
    exact ⟨_, [], rfl, fun tail => first_of_one (by omega) (by simp; omega)⟩
  by_cases h₂ : n ≤ 0x7FF
  · rw [if_neg h₁, if_pos h₂]
    exact ⟨_, [_], rfl, fun tail =>
      first_of_two (by omega) (by omega) (by simp; omega) (by simp; omega)⟩
  by_cases h₃ : n ≤ 0xFFFF
  · rw [if_neg h₁, if_neg h₂, if_pos h₃]
    exact ⟨_, [_, _], rfl, fun tail =>
      first_of_three (by omega) (by omega) (by omega) (by simp; omega) (by simp; omega)
        (by simp; omega)⟩
  · rw [if_neg h₁, if_neg h₂, if_neg h₃]
    exact ⟨_, [_, _, _], rfl, fun tail =>
      first_of_four (by omega) (by omega) (by simp; omega) (by simp; omega) (by simp; omega)
        (by simp; omega)⟩

/-- Encoded characters are decoded one after the other. -/
theorem decodeFrom_flatMap (index : Nat) (cs : List Char) :
    decodeFrom index (cs.flatMap String.utf8EncodeChar) = .ok cs := by
  induction cs generalizing index with
  | nil => rw [List.flatMap_nil, decodeFrom]
  | cons c cs ih =>
    obtain ⟨b, more, hbytes, hfirst⟩ := first_utf8EncodeChar c
    rw [List.flatMap_cons, hbytes, List.cons_append, decodeFrom, hfirst]
    simp only [List.drop_left, ih]
    rfl

/-- A text is decoded from its bytes. -/
theorem decode_encode (s : String) : decode (encode s) = .ok s := by
  rw [decode, encode, decodeFrom_flatMap]
  show Except.ok (String.ofList s.toList) = _
  rw [String.ofList_toList]

/-- Texts are told apart by their bytes. -/
theorem encode_inj {s t : String} (h : encode s = encode t) : s = t := by
  have hs := decode_encode s
  rw [h, decode_encode t] at hs
  exact (Except.ok.inj hs).symm

/-! ### What is decoded is written back -/

theorem toNat_of_isContinuation {b : UInt8} (h : isContinuation b = true) :
    0x80 ≤ b.toNat ∧ b.toNat ≤ 0xBF := by
  simpa [isContinuation, UInt8.le_iff_toNat_le] using h

/-- The second byte of three is high enough not to be overlong, and no surrogate. -/
theorem toNat_of_isSecondOfThree (h : isSecondOfThree b₀ b₁ = true) :
    0x80 ≤ b₁.toNat ∧ b₁.toNat ≤ 0xBF ∧ (b₀.toNat = 0xE0 → 0xA0 ≤ b₁.toNat)
      ∧ (b₀.toNat = 0xED → b₁.toNat ≤ 0x9F) := by
  unfold isSecondOfThree at h
  split at h
  · case isTrue hb =>
    subst hb
    have hrange : 0xA0 ≤ b₁.toNat ∧ b₁.toNat ≤ 0xBF := by
      simpa [UInt8.le_iff_toNat_le] using h
    exact ⟨by omega, by omega, fun _ => hrange.1, fun hb => absurd hb (by decide)⟩
  · case isFalse hlow =>
    split at h
    · case isTrue hb =>
      subst hb
      have hrange : 0x80 ≤ b₁.toNat ∧ b₁.toNat ≤ 0x9F := by
        simpa [UInt8.le_iff_toNat_le] using h
      exact ⟨by omega, by omega, fun hb => absurd hb (by decide), fun _ => hrange.2⟩
    · case isFalse hhigh =>
      obtain ⟨hmin, hmax⟩ := toNat_of_isContinuation h
      exact ⟨hmin, hmax, fun hb => absurd (UInt8.toNat_inj.1 hb) hlow,
        fun hb => absurd (UInt8.toNat_inj.1 hb) hhigh⟩

/-- The second byte of four is high enough not to be overlong, and not beyond the last code
point. -/
theorem toNat_of_isSecondOfFour (h : isSecondOfFour b₀ b₁ = true) :
    0x80 ≤ b₁.toNat ∧ b₁.toNat ≤ 0xBF ∧ (b₀.toNat = 0xF0 → 0x90 ≤ b₁.toNat)
      ∧ (b₀.toNat = 0xF4 → b₁.toNat ≤ 0x8F) := by
  unfold isSecondOfFour at h
  split at h
  · case isTrue hb =>
    subst hb
    have hrange : 0x90 ≤ b₁.toNat ∧ b₁.toNat ≤ 0xBF := by
      simpa [UInt8.le_iff_toNat_le] using h
    exact ⟨by omega, by omega, fun _ => hrange.1, fun hb => absurd hb (by decide)⟩
  · case isFalse hlow =>
    split at h
    · case isTrue hb =>
      subst hb
      have hrange : 0x80 ≤ b₁.toNat ∧ b₁.toNat ≤ 0x8F := by
        simpa [UInt8.le_iff_toNat_le] using h
      exact ⟨by omega, by omega, fun hb => absurd hb (by decide), fun _ => hrange.2⟩
    · case isFalse hhigh =>
      obtain ⟨hmin, hmax⟩ := toNat_of_isContinuation h
      exact ⟨hmin, hmax, fun hb => absurd (UInt8.toNat_inj.1 hb) hlow,
        fun hb => absurd (UInt8.toNat_inj.1 hb) hhigh⟩

theorem val_ofNat (h : n.isValidChar) : (Char.ofNat n).val.toNat = n := by
  unfold Char.ofNat
  rw [dif_pos h]
  rfl

theorem eq_ofNat_of_toNat {b : UInt8} {m : Nat} (h : b.toNat = m) : UInt8.ofNat m = b := by
  rw [← h, UInt8.ofNat_toNat]

/-- What is read off one byte is encoded as the byte. -/
theorem utf8EncodeChar_of_one (h₀ : b₀ < 0x80) :
    String.utf8EncodeChar (Char.ofNat b₀.toNat) = [b₀] := by
  have hlt : b₀.toNat < 128 := UInt8.lt_iff_toNat_lt.1 h₀
  unfold String.utf8EncodeChar
  rw [val_ofNat (.inl (by omega)), if_pos (by omega), UInt8.ofNat_toNat]

/-- What is read off two bytes is encoded as them: a shorter form is not read. -/
theorem utf8EncodeChar_of_two (hlow : ¬ b₀ < 0xC2) (hhigh : b₀ < 0xE0)
    (h₁ : isContinuation b₁ = true) :
    String.utf8EncodeChar (Char.ofNat (b₀.toNat % 32 * 64 + payload b₁)) = [b₀, b₁] := by
  have hmin : 194 ≤ b₀.toNat := UInt8.le_iff_toNat_le.1 (UInt8.not_lt.1 hlow)
  have hmax : b₀.toNat < 224 := UInt8.lt_iff_toNat_lt.1 hhigh
  have hrange := toNat_of_isContinuation h₁
  unfold payload String.utf8EncodeChar
  rw [val_ofNat (.inl (by omega)), if_neg (by omega), if_pos (by omega),
    eq_ofNat_of_toNat (b := b₀) (by omega), eq_ofNat_of_toNat (b := b₁) (by omega)]

/-- So is what is read off three. -/
theorem utf8EncodeChar_of_three (hlow : ¬ b₀ < 0xE0) (hhigh : b₀ < 0xF0)
    (h₁ : isSecondOfThree b₀ b₁ = true) (h₂ : isContinuation b₂ = true) :
    String.utf8EncodeChar (Char.ofNat ((b₀.toNat % 16 * 64 + payload b₁) * 64 + payload b₂))
      = [b₀, b₁, b₂] := by
  have hmin : 224 ≤ b₀.toNat := UInt8.le_iff_toNat_le.1 (UInt8.not_lt.1 hlow)
  have hmax : b₀.toNat < 240 := UInt8.lt_iff_toNat_lt.1 hhigh
  obtain ⟨hmin₁, hmax₁, hoverlong, hsurrogate⟩ := toNat_of_isSecondOfThree h₁
  have hrange₂ := toNat_of_isContinuation h₂
  unfold payload String.utf8EncodeChar
  rw [val_ofNat (by unfold Nat.isValidChar; omega), if_neg (by omega), if_neg (by omega),
    if_pos (by omega), eq_ofNat_of_toNat (b := b₀) (by omega),
    eq_ofNat_of_toNat (b := b₁) (by omega), eq_ofNat_of_toNat (b := b₂) (by omega)]

/-- So is what is read off four. -/
theorem utf8EncodeChar_of_four (hlow : ¬ b₀ < 0xF0) (hhigh : b₀ < 0xF5)
    (h₁ : isSecondOfFour b₀ b₁ = true) (h₂ : isContinuation b₂ = true)
    (h₃ : isContinuation b₃ = true) :
    String.utf8EncodeChar (Char.ofNat
        (((b₀.toNat % 8 * 64 + payload b₁) * 64 + payload b₂) * 64 + payload b₃))
      = [b₀, b₁, b₂, b₃] := by
  have hmin : 240 ≤ b₀.toNat := UInt8.le_iff_toNat_le.1 (UInt8.not_lt.1 hlow)
  have hmax : b₀.toNat < 245 := UInt8.lt_iff_toNat_lt.1 hhigh
  obtain ⟨hmin₁, hmax₁, hoverlong, hbeyond⟩ := toNat_of_isSecondOfFour h₁
  have hrange₂ := toNat_of_isContinuation h₂
  have hrange₃ := toNat_of_isContinuation h₃
  unfold payload String.utf8EncodeChar
  rw [val_ofNat (by unfold Nat.isValidChar; omega), if_neg (by omega), if_neg (by omega),
    if_neg (by omega), eq_ofNat_of_toNat (b := b₀) (by omega),
    eq_ofNat_of_toNat (b := b₁) (by omega), eq_ofNat_of_toNat (b := b₂) (by omega),
    eq_ofNat_of_toNat (b := b₃) (by omega)]

/-- A character found at the beginning of some bytes is written as the bytes it was found in. -/
theorem utf8EncodeChar_of_first {rest : Bytes} {c : Char} {more : Nat}
    (h : first b₀ rest = .char c more) : String.utf8EncodeChar c = b₀ :: rest.take more := by
  -- the classes of the first byte in the order in which they are told apart
  unfold first at h
  split at h
  · case isTrue h₀ =>
    obtain ⟨rfl, rfl⟩ := First.char.inj h
    exact utf8EncodeChar_of_one h₀
  split at h
  · cases h
  case isFalse hlow₂ =>
  split at h
  · case isTrue hhigh₂ =>
    split at h
    · cases h
    · split at h
      · case isTrue h₁ =>
        obtain ⟨rfl, rfl⟩ := First.char.inj h
        exact utf8EncodeChar_of_two hlow₂ hhigh₂ h₁
      · cases h
  case isFalse hlow₃ =>
  split at h
  · case isTrue hhigh₃ =>
    split at h
    · cases h
    · split at h
      · case isTrue h₁ =>
        split at h
        · cases h
        · split at h
          · case isTrue h₂ =>
            obtain ⟨rfl, rfl⟩ := First.char.inj h
            exact utf8EncodeChar_of_three hlow₃ hhigh₃ h₁ h₂
          · cases h
      · cases h
  case isFalse hlow₄ =>
  split at h
  · case isTrue hhigh₄ =>
    split at h
    · cases h
    · split at h
      · case isTrue h₁ =>
        split at h
        · cases h
        · split at h
          · case isTrue h₂ =>
            split at h
            · cases h
            · split at h
              · case isTrue h₃ =>
                obtain ⟨rfl, rfl⟩ := First.char.inj h
                exact utf8EncodeChar_of_four hlow₄ hhigh₄ h₁ h₂ h₃
              · cases h
          · cases h
      · cases h
  · cases h

/-- Bytes that are decoded are the encoded characters. -/
theorem flatMap_of_decodeFrom {index : Nat} {bs : Bytes} {cs : List Char}
    (h : decodeFrom index bs = .ok cs) : cs.flatMap String.utf8EncodeChar = bs := by
  induction index, bs using decodeFrom.induct generalizing cs with
  | case1 index =>
    rw [decodeFrom] at h
    obtain rfl := Except.ok.inj h
    rfl
  | case2 index b rest c more hfirst ih =>
    rw [decodeFrom, hfirst] at h
    cases hrest : decodeFrom (index + 1 + more) (rest.drop more) with
    | error fault =>
      simp only [hrest, Except.map] at h
      cases h
    | ok cs' =>
      simp only [hrest, Except.map] at h
      obtain rfl := Except.ok.inj h
      rw [List.flatMap_cons, utf8EncodeChar_of_first hfirst, ih hrest, List.cons_append,
        List.take_append_drop]
  | case3 index b rest n hfirst =>
    rw [decodeFrom, hfirst] at h
    cases h
  | case4 index b rest hfirst =>
    rw [decodeFrom, hfirst] at h
    cases h

/-- A text is written as the bytes it was found in. -/
theorem encode_of_decode {bs : Bytes} {s : String} (h : decode bs = .ok s) : encode s = bs := by
  unfold decode at h
  cases hchars : decodeFrom 0 bs with
  | error fault =>
    rw [hchars] at h
    cases h
  | ok cs =>
    rw [hchars] at h
    obtain rfl : String.ofList cs = s := Except.ok.inj h
    rw [encode, String.toList_ofList, flatMap_of_decodeFrom hchars]

end Utf8

end AppendLists
