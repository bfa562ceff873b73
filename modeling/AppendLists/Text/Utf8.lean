import AppendLists.Bytes

namespace AppendLists

/-!
# UTF-8

Texts as byte strings. The encoding is the standard one; decoding either accepts the whole byte
string or says where and how it stops being UTF-8.

* `Utf8.encode`: the bytes of a text;
* `Utf8.first`: what the beginning of a byte string is: a character, an ill-formed sequence
  with the length of its longest well-formed beginning, or a sequence cut off by the end;
* `Utf8.decode`: the text, or the `Utf8.Fault` of the first bad sequence;
* `Utf8.decodeLossy`: always a text, with U+FFFD for each bad sequence.
-/

namespace Utf8

/-- The bytes of a text. -/
def encode (s : String) : Bytes := s.toList.flatMap String.utf8EncodeChar

/-- The number of bytes of a text. -/
def size (s : String) : Nat := (encode s).length

/-- The first place where a byte string is not UTF-8. -/
structure Fault where
  /-- The number of bytes before it, all of them well-formed. -/
  validUpTo : Nat
  /-- The length of the ill-formed sequence, or `none` if the end of input cuts it off. -/
  length : Option Nat
deriving DecidableEq, Repr

/-- The wording of a fault. -/
def Fault.message : Fault → String
  | ⟨index, some n⟩ => s!"invalid utf-8 sequence of {n} bytes from index {index}"
  | ⟨index, none⟩ => s!"incomplete utf-8 byte sequence from index {index}"

/-- What stands at the beginning of a byte string. -/
inductive First where
  /-- A character, and how many bytes of it follow the first. -/
  | char (c : Char) (more : Nat)
  /-- An ill-formed sequence whose first `length` bytes could begin no character. -/
  | bad (length : Nat)
  /-- A sequence that the end of input cuts off. -/
  | cut
deriving DecidableEq, Repr

/-- Whether a byte continues a character. -/
def isContinuation (b : UInt8) : Bool := 0x80 ≤ b && b ≤ 0xBF

/-- Whether `b₁` may follow `b₀` as the second of three bytes: no overlong form, no surrogate. -/
def isSecondOfThree (b₀ b₁ : UInt8) : Bool :=
  if b₀ = 0xE0 then 0xA0 ≤ b₁ && b₁ ≤ 0xBF
  else if b₀ = 0xED then 0x80 ≤ b₁ && b₁ ≤ 0x9F
  else isContinuation b₁

/-- Whether `b₁` may follow `b₀` as the second of four bytes: no overlong form, nothing beyond
U+10FFFF. -/
def isSecondOfFour (b₀ b₁ : UInt8) : Bool :=
  if b₀ = 0xF0 then 0x90 ≤ b₁ && b₁ ≤ 0xBF
  else if b₀ = 0xF4 then 0x80 ≤ b₁ && b₁ ≤ 0x8F
  else isContinuation b₁

/-- The payload of a continuation byte. -/
def payload (b : UInt8) : Nat := b.toNat % 64

/-- What begins with the byte `b₀`, followed by `rest`. -/
def first (b₀ : UInt8) (rest : Bytes) : First :=
  -- one byte; then continuations and overlong forms, which begin nothing; then two, three, four
  if b₀ < 0x80 then .char (Char.ofNat b₀.toNat) 0
  else if b₀ < 0xC2 then .bad 1
  else if b₀ < 0xE0 then
    match rest with
    | [] => .cut
    | b₁ :: _ =>
      if isContinuation b₁ then .char (Char.ofNat (b₀.toNat % 32 * 64 + payload b₁)) 1
      else .bad 1
  else if b₀ < 0xF0 then
    match rest with
    | [] => .cut
    | b₁ :: rest =>
      if isSecondOfThree b₀ b₁ then
        match rest with
        | [] => .cut
        | b₂ :: _ =>
          if isContinuation b₂ then
            .char (Char.ofNat ((b₀.toNat % 16 * 64 + payload b₁) * 64 + payload b₂)) 2
          else .bad 2
      else .bad 1
  else if b₀ < 0xF5 then
    match rest with
    | [] => .cut
    | b₁ :: rest =>
      if isSecondOfFour b₀ b₁ then
        match rest with
        | [] => .cut
        | b₂ :: rest =>
          if isContinuation b₂ then
            match rest with
            | [] => .cut
            | b₃ :: _ =>
              if isContinuation b₃ then
                .char (Char.ofNat
                  (((b₀.toNat % 8 * 64 + payload b₁) * 64 + payload b₂) * 64 + payload b₃)) 3
              else .bad 3
          else .bad 2
      else .bad 1
  else .bad 1

/-- The characters of a byte string that starts at offset `index` of the whole. -/
def decodeFrom (index : Nat) : Bytes → Except Fault (List Char)
  | [] => .ok []
  | b :: rest =>
    match first b rest with
    | .char c more => (decodeFrom (index + 1 + more) (rest.drop more)).map (c :: ·)
    | .bad n => .error ⟨index, some n⟩
    | .cut => .error ⟨index, none⟩
termination_by bs => bs.length
decreasing_by simp only [List.length_drop, List.length_cons]; omega

/-- The text of a byte string, or its first fault. -/
def decode (bs : Bytes) : Except Fault String := (decodeFrom 0 bs).map String.ofList

/-- The characters of a byte string, with U+FFFD for each bad sequence. -/
def decodeLossyChars : Bytes → List Char
  | [] => []
  | b :: rest =>
    match first b rest with
    | .char c more => c :: decodeLossyChars (rest.drop more)
    | .bad n => Char.ofNat 0xFFFD :: decodeLossyChars (rest.drop (n - 1))
    | .cut => [Char.ofNat 0xFFFD]
termination_by bs => bs.length
decreasing_by all_goals simp only [List.length_drop, List.length_cons]; omega

/-- The text of a byte string, with U+FFFD for each bad sequence. -/
def decodeLossy (bs : Bytes) : String := String.ofList (decodeLossyChars bs)

end Utf8

end AppendLists
