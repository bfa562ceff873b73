namespace AppendLists

/-!
# Byte strings

A byte string is a list of bytes. The module holds what every format of the library is built
from: integers of fixed width, and pieces joined by a separator.


* `Bytes.ofNatLE` / `Bytes.toNatLE`: least significant byte first;
* `Bytes.ofNatBE` / `Bytes.toNatBE`: most significant byte first, the reverse of the former;
* `Bytes.capacity`: how many numbers so many bytes can hold;
* `Bytes.joinWith`: pieces with a separating byte between consecutive ones.

Writing drops what does not fit the width, and reading a written integer gives it back
modulo the capacity of the width (`toNatLE_ofNatLE`, `toNatBE_ofNatBE`).
-/

/-- A byte string. -/
abbrev Bytes := List UInt8

namespace Bytes

/-- How many numbers `width` bytes can hold. -/
def capacity : Nat → Nat
  | 0 => 1
  | width + 1 => 256 * capacity width

/-- The `width` bytes of `n`, least significant first; higher digits are dropped. -/
def ofNatLE : Nat → Nat → Bytes
  | 0, _ => []
  | width + 1, n => UInt8.ofNat n :: ofNatLE width (n / 256)

/-- The number whose bytes are given, least significant first. -/
def toNatLE : Bytes → Nat
  | [] => 0
  | b :: bs => b.toNat + 256 * toNatLE bs

/-- The `width` bytes of `n`, most significant first; higher digits are dropped. -/
def ofNatBE (width n : Nat) : Bytes := (ofNatLE width n).reverse

/-- The number whose bytes are given, most significant first. -/
def toNatBE (bs : Bytes) : Nat := toNatLE bs.reverse

/-- Pieces in order, with the byte `separator` between consecutive ones. -/
def joinWith (separator : UInt8) : List Bytes → Bytes
  | [] => []
  | [piece] => piece
  | piece :: next :: pieces => piece ++ separator :: joinWith separator (next :: pieces)

/-! ### Lengths -/

/-- As many bytes as are asked for, whatever the number is. -/
@[simp] theorem length_ofNatLE (width n : Nat) : (ofNatLE width n).length = width := by
  induction width generalizing n with
  | zero => rfl
  | succ width ih => simp [ofNatLE, ih]

@[simp] theorem length_ofNatBE (width n : Nat) : (ofNatBE width n).length = width := by
  simp [ofNatBE]

/-! ### Reading what was written -/

/-- They hold what fits them of the number. -/
theorem toNatLE_ofNatLE (width n : Nat) : toNatLE (ofNatLE width n) = n % capacity width := by
  induction width generalizing n with
  | zero => simp [ofNatLE, toNatLE, capacity, Nat.mod_one]
  | succ width ih =>
    have low : (UInt8.ofNat n).toNat = n % 256 := by simp
    rw [ofNatLE, toNatLE, ih, low, capacity, Nat.mod_mul]

theorem toNatBE_ofNatBE (width n : Nat) : toNatBE (ofNatBE width n) = n % capacity width := by
  simp [toNatBE, ofNatBE, toNatLE_ofNatLE]

theorem toNatLE_lt (bs : Bytes) : toNatLE bs < capacity bs.length := by
  induction bs with
  | nil => simp [toNatLE, capacity]
  | cons b bs ih =>
    have hb : b.toNat < 256 := b.toNat_lt
    rw [toNatLE, List.length_cons, capacity]
    omega

/-- A string of bytes is what its number is written as. -/
theorem ofNatLE_toNatLE (bs : Bytes) : ofNatLE bs.length (toNatLE bs) = bs := by
  induction bs with
  | nil => rfl
  | cons b bs ih =>
    have hb : b.toNat < 256 := b.toNat_lt
    have low : UInt8.ofNat (b.toNat + 256 * toNatLE bs) = b := by
      apply UInt8.toNat_inj.1
      simp only [UInt8.toNat_ofNat']
      omega
    have high : (b.toNat + 256 * toNatLE bs) / 256 = toNatLE bs := by omega
    rw [List.length_cons, toNatLE, ofNatLE, low, high, ih]

/-- Bytes are those of the number they make. -/
theorem ofNatBE_toNatBE (bs : Bytes) : ofNatBE bs.length (toNatBE bs) = bs := by
  have h := ofNatLE_toNatLE bs.reverse
  rw [List.length_reverse] at h
  rw [ofNatBE, toNatBE, h, List.reverse_reverse]

/-! ### Joining -/

/-- The first piece stands in front of a separator if there are others. -/
theorem joinWith_cons (separator : UInt8) (piece : Bytes) {pieces : List Bytes}
    (h : pieces ≠ []) :
    joinWith separator (piece :: pieces) = piece ++ separator :: joinWith separator pieces := by
  cases pieces with
  | nil => exact absurd rfl h
  | cons next pieces => rfl

/-- Two joined runs of pieces are separated like two pieces. -/
theorem joinWith_append (separator : UInt8) {ps qs : List Bytes} (hp : ps ≠ []) (hq : qs ≠ []) :
    joinWith separator (ps ++ qs)
      = joinWith separator ps ++ separator :: joinWith separator qs := by
  induction ps with
  | nil => exact absurd rfl hp
  | cons p ps ih =>
    cases ps with
    | nil => exact joinWith_cons separator p hq
    | cons p' ps =>
      rw [List.cons_append, joinWith_cons separator p (by simp),
        joinWith_cons separator p (by simp), ih (by simp)]
      simp

/-- Behind the first piece each one stands behind a separator. -/
theorem joinWith_eq_flatMap (separator : UInt8) (piece : Bytes) (pieces : List Bytes) :
    joinWith separator (piece :: pieces) = piece ++ pieces.flatMap (separator :: ·) := by
  induction pieces generalizing piece with
  | nil => exact (List.append_nil piece).symm
  | cons next pieces ih =>
    rw [joinWith_cons separator piece (List.cons_ne_nil next pieces), ih, List.flatMap_cons]
    rfl

end Bytes

end AppendLists
