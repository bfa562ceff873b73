import AppendLists.Checksum

namespace AppendLists

/-!
# What a checksum detects

The register of the checksum after a byte tells what it was before the byte, and what the byte was if
the register before is known. So byte strings of one length that differ in a single byte have
different checksums, however long they are.

* `Checksum.getLsbD_shift`: the bits of the register after one more bit;
* `Checksum.shift_injective`, `absorb_injective`, `absorb_injective_byte`: nothing is lost;
* `crc32_set_ne`: one byte changed.
-/

namespace Checksum

/-- The lowest bit decides whether the polynomial is added. -/
theorem and_one_eq_one_iff (register : UInt32) :
    register &&& 1 = 1 ↔ register.toBitVec.getLsbD 0 = true := by
  rw [← UInt32.toNat_inj, UInt32.toNat_and]
  show register.toNat &&& 1 = 1 ↔ register.toNat.testBit 0 = true
  rw [Nat.and_one_is_mod, Nat.testBit_zero, decide_eq_true_eq]

/-- Each bit is the next higher one before, turned over where the lowest bit adds the polynomial. -/
theorem getLsbD_shift (register : UInt32) (i : Nat) :
    (shift register).toBitVec.getLsbD i
      = (register.toBitVec.getLsbD (i + 1)
        ^^ (register.toBitVec.getLsbD 0 && polynomial.toBitVec.getLsbD i)) := by
  have hright : (register >>> 1).toBitVec.getLsbD i = register.toBitVec.getLsbD (i + 1) := by
    rw [UInt32.toBitVec_shiftRight]
    simp [Nat.add_comm]
  unfold shift
  split
  · case isTrue hlow =>
    rw [UInt32.toBitVec_xor, BitVec.getLsbD_xor, hright, (and_one_eq_one_iff _).1 hlow,
      Bool.true_and]
  · case isFalse hlow =>
    have hzero : register.toBitVec.getLsbD 0 = false := by
      simpa using mt (and_one_eq_one_iff _).2 hlow
    rw [hright, hzero, Bool.false_and, Bool.xor_false]

/-- No two registers are shifted to the same one. -/
theorem shift_injective {register register' : UInt32} (h : shift register = shift register') :
    register = register' := by
  have hbit : ∀ i, (register.toBitVec.getLsbD (i + 1)
        ^^ (register.toBitVec.getLsbD 0 && polynomial.toBitVec.getLsbD i))
      = (register'.toBitVec.getLsbD (i + 1)
        ^^ (register'.toBitVec.getLsbD 0 && polynomial.toBitVec.getLsbD i)) := fun i => by
    rw [← getLsbD_shift, ← getLsbD_shift, h]
  -- the highest bit of the polynomial is set, so it tells the lowest bit that fell out
  have hlowest : register.toBitVec.getLsbD 0 = register'.toBitVec.getLsbD 0 := by
    have htop : polynomial.toBitVec.getLsbD 31 = true := by decide
    have h31 := hbit 31
    rw [htop, BitVec.getLsbD_of_ge _ _ (Nat.le_refl 32), BitVec.getLsbD_of_ge _ _ (Nat.le_refl 32)]
      at h31
    simpa only [Bool.false_xor, Bool.and_true] using h31
  apply UInt32.toBitVec_inj.1
  apply BitVec.eq_of_getLsbD_eq
  intro i _
  cases i with
  | zero => exact hlowest
  | succ i =>
    have hi := hbit i
    rw [hlowest] at hi
    exact Bool.xor_left_inj.1 hi

/-- So a byte keeps different registers apart. -/
theorem absorb_injective {register register' : UInt32} {b : UInt8}
    (h : absorb register b = absorb register' b) : register = register' := by
  unfold absorb at h
  -- undo the eight bits, and then the byte
  repeat' replace h := shift_injective h
  exact (UInt32.xor_left_inj _).1 h

/-- And different bytes are told apart by one register. -/
theorem absorb_injective_byte {register : UInt32} {b b' : UInt8}
    (h : absorb register b = absorb register b') : b = b' := by
  unfold absorb at h
  repeat' replace h := shift_injective h
  exact UInt8.toUInt32_inj.1 ((UInt32.xor_right_inj _).1 h)

/-- Any bytes keep different registers apart. -/
theorem foldl_absorb_injective (bs : Bytes) {register register' : UInt32}
    (h : bs.foldl absorb register = bs.foldl absorb register') : register = register' := by
  induction bs generalizing register register' with
  | nil => exact h
  | cons b bs ih => exact absorb_injective (ih h)

end Checksum

/-- One byte that differs makes another checksum. -/
theorem crc32_append_cons_ne (front back : Bytes) {b b' : UInt8} (h : b ≠ b') :
    crc32 (front ++ b :: back) ≠ crc32 (front ++ b' :: back) := by
  intro hcrc
  have hregister := (UInt32.xor_left_inj _).1 hcrc
  simp only [List.foldl_append, List.foldl_cons] at hregister
  exact h (Checksum.absorb_injective_byte (Checksum.foldl_absorb_injective back hregister))

/-- **One byte changed changes the checksum**, whatever stands around it. -/
theorem crc32_set_ne {bs : Bytes} {place : Nat} (hplace : place < bs.length) {byte : UInt8}
    (h : bs[place]? ≠ some byte) : crc32 (bs.set place byte) ≠ crc32 bs := by
  rw [List.getElem?_eq_getElem hplace] at h
  have hsplit : bs.take place ++ bs[place] :: bs.drop (place + 1) = bs := by
    rw [List.getElem_cons_drop, List.take_append_drop]
  have hset : bs.set place byte = bs.take place ++ byte :: bs.drop (place + 1) :=
    List.set_eq_take_append_cons_drop.trans (if_pos hplace)
  have hne := crc32_append_cons_ne (bs.take place) (bs.drop (place + 1)) fun heq : byte = _ =>
    h (congrArg some heq.symm)
  rwa [← hset, hsplit] at hne

end AppendLists
