import VibeOS.Lib.Bytes
import VibeOS.Lib.Crc

/-!
The IEEE 802.3 CRC-32, a byte at a time with eight shifts for each. The bits of the input, bytes in
order and the lowest bit of each first, go through the shift register one after the other, so a
change that fits 32 consecutive bits changes the checksum.
-/
namespace VibeOS.Block
open Lib

def crcBit (crc : UInt32) : UInt32 :=
  if crc &&& 1 ≠ 0 then (crc >>> 1) ^^^ 0xEDB88320 else crc >>> 1

def crcByte (crc : UInt32) (byte : UInt8) : UInt32 :=
  Nat.repeat crcBit 8 (crc ^^^ byte.toUInt32)

def crc32Ieee (data : List UInt8) : Nat :=
  (~~~ data.foldl crcByte 0xFFFFFFFF).toNat

def byteBits (b : UInt8) : List Bool :=
  (List.range 8).map b.toBitVec.getLsbD

/-- The bits of a byte string: bytes in order, the least significant bit first. -/
def bitsOf (data : List UInt8) : List Bool :=
  data.flatMap byteBits

/-- All bits in which two byte strings differ lie within 32 consecutive ones. -/
def ShortBurst (a b : List UInt8) : Prop :=
  ∃ p, ∀ i, (bitsOf a)[i]? ≠ (bitsOf b)[i]? → p ≤ i ∧ i < p + 32

theorem crc32Ieee_lt (data : List UInt8) : crc32Ieee data < 2 ^ 32 :=
  UInt32.toNat_lt _

@[simp] theorem length_byteBits (b : UInt8) : (byteBits b).length = 8 := by
  simp [byteBits]

theorem bitsOf_cons (b : UInt8) (data : List UInt8) :
    bitsOf (b :: data) = byteBits b ++ bitsOf data :=
  rfl

theorem length_bitsOf (data : List UInt8) : (bitsOf data).length = 8 * data.length := by
  induction data with
  | nil => rfl
  | cons b data ih =>
    rw [bitsOf_cons, List.length_append, length_byteBits, ih, List.length_cons]
    omega

theorem getElem?_bitsOf (data : List UInt8) (i : Nat) :
    (bitsOf data)[i]? = (data[i / 8]?).map fun b => b.toBitVec.getLsbD (i % 8) := by
  have hbit : ∀ b, (byteBits b)[i % 8]? = some (b.toBitVec.getLsbD (i % 8)) := by
    intro b
    simp [byteBits, Nat.mod_lt]
  rw [bitsOf, getElem?_flatMap_const length_byteBits]
  cases data[i / 8]? with
  | none => rfl
  | some b => exact hbit b

theorem bitsOf_injective : Function.Injective bitsOf := by
  intro a b h
  have hlen : a.length = b.length := by
    have := congrArg List.length h
    rw [length_bitsOf, length_bitsOf] at this
    omega
  refine List.ext_getElem hlen fun i hi hi' => ?_
  apply UInt8.toBitVec_inj.mp
  apply BitVec.eq_of_getLsbD_eq
  intro j hj
  have := congrArg (fun l => l[8 * i + j]?) h
  simp only [getElem?_bitsOf] at this
  rw [show (8 * i + j) / 8 = i by omega, show (8 * i + j) % 8 = j by omega,
    List.getElem?_eq_getElem hi, List.getElem?_eq_getElem hi'] at this
  simpa using this

theorem crcBit_toBitVec (c : UInt32) : (crcBit c).toBitVec = shiftReg 0xEDB88320#32 c.toBitVec := by
  have hlow : (c &&& 1 ≠ 0) = (c.toBitVec.getLsbD 0 = true) := by
    have hbits : (c &&& 1).toBitVec =
        BitVec.setWidth 32 (BitVec.ofBool (c.toBitVec.getLsbD 0)) := by
      rw [UInt32.toBitVec_and]
      exact BitVec.and_one_eq_setWidth_ofBool_getLsbD
    rw [← UInt32.toBitVec_inj.ne, hbits]
    cases c.toBitVec.getLsbD 0 <;> simp
  unfold crcBit shiftReg
  simp only [hlow]
  split <;> simp

theorem crcByte_toBitVec (c : UInt32) (b : UInt8) :
    (crcByte c b).toBitVec = absorb 0xEDB88320#32 c.toBitVec (byteBits b) := by
  have hword : wordOf 32 (byteBits b) = b.toUInt32.toBitVec := by
    apply BitVec.eq_of_getLsbD_eq
    intro i hi
    rw [getLsbD_wordOf, UInt8.toBitVec_toUInt32, BitVec.getLsbD_setWidth]
    by_cases h8 : i < 8
    · simp [byteBits, h8]
    · simp [byteBits, h8, BitVec.getLsbD_of_ge b.toBitVec i (by omega)]
  have hrepeat : ∀ (n : Nat) (x : UInt32),
      (Nat.repeat crcBit n x).toBitVec = (shiftReg 0xEDB88320#32)^[n] x.toBitVec := by
    intro n
    induction n with
    | zero => exact fun x => rfl
    | succ n ih =>
      intro x
      rw [Nat.repeat, crcBit_toBitVec, ih, Function.iterate_succ_apply']
  rw [absorb_eq_iterate _ _ (by simp), length_byteBits, hword, crcByte, hrepeat,
    UInt32.toBitVec_xor]

theorem foldl_crcByte (data : List UInt8) (c : UInt32) :
    (data.foldl crcByte c).toBitVec = absorb 0xEDB88320#32 c.toBitVec (bitsOf data) := by
  induction data generalizing c with
  | nil => rfl
  | cons b data ih =>
    rw [List.foldl_cons, ih, crcByte_toBitVec, bitsOf_cons, absorb_append]

theorem crc32Ieee_ne_of_burst {a b : List UInt8} (hlen : a.length = b.length) (hne : a ≠ b)
    (h : ShortBurst a b) : crc32Ieee a ≠ crc32Ieee b := by
  obtain ⟨p, hp⟩ := h
  intro heq
  have hlen' : (bitsOf a).length = (bitsOf b).length := by
    rw [length_bitsOf, length_bitsOf, hlen]
  have hpoly : (0xEDB88320#32).msb = true := by decide
  refine absorb_ne_of_burst hpoly hlen' (bitsOf_injective.ne hne) hp
    (0xFFFFFFFF : UInt32).toBitVec ?_
  rw [← foldl_crcByte, ← foldl_crcByte]
  have hnot := congrArg (fun x => ~~~ x) (UInt32.toNat_inj.mp heq)
  simp only [UInt32.not_not] at hnot
  rw [hnot]

end VibeOS.Block
