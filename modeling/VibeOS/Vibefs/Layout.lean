import VibeOS.Block.Crc32
import VibeOS.Block.PartRoundTrip
import VibeOS.Block.Request
import VibeOS.Lib.Bytes

/-!
The checksums of vibefs's metadata blocks, and what they detect. A change that fits 32 consecutive
bits is seen by the checksum of any byte string, and so by the header of a vibefs block outside its
checksum field and by the entry checksum of a GPT header.
-/
namespace VibeOS.Vibefs
open Lib
open VibeOS.Block (crc32Ieee crc32Ieee_lt crc32Ieee_ne_of_burst ShortBurst bitsOf getElem?_bitsOf
  GptHeaderInfo packGptHeader entriesCrc r32 StartsWith get_fillFront)

abbrev Error := Fs.FsError

abbrev Block : Type :=
  Buf 4096

/-- The checksum of a block whose checksum field counts as zero. -/
def crcBlock (b : Block) (off : Nat) : Nat :=
  crc32Ieee (List.ofFn fun i : Fin 4096 => if off ≤ i.val ∧ i.val < off + 4 then 0 else b i)

def setCrc (b : Block) (off : Nat) : Block :=
  let b := b.putLE 4 off 0
  b.putLE 4 off (crc32Ieee (List.ofFn b))

def checkCrc (b : Block) (off : Nat) : Except Error Unit :=
  if b.getLE 4 off ≠ crcBlock b off then .error .corrupt else .ok ()

section
variable {b c : Block} {off : Nat}

/-- A block with its checksum field cleared, as it is checked. -/
def cleared (b : Block) (off : Nat) : Block :=
  fun i => if off ≤ i.val ∧ i.val < off + 4 then 0 else b i

theorem get_cleared (b : Block) (off i : Nat) :
    (cleared b off).get i = if off ≤ i ∧ i < off + 4 then 0 else b.get i := by
  unfold Buf.get cleared
  split
  · rfl
  · split <;> rfl

theorem putLE_zero_eq_cleared (b : Block) (off : Nat) : b.putLE 4 off 0 = cleared b off := by
  apply Buf.ext_get
  intro i hi
  rw [get_cleared, Buf.putLE, leBytes_zero]
  split
  · rename_i hin
    rw [Buf.get_put hin.1 (by simp; omega) hi, List.getElem_replicate]
  · rename_i hout
    exact Buf.get_put_ne (by rw [List.length_replicate]; omega)

theorem cleared_setCrc (b : Block) (off : Nat) : cleared (setCrc b off) off = cleared b off := by
  apply Buf.ext_get
  intro i hi
  rw [get_cleared, get_cleared]
  split
  · rfl
  · rename_i hout
    rw [setCrc, Buf.putLE, Buf.get_put_ne (by rw [length_leBytes]; omega), Buf.putLE,
      Buf.get_put_ne (by rw [length_leBytes]; omega)]

theorem getLE_setCrc (h : off + 4 ≤ 4096) :
    (setCrc b off).getLE 4 off = crc32Ieee (List.ofFn (cleared b off)) := by
  rw [setCrc, Buf.getLE_putLE h (crc32Ieee_lt _), putLE_zero_eq_cleared]

theorem getElem?_bitsOf_ofFn (b : Block) (i : Nat) : (bitsOf (List.ofFn b))[i]? =
    if i / 8 < 4096 then some ((b.get (i / 8)).toBitVec.getLsbD (i % 8)) else none := by
  rw [getElem?_bitsOf, List.getElem?_ofFn]
  unfold Buf.get
  split <;> rfl

theorem ne_of_cleared_ne {i : Nat}
    (h : (bitsOf (List.ofFn (cleared b off)))[i]? ≠ (bitsOf (List.ofFn (cleared c off)))[i]?) :
    (bitsOf (List.ofFn b))[i]? ≠ (bitsOf (List.ofFn c))[i]? := by
  simp only [getElem?_bitsOf_ofFn, get_cleared] at h ⊢
  by_cases hin : off ≤ i / 8 ∧ i / 8 < off + 4
  · rw [if_pos hin, if_pos hin] at h
    exact absurd rfl h
  · rwa [if_neg hin, if_neg hin] at h

theorem checkCrc_burst (h : off + 4 ≤ 4096) (hne : c ≠ setCrc b off)
    (hfield : ∀ i, off ≤ i → i < off + 4 → c.get i = (setCrc b off).get i)
    (hburst : ShortBurst (List.ofFn (setCrc b off)) (List.ofFn c)) :
    checkCrc c off = .error .corrupt := by
  have hstored : c.getLE 4 off = crc32Ieee (List.ofFn (cleared (setCrc b off) off)) := by
    rw [cleared_setCrc, ← getLE_setCrc h]
    refine congrArg ofLE (Buf.slice_congr fun i hi => hfield _ (by omega) (by omega))
  have hne' : List.ofFn (cleared (setCrc b off) off) ≠ List.ofFn (cleared c off) := by
    intro heq
    have hclear := List.ofFn_injective heq
    refine hne (Buf.ext_get fun i hi => ?_)
    by_cases hin : off ≤ i ∧ i < off + 4
    · exact hfield i hin.1 hin.2
    · have := congrArg (fun x : Block => x.get i) hclear
      simpa only [get_cleared, if_neg hin] using this.symm
  have hshort : ShortBurst (List.ofFn (cleared (setCrc b off) off))
      (List.ofFn (cleared c off)) := by
    obtain ⟨p, hp⟩ := hburst
    exact ⟨p, fun i hi => hp i (ne_of_cleared_ne hi)⟩
  have hcrc : c.getLE 4 off ≠ crcBlock c off := by
    rw [hstored]
    exact crc32Ieee_ne_of_burst (by rw [List.length_ofFn, List.length_ofFn]) hne' hshort
  exact if_pos hcrc

end

/-- A change that fits 32 consecutive bits changes the checksum of a byte string; so `check_crc`
fails on a finished block changed that way outside its checksum field, and the checksum that a GPT
header stores is not that of an entry array changed that way. -/
theorem checksums_catch_bursts :
    (∀ a b : List UInt8, a.length = b.length → a ≠ b → ShortBurst a b →
      crc32Ieee a ≠ crc32Ieee b) ∧
    (∀ (b c : Block) (off : Nat), off + 4 ≤ 4096 → c ≠ setCrc b off →
      (∀ i, off ≤ i → i < off + 4 → c.get i = (setCrc b off).get i) →
      ShortBurst (List.ofFn (setCrc b off)) (List.ofFn c) → checkCrc c off = .error .corrupt) ∧
    ∀ (n : Nat) (buf : Buf n) (h : GptHeaderInfo) (entries changed : List UInt8), 512 ≤ n →
      h.entriesCrc = entriesCrc entries → entries.length = changed.length → entries ≠ changed →
      ShortBurst entries changed →
      r32 (packGptHeader buf h) 88 = some (entriesCrc entries) ∧
        entriesCrc changed ≠ entriesCrc entries := by
  refine ⟨fun a b => crc32Ieee_ne_of_burst, fun b c off => checkCrc_burst, ?_⟩
  intro n buf h entries changed hn hcrc hlen hne hburst
  refine ⟨?_, (crc32Ieee_ne_of_burst hlen hne hburst).symm⟩
  have hstarts : StartsWith (packGptHeader buf h) h.packed :=
    ⟨hn, fun i hi => by rw [GptHeaderInfo.packGptHeader_eq, get_fillFront hn hi]⟩
  rw [hstarts.r32 (by decide), ← hcrc,
    GptHeaderInfo.getLE_packed_entriesCrc (hcrc ▸ crc32Ieee_lt entries)]

/-- One flipped bit in each kind of checksummed bytes. -/
theorem checksums_catch_bursts_bit :
    crc32Ieee [0] ≠ crc32Ieee [1] ∧
      checkCrc (Buf.put (setCrc .zero 16) 0 [1]) 16 = .error .corrupt ∧
      entriesCrc [1] ≠ entriesCrc [0] := by
  have hbit : ShortBurst [0] [1] := ⟨0, fun i hi => by
    rcases Nat.lt_or_ge i 32 with h | h
    · exact ⟨Nat.zero_le _, by omega⟩
    · rw [getElem?_bitsOf, getElem?_bitsOf, List.getElem?_eq_none (by simp; omega),
        List.getElem?_eq_none (by simp; omega)] at hi
      exact absurd rfl hi⟩
  have hother : ∀ i, 1 ≤ i → (Buf.put (setCrc .zero 16) 0 [1]).get i = (setCrc .zero 16).get i :=
    fun i hi => Buf.get_put_ne (.inr hi)
  refine ⟨checksums_catch_bursts.1 [0] [1] rfl (by decide) hbit, ?_, ?_⟩
  · refine checksums_catch_bursts.2.1 .zero _ 16 (by decide) ?_ ?_ ?_
    · intro heq
      have hone : (Buf.put (setCrc .zero 16) 0 [1]).get 0 = 1 :=
        Buf.get_put (Nat.le_refl 0) (by decide) (by decide)
      have hzero : (setCrc .zero 16).get 0 = 0 := by
        rw [setCrc, Buf.putLE, Buf.get_put_ne (.inl (by decide)), Buf.putLE,
          Buf.get_put_ne (.inl (by decide)), Buf.get_zero]
      rw [heq, hzero] at hone
      exact absurd hone (by decide)
    · exact fun i h₁ h₂ => hother i (by omega)
    · refine ⟨0, fun i hi => ⟨Nat.zero_le _, by_contra fun hge => hi ?_⟩⟩
      rw [getElem?_bitsOf_ofFn, getElem?_bitsOf_ofFn, hother _ (by omega)]
  · exact (checksums_catch_bursts.2.2 512 .zero ⟨0, 0, 0, 0, .zero, 0, 0, 0, entriesCrc [0]⟩ [0] [1]
      (Nat.le_refl _) rfl rfl (by decide) hbit).2

end VibeOS.Vibefs
