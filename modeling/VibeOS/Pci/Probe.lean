import VibeOS.Lib.Bits
import VibeOS.Pci.Config

/-!
What the kernel learns of a function from its registers. A configuration space is any `CfgIo` whose
base address registers store their writable bits and keep the others; a probe of such a register
leaves every register as it was and finds which bits are writable, from which its size follows.
-/
namespace VibeOS.Pci
open VibeOS.Lib

abbrev Space : Type := Bdf → Nat → BitVec 32

/-- What is written to a register that stores the writable bits only. -/
def stored (writable old v : BitVec 32) : BitVec 32 :=
  (v &&& writable) ||| (old &&& ~~~writable)

def barOff (i : Nat) : Nat := cfgBar0 + i * 4

/-- A configuration space: the value of every dword, which reads report and do not change, and the
writable bits of the base address registers. -/
structure Registers {σ : Type} (cfg : CfgIo σ) where
  value : σ → Space
  writable : Bdf → Nat → BitVec 32
  read : ∀ s b o, (cfg.read32 b o s).1 = value s b o
  read_value : ∀ s b o, value (cfg.read32 b o s).2 = value s
  write_value : ∀ s b i v, i < 6 → ∀ b' o', value (cfg.write32 b (barOff i) v s).2 b' o' =
    if b' = b ∧ o' = barOff i then stored (writable b i) (value s b (barOff i)) v
    else value s b' o'

namespace Space

def byte (V : Space) (b : Bdf) (offset : Nat) : BitVec 8 :=
  ((V b (offset &&& 0xFFFC) >>> byteShift offset) &&& 0xFF).setWidth 8

def word (V : Space) (b : Bdf) (offset : Nat) : BitVec 16 :=
  ((V b (offset &&& 0xFFFC) >>> byteShift offset) &&& 0xFFFF).setWidth 16

def present (V : Space) (b : Bdf) : Bool :=
  V.word b cfgVendor ≠ invalidVendor ∧ V.word b cfgVendor ≠ 0

def header (V : Space) (b : Bdf) : BitVec 8 :=
  V.byte b cfgHeaderType

def secondary (V : Space) (b : Bdf) : BitVec 8 :=
  V.byte b cfgSecBus

end Space

/-- What kind of register a value is of. -/
def kindOf (raw : BitVec 32) : BarKind :=
  if raw.getLsbD 0 then .io
  else if raw.getLsbD 1 = false ∧ raw.getLsbD 2 then .mem64
  else .mem32

section
variable {σ α β : Type} {cfg : CfgIo σ} (regs : Registers cfg)

/-- From any state the program returns what `P` says of the registers, and leaves them alone. -/
def Observes (m : StateM σ α) (P : Space → α → Prop) : Prop :=
  ∀ s, P (regs.value s) (m s).1 ∧ regs.value (m s).2 = regs.value s

variable {regs} {m : StateM σ α} {P P' : Space → α → Prop} {Q : Space → β → Prop} {b : Bdf}

theorem Observes.pure {a : α} (h : ∀ V, P V a) : Observes regs (pure a) P :=
  fun _ => ⟨h _, rfl⟩

theorem Observes.bind {k : α → StateM σ β} (h : Observes regs m P)
    (hk : ∀ a, Observes regs (k a) fun V c => P V a → Q V c) : Observes regs (m >>= k) Q := by
  intro s
  obtain ⟨hp, hv⟩ := h s
  obtain ⟨hq, hv'⟩ := hk (m s).1 (m s).2
  rw [hv] at hq
  exact ⟨hq hp, hv'.trans hv⟩

theorem Observes.mono (h : Observes regs m P) (hP : ∀ V a, P V a → P' V a) : Observes regs m P' :=
  fun s => ⟨hP _ _ (h s).1, (h s).2⟩

def Registers.barAt (regs : Registers cfg) (V : Space) (b : Bdf) (i : Nat) : Bar × Bool :=
  let readback i := stored (regs.writable b i) (V b (barOff i)) 0xFFFFFFFF
  if kindOf (V b (barOff i)) = .mem64 ∧ i + 1 < 6 then
    decodeBar (V b (barOff i)) (V b (barOff (i + 1))) (readback i) (readback (i + 1))
  else decodeBar (V b (barOff i)) 0 (readback i) 0

theorem and_one_ne_zero (raw : BitVec 32) : raw &&& 1 ≠ 0 ↔ raw.getLsbD 0 = true := by
  rw [ne_eq, ← BitVec.toNat_inj, BitVec.toNat_and, BitVec.getLsbD, Nat.testBit_zero]
  rw [show (1 : BitVec 32).toNat = 1 from rfl, show (0 : BitVec 32).toNat = 0 from rfl,
    Nat.and_one_is_mod, decide_eq_true_eq]
  omega

theorem memory_type_eq_two (raw : BitVec 32) :
    (raw >>> 1) &&& 0x3 = 0x2 ↔ raw.getLsbD 1 = false ∧ raw.getLsbD 2 = true := by
  rw [← BitVec.toNat_inj, BitVec.toNat_and, BitVec.toNat_ushiftRight, BitVec.getLsbD,
    BitVec.getLsbD, Nat.testBit_eq_decide_div_mod_eq, Nat.testBit_eq_decide_div_mod_eq]
  rw [show (0x3 : BitVec 32).toNat = 2 ^ 2 - 1 from rfl, Nat.and_two_pow_sub_one_eq_mod,
    show (0x2 : BitVec 32).toNat = 2 from rfl, decide_eq_true_eq, decide_eq_false_iff_not,
    Nat.shiftRight_eq_div_pow]
  omega

theorem kindOf_eq_mem64 (raw : BitVec 32) :
    kindOf raw = .mem64 ↔ raw &&& 1 = 0 ∧ (raw >>> 1) &&& 0x3 = 0x2 := by
  have hio := and_one_ne_zero raw
  rw [memory_type_eq_two]
  unfold kindOf
  split_ifs with h0 h1
  · exact ⟨fun h => (nomatch h), fun h => absurd h.1 (hio.mpr h0)⟩
  · exact ⟨fun _ => ⟨not_not.mp (mt hio.mp h0), h1⟩, fun _ => rfl⟩
  · exact ⟨fun h => (nomatch h), fun h => absurd h.2 h1⟩

/-- The next register after `i` that is not part of it. -/
def nextSlot (V : Space) (b : Bdf) (i : Nat) : Nat :=
  if kindOf (V b (barOff i)) = .mem64 then i + 2 else i + 1

/-- The registers from `i` on that begin one, the upper halves of wide ones left out. -/
inductive Begins (V : Space) (b : Bdf) (i : Nat) : Nat → Prop
  | start : Begins V b i i
  | next {j : Nat} : Begins V b i j → Begins V b i (nextSlot V b j)

theorem Begins.le {V : Space} {i j : Nat} (h : Begins V b i j) : i ≤ j := by
  induction h with
  | start => exact Nat.le_refl i
  | next _ ih =>
    unfold nextSlot
    split <;> omega

/-- The function as `read_function` reports it. -/
structure Reports (regs : Registers cfg) (V : Space) (b : Bdf) (info : FuncInfo) : Prop where
  bdf : info.bdf = b
  header : info.header = V.header b
  secondary : isBridge (V.header b) → info.secondaryBus = V.secondary b
  bars : ∀ j < barSlots (V.header b), Begins V b 0 j → info.bars[j]? = some (regs.barAt V b j).1

end

section
variable {raw mask : BitVec 32} {flags : BitVec 64} {f k : Nat}

theorem sizeFromMask_narrow (hflags : ∀ j, flags.getLsbD j = decide (j < f)) (hf : f ≤ k)
    (hk : k < 32) (hm : ∀ j, f ≤ j → j < 32 → mask.getLsbD j = decide (k ≤ j)) :
    (sizeFromMask (mask.setWidth 64) flags false).toNat = 2 ^ k := by
  have hbits (j : Nat) (hj : j < 32) :
      ((mask.setWidth 64 &&& ~~~flags).setWidth 32).getLsbD j = decide (k ≤ j) := by
    have hj' : j < 64 := by omega
    simp only [BitVec.getLsbD_setWidth, BitVec.getLsbD_and, BitVec.getLsbD_not, hflags, hj, hj',
      decide_true, Bool.true_and]
    by_cases hlow : j < f
    · simp [hlow, show ¬ k ≤ j by omega]
    · simp [hlow, hm j (by omega) hj]
  have hne : mask.setWidth 64 &&& ~~~flags ≠ 0 := by
    intro hzero
    have hbit := hbits k hk
    rw [hzero] at hbit
    simp at hbit
  unfold sizeFromMask
  dsimp only
  rw [if_neg hne, if_neg Bool.false_ne_true, BitVec.toNat_setWidth, toNat_not_add_one hk hbits]
  exact Nat.mod_eq_of_lt (Nat.pow_lt_pow_right (by decide) (by omega))

theorem sizeFromMask_wide {mask : BitVec 64} (hflags : ∀ j, flags.getLsbD j = decide (j < f))
    (hf : f ≤ k) (hk : k < 64) (hm : ∀ j, f ≤ j → j < 64 → mask.getLsbD j = decide (k ≤ j)) :
    (sizeFromMask mask flags true).toNat = 2 ^ k := by
  have hbits (j : Nat) (hj : j < 64) : (mask &&& ~~~flags).getLsbD j = decide (k ≤ j) := by
    simp only [BitVec.getLsbD_and, BitVec.getLsbD_not, hflags, hj, decide_true, Bool.true_and]
    by_cases hlow : j < f
    · simp [hlow, show ¬ k ≤ j by omega]
    · simp [hlow, hm j (by omega) hj]
  have hne : mask &&& ~~~flags ≠ 0 := by
    intro hzero
    have hbit := hbits k hk
    rw [hzero] at hbit
    simp at hbit
  unfold sizeFromMask
  dsimp only
  rw [if_neg hne, if_pos rfl, toNat_not_add_one hk hbits]

/-- The bits of a register that are flags and not address. -/
def flagCount : BarKind → Nat
  | .io => 2
  | _ => 4

def addressWidth : BarKind → Nat
  | .mem64 => 64
  | _ => 32

/-- A register as one word, with the next one above it if it is wide. -/
def registerBits (kind : BarKind) (lo hi : BitVec 32) : BitVec 64 :=
  if kind = .mem64 then (hi.setWidth 64 <<< 32) ||| lo.setWidth 64 else lo.setWidth 64

def programmed (kind : BarKind) (lo hi : BitVec 32) : BitVec 64 :=
  registerBits kind lo hi &&& ~~~(if kind = .io then 0x3 else 0xF)

end

section
variable {σ : Type} {cfg : CfgIo σ} {regs : Registers cfg} {V : Space} {b : Bdf} {i k : Nat}
  {kind : BarKind}

/-- A register of size `2 ^ k`: the address bits below are wired to zero, and those above are all
writable. A wide one is not in the last slot. -/
structure Sized (regs : Registers cfg) (V : Space) (b : Bdf) (i : Nat) (kind : BarKind) (k : Nat) :
    Prop where
  kind_eq : kindOf (V b (barOff i)) = kind
  slot : kind = .mem64 → i + 1 < 6
  flags : flagCount kind ≤ k
  width : k < addressWidth kind
  below : ∀ j, flagCount kind ≤ j → j < k →
    (registerBits kind (V b (barOff i)) (V b (barOff (i + 1)))).getLsbD j = false ∧
      (registerBits kind (regs.writable b i) (regs.writable b (i + 1))).getLsbD j = false
  above : ∀ j, k ≤ j → j < addressWidth kind →
    (registerBits kind (regs.writable b i) (regs.writable b (i + 1))).getLsbD j = true

theorem getLsbD_stored_ones (writable old : BitVec 32) {j : Nat} (hj : j < 32) :
    (stored writable old 0xFFFFFFFF).getLsbD j = (writable.getLsbD j || old.getLsbD j) := by
  have hones : (0xFFFFFFFF : BitVec 32).getLsbD j = true := by
    rw [show (0xFFFFFFFF : BitVec 32) = BitVec.allOnes 32 from rfl, BitVec.getLsbD_allOnes,
      decide_eq_true hj]
  simp only [stored, BitVec.getLsbD_or, BitVec.getLsbD_and, BitVec.getLsbD_not, hones, hj]
  cases writable.getLsbD j <;> simp

theorem getLsbD_registerBits (kind : BarKind) (lo hi : BitVec 32) (j : Nat) :
    (registerBits kind lo hi).getLsbD j =
      if j < 32 then lo.getLsbD j
      else if kind = .mem64 ∧ j < 64 then hi.getLsbD (j - 32) else false := by
  unfold registerBits
  by_cases hj : j < 32
  · have hj' : j < 64 := by omega
    rw [if_pos hj]
    split_ifs <;> simp [hj, hj']
  · rw [if_neg hj]
    have hlo := BitVec.getLsbD_of_ge lo j (by omega)
    split_ifs with hkind hin hin
    · simp [hj, hin.2, hlo]
    · simp [hlo, show ¬ j < 64 from fun h => hin ⟨hkind, h⟩]
    · exact absurd hin.1 hkind
    · simp [hlo]

theorem getLsbD_registerBits_ones (kind : BarKind) (lo lo' hi hi' : BitVec 32) (j : Nat) :
    (registerBits kind (stored lo lo' 0xFFFFFFFF) (stored hi hi' 0xFFFFFFFF)).getLsbD j =
      ((registerBits kind lo hi).getLsbD j || (registerBits kind lo' hi').getLsbD j) := by
  rw [getLsbD_registerBits, getLsbD_registerBits, getLsbD_registerBits]
  split_ifs with hlo hhi
  · exact getLsbD_stored_ones lo lo' hlo
  · exact getLsbD_stored_ones hi hi' (by omega)
  · rfl

theorem Sized.readback (h : Sized regs V b i kind k) (j : Nat) (hlow : flagCount kind ≤ j)
    (hj : j < addressWidth kind) :
    (registerBits kind (stored (regs.writable b i) (V b (barOff i)) 0xFFFFFFFF)
      (stored (regs.writable b (i + 1)) (V b (barOff (i + 1))) 0xFFFFFFFF)).getLsbD j =
      decide (k ≤ j) := by
  rw [getLsbD_registerBits_ones]
  by_cases hk : k ≤ j
  · rw [h.above j hk hj, decide_eq_true hk, Bool.true_or]
  · obtain ⟨hraw, hw⟩ := h.below j hlow (by omega)
    rw [hraw, hw, decide_eq_false hk, Bool.or_false]

theorem getLsbD_flags {w : Nat} (f : Nat) (hf : f < w) (j : Nat) :
    (BitVec.ofNat w (2 ^ f - 1)).getLsbD j = decide (j < f) := by
  rw [BitVec.getLsbD_ofNat, Nat.testBit_two_pow_sub_one]
  by_cases hj : j < f
  · simp [hj, show j < w by omega]
  · simp [hj]

theorem decodeBar_io {raw0 raw1 mask0 mask1 : BitVec 32} (hkind : kindOf raw0 = .io)
    (hsize : sizeFromMask (mask0.setWidth 64) 0x3 false ≠ 0) :
    (decodeBar raw0 raw1 mask0 mask1).1 =
      ⟨.io, false, (raw0 &&& 0xFFFFFFFC).setWidth 64,
        sizeFromMask (mask0.setWidth 64) 0x3 false⟩ := by
  have hbit : raw0 &&& 1 ≠ 0 := by
    rw [and_one_ne_zero]
    unfold kindOf at hkind
    split_ifs at hkind with hbit
    exact hbit
  unfold decodeBar
  rw [if_neg fun hzero => hsize (by rw [hzero.2.1]; rfl), if_pos hbit]
  exact if_neg hsize

theorem decodeBar_mem {raw0 raw1 mask0 mask1 : BitVec 32} (hkind : kindOf raw0 ≠ .io)
    (hmask : mask0 ≠ 0 ∨ raw0 ≠ 0) : decodeBar raw0 raw1 mask0 mask1 =
      let prefetchable : Bool := raw0 &&& (1#32 <<< 3) ≠ 0
      if kindOf raw0 = .mem64 then
        let addr := (raw1.setWidth 64 <<< 32) ||| (raw0.setWidth 64 &&& ~~~0xF)
        let size := sizeFromMask ((mask1.setWidth 64 <<< 32) ||| mask0.setWidth 64) 0xF true
        (if size = 0 ∧ addr = 0 then .NONE else ⟨.mem64, prefetchable, addr, size⟩, true)
      else
        let addr := (raw0 &&& ~~~0xF).setWidth 64
        let size := sizeFromMask (mask0.setWidth 64) 0xF false
        (if size = 0 ∧ addr = 0 then .NONE else ⟨.mem32, prefetchable, addr, size⟩, false) := by
  have hbit : ¬ raw0 &&& 1 ≠ 0 := by
    rw [and_one_ne_zero]
    intro hbit
    exact hkind (if_pos hbit)
  have hwide : kindOf raw0 = .mem64 ↔ (raw0 >>> 1) &&& 0x3 = 0x2 := by
    rw [kindOf_eq_mem64]
    exact ⟨fun h => h.2, fun h => ⟨not_not.mp hbit, h⟩⟩
  unfold decodeBar
  rw [if_neg fun hzero => hmask.elim (· hzero.2.1) (· hzero.1), if_neg hbit]
  dsimp only
  by_cases h : kindOf raw0 = .mem64
  · rw [if_pos h, if_pos (hwide.mp h)]
  · rw [if_neg h, if_neg (mt hwide.mpr h)]

theorem setWidth_clear (lo : BitVec 32) {n : Nat} (hn : n < 32) :
    lo.setWidth 64 &&& ~~~BitVec.ofNat 64 (2 ^ n - 1) =
      (lo &&& ~~~BitVec.ofNat 32 (2 ^ n - 1)).setWidth 64 := by
  refine BitVec.eq_of_getLsbD_eq fun j hj => ?_
  have hwide := getLsbD_flags (w := 64) n (by omega) j
  have hnarrow := getLsbD_flags (w := 32) n hn j
  simp only [BitVec.getLsbD_and, BitVec.getLsbD_not, BitVec.getLsbD_setWidth, hwide, hnarrow, hj]
  by_cases hlo : j < 32
  · simp [hlo]
  · simp [hlo, BitVec.getLsbD_of_ge lo j (by omega)]

theorem programmed_io (lo hi : BitVec 32) :
    programmed .io lo hi = (lo &&& 0xFFFFFFFC).setWidth 64 := by
  rw [programmed, if_pos rfl]
  exact setWidth_clear lo (n := 2) (by decide)

theorem programmed_mem32 (lo hi : BitVec 32) :
    programmed .mem32 lo hi = (lo &&& ~~~0xF).setWidth 64 := by
  rw [programmed, if_neg (by decide)]
  exact setWidth_clear lo (n := 4) (by decide)

theorem programmed_mem64 (lo hi : BitVec 32) :
    programmed .mem64 lo hi = (hi.setWidth 64 <<< 32) ||| (lo.setWidth 64 &&& ~~~0xF) := by
  refine BitVec.eq_of_getLsbD_eq fun j hj => ?_
  have hwide := getLsbD_flags (w := 64) 4 (by decide) j
  rw [programmed, if_neg (by decide), show (0xF : BitVec 64) = BitVec.ofNat 64 (2 ^ 4 - 1) from rfl]
  simp only [BitVec.getLsbD_and, BitVec.getLsbD_or, BitVec.getLsbD_not, BitVec.getLsbD_shiftLeft,
    hwide, hj, registerBits, if_true]
  by_cases hlow : j < 4
  · simp [hlow, show j < 32 by omega]
  · simp [hlow]

theorem Sized.barAt (h : Sized regs V b i kind k) :
    (regs.barAt V b i).1.kind = kind ∧
      (regs.barAt V b i).1.addr = programmed kind (V b (barOff i)) (V b (barOff (i + 1))) ∧
      (regs.barAt V b i).1.size.toNat = 2 ^ k := by
  have hpos : 2 ^ k ≠ 0 := (Nat.two_pow_pos k).ne'
  have hnarrow (hk : kind ≠ .mem64) (j : Nat) (hlow : flagCount kind ≤ j) (hj : j < 32) :
      (stored (regs.writable b i) (V b (barOff i)) 0xFFFFFFFF).getLsbD j = decide (k ≤ j) := by
    have hread :=
      h.readback j hlow (Nat.lt_of_lt_of_le hj (by unfold addressWidth; split <;> decide))
    rwa [getLsbD_registerBits, if_pos hj] at hread
  unfold Registers.barAt
  dsimp only
  cases kind with
  | none =>
    have hnone := h.kind_eq
    unfold kindOf at hnone
    split_ifs at hnone
  | io =>
    have hsize := sizeFromMask_narrow (getLsbD_flags 2 (by decide)) h.flags h.width
      (hnarrow (by decide))
    rw [if_neg (by rw [h.kind_eq]; exact fun hwide => nomatch hwide.1),
      decodeBar_io h.kind_eq fun hzero => hpos (by rw [← hsize]; exact congrArg BitVec.toNat hzero)]
    exact ⟨rfl, (programmed_io _ _).symm, hsize⟩
  | mem32 =>
    have hsize := sizeFromMask_narrow (getLsbD_flags 4 (by decide)) h.flags h.width
      (hnarrow (by decide))
    have hmask : stored (regs.writable b i) (V b (barOff i)) 0xFFFFFFFF ≠ 0 := by
      intro hzero
      rw [hzero] at hsize
      exact hpos hsize.symm
    rw [if_neg (by rw [h.kind_eq]; exact fun hwide => nomatch hwide.1),
      decodeBar_mem (by rw [h.kind_eq]; decide) (.inl hmask)]
    dsimp only
    rw [if_neg (by rw [h.kind_eq]; decide), if_neg (fun hzero => hpos (by
      rw [← hsize]
      exact congrArg BitVec.toNat hzero.1))]
    exact ⟨rfl, (programmed_mem32 _ _).symm, hsize⟩
  | mem64 =>
    have hsize := sizeFromMask_wide (getLsbD_flags 4 (by decide)) h.flags h.width h.readback
    have hraw : V b (barOff i) ≠ 0 := by
      intro hzero
      have hkind := h.kind_eq
      rw [hzero] at hkind
      exact absurd hkind (by decide)
    rw [if_pos ⟨h.kind_eq, h.slot rfl⟩, decodeBar_mem (by rw [h.kind_eq]; decide) (.inr hraw)]
    dsimp only
    rw [if_pos h.kind_eq, if_neg (fun hzero => hpos (by
      rw [← hsize]
      exact congrArg BitVec.toNat hzero.1))]
    exact ⟨rfl, (programmed_mem64 _ _).symm, hsize⟩

end

end VibeOS.Pci
