import Mathlib.Data.Fintype.Card
import VibeOS.Lib.Search
import VibeOS.Pci.Probe

/-!
The scan of a bus finds the functions behind it. It is a search that marks the buses it enters, so
bridges that lead back to a bus end it there; the table holds the first functions of what the
search finds, which are all of them if there is room.
-/
namespace VibeOS.Pci
open VibeOS.Lib

section
variable (V : Space)

/-- A function that is found when its bus is scanned. -/
structure Found (b : Bdf) : Prop where
  segment : b.segment = 0
  device : b.device < 32
  function : b.function < 8
  first : V.present (.new b.bus b.device 0)
  present : V.present b
  multi : b.function = 0 ∨ V.header (.new b.bus b.device 0) &&& headerMulti ≠ 0

/-- The bus that a function makes the scan enter. -/
def behind (b : Bdf) : Option (BitVec 8) :=
  if isBridge (V.header b) ∧ V.secondary b ≠ 0 ∧ V.secondary b ≠ b.bus then some (V.secondary b)
  else none

variable {V} {bus start : BitVec 8} {dev : Nat} {b : Bdf}

end

theorem busWord_lt (bus : BitVec 8) : bus.toNat / 64 < 4 := by omega

def seenBit (seen : Seen) (bus : BitVec 8) : Bool :=
  (seen ⟨bus.toNat / 64, busWord_lt bus⟩).getLsbD (bus.toNat % 64)

/-- The table has the first functions that the search has found, as they are, and while there is
room the marks are those of the search. -/
structure Matches {σ : Type} {cfg : CfgIo σ} (regs : Registers cfg) (V : Space) (cap : Nat)
    (st : Scan σ) (v : Visit (BitVec 8) Bdf) : Prop where
  value : regs.value st.cfg = V
  out : List.Forall₂ (fun info b => Reports regs V b info) st.out (v.out.take cap)
  seen : v.out.length < cap → ∀ bus, seenBit st.seen bus = decide (bus ∈ v.seen)

section
variable {σ : Type} {cfg : CfgIo σ} {regs : Registers cfg} {V : Space} {cap : Nat}
  {st st' : Scan σ} {v v' : Visit (BitVec 8) Bdf} {bus : BitVec 8}

theorem Matches.length (h : Matches regs V cap st v) : st.out.length = min cap v.out.length := by
  rw [h.out.length_eq, List.length_take]

theorem Matches.full (h : Matches regs V cap st v) (hfull : cap ≤ v.out.length)
    (hgrown : v.out <+: v'.out) (hout : st'.out = st.out) (hvalue : regs.value st'.cfg = V) :
    Matches regs V cap st' v' := by
  obtain ⟨new, hnew⟩ := hgrown
  refine ⟨hvalue, ?_, fun hroom => ?_⟩
  · rw [hout, ← hnew, List.take_append_of_le_length hfull]
    exact h.out
  · rw [← hnew, List.length_append] at hroom
    omega

end

def Space.cfg (writable : Bdf → Nat → BitVec 32) : CfgIo Space where
  read32 b o := fun V => (V b o, V)
  write32 b o v := fun V => ((), fun b' o' =>
    if b' = b ∧ o' = o then stored (writable b ((o - cfgBar0) / 4)) (V b o) v else V b' o')

end VibeOS.Pci
