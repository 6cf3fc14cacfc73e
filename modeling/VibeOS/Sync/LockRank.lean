import Mathlib.Data.Set.Basic
import Mathlib.Logic.Function.Basic
import Mathlib.Logic.Relation
import VibeOS.Lib.Bits
import VibeOS.Lib.Effect

/-!
Lock ranks and the word in which a CPU counts the locks it holds. A lock is waited for only when
the word accepts its rank, so every lock a waiting CPU holds ranks below the one it waits for.
CPUs that wait for each other would have no highest rank among what they wait for.
-/
namespace VibeOS.Sync
open Lib

abbrev maxRank : Nat := 8
abbrev countBits : Nat := 4
abbrev countMax : Nat := 2 ^ countBits - 1
abbrev depthShift : Nat := 32
abbrev depthMax : Nat := 0xFF

inductive RankError where
  | sameRank (rank : Nat)
  | order (rank held : Nat)
  | lockless
  | overflow (rank : Nat)
  deriving DecidableEq, Repr

/-- One CPU's held locks: four bits of count per rank, then the lockless depth. -/
structure Held where
  raw : Nat
  deriving DecidableEq, Repr

namespace Held

def empty : Held :=
  ⟨0⟩

/-- What one lock of a rank adds to the word. -/
def countUnit (rank : Nat) : Nat :=
  if rank = 0 ∨ maxRank < rank then 0 else 1 <<< (countBits * (rank - 1))

def depthUnit : Nat :=
  1 <<< depthShift

def count (h : Held) (rank : Nat) : Nat :=
  if rank = 0 ∨ maxRank < rank then 0 else h.raw >>> (countBits * (rank - 1)) &&& countMax

/-- Bit `rank - 1` for each rank held. -/
def mask (h : Held) : Nat :=
  (List.range maxRank).foldl (fun m i => if h.count (i + 1) ≠ 0 then m ||| 1 <<< i else m) 0

def locklessDepth (h : Held) : Nat :=
  h.raw >>> depthShift &&& depthMax

def checkCell (h : Held) : Except RankError Unit :=
  if h.locklessDepth ≠ 0 then .error .lockless else .ok ()

/-- No held rank is above `rank`. -/
def checkOrder (h : Held) (rank : Nat) : Except RankError Unit :=
  if h.mask >>> rank ≠ 0 then .error (.order rank h.mask) else .ok ()

/-- Take one lock of a rank that may be held already. -/
def acquireNested (h : Held) (rank : Nat) : Except RankError Held := do
  h.checkCell
  if rank = 0 ∨ maxRank < rank then .ok h
  else do
    h.checkOrder rank
    if h.count rank = countMax then .error (.overflow rank)
    else .ok ⟨h.raw + countUnit rank⟩

/-- Take one lock of a rank that is not held and above which none is. -/
def acquire (h : Held) (rank : Nat) : Except RankError Held :=
  if rank ≠ 0 ∧ h.count rank ≠ 0 then do
    h.checkCell
    h.checkOrder rank
    .error (.sameRank rank)
  else h.acquireNested rank

def release (h : Held) (rank : Nat) : Held :=
  if h.count rank = 0 then h else ⟨h.raw - countUnit rank⟩

def enterLockless (h : Held) : Held :=
  if h.locklessDepth = depthMax then h else ⟨h.raw + depthUnit⟩

def leaveLockless (h : Held) : Held :=
  if h.locklessDepth = 0 then h else ⟨h.raw - depthUnit⟩

variable {h h' : Held} {rank r : Nat}

theorem countUnit_eq (h1 : 1 ≤ rank) (h8 : rank ≤ maxRank) :
    countUnit rank = 2 ^ (4 * (rank - 1)) := by
  rw [countUnit, if_neg (by omega), Nat.one_shiftLeft]

theorem count_eq (h : Held) (h1 : 1 ≤ rank) (h8 : rank ≤ maxRank) :
    h.count rank = field h.raw (4 * (rank - 1)) 4 := by
  rw [count, if_neg (by omega)]
  exact shiftRight_and_eq_field _ _ _

theorem depthUnit_eq : depthUnit = 2 ^ 32 := by
  rw [depthUnit, Nat.one_shiftLeft]

theorem locklessDepth_eq (h : Held) : h.locklessDepth = field h.raw 32 8 :=
  shiftRight_and_eq_field h.raw 32 8

theorem testBit_mask (h : Held) (i : Nat) :
    h.mask.testBit i = true ↔ i < maxRank ∧ h.count (i + 1) ≠ 0 := by
  have hfold : ∀ (l : List Nat) (m : Nat),
      (l.foldl (fun m i => if h.count (i + 1) ≠ 0 then m ||| 1 <<< i else m) m).testBit i = true ↔
        m.testBit i = true ∨ i ∈ l ∧ h.count (i + 1) ≠ 0 := by
    intro l
    induction l with
    | nil => simp
    | cons j l ih =>
      intro m
      rw [List.foldl_cons, ih, List.mem_cons]
      split
      · rename_i hj
        rw [Nat.testBit_or, Bool.or_eq_true, Nat.one_shiftLeft, Nat.testBit_two_pow,
          decide_eq_true_eq]
        constructor
        · rintro ((hm | rfl) | ⟨hi, hc⟩)
          · exact .inl hm
          · exact .inr ⟨.inl rfl, hj⟩
          · exact .inr ⟨.inr hi, hc⟩
        · rintro (hm | ⟨rfl | hi, hc⟩)
          · exact .inl (.inl hm)
          · exact .inl (.inr rfl)
          · exact .inr ⟨hi, hc⟩
      · rename_i hj
        constructor
        · rintro (hm | ⟨hi, hc⟩)
          · exact .inl hm
          · exact .inr ⟨.inr hi, hc⟩
        · rintro (hm | ⟨rfl | hi, hc⟩)
          · exact .inl hm
          · exact (hj hc).elim
          · exact .inr ⟨hi, hc⟩
  rw [mask, hfold, List.mem_range, Nat.zero_testBit]
  simp

theorem count_of_checkOrder {u : Unit} (h1 : 1 ≤ rank) (ho : h.checkOrder rank = .ok u)
    (hr : rank < r) (hr8 : r ≤ maxRank) : h.count r = 0 := by
  by_contra hne
  unfold checkOrder at ho
  split at ho
  · cases ho
  · rename_i hshift
    rw [not_not] at hshift
    have hbit : h.mask.testBit (r - 1) = true := by
      rw [testBit_mask, Nat.sub_add_cancel (by omega)]
      exact ⟨by omega, hne⟩
    have hshifted : (h.mask >>> rank).testBit (r - 1 - rank) = true := by
      rw [Nat.testBit_shiftRight, Nat.add_sub_cancel' (by omega)]
      exact hbit
    rw [hshift, Nat.zero_testBit] at hshifted
    cases hshifted

theorem acquire_ok (h1 : 1 ≤ rank) (h8 : rank ≤ maxRank) (ha : h.acquire rank = .ok h') :
    h' = ⟨h.raw + countUnit rank⟩ ∧ ∀ r, rank ≤ r → r ≤ maxRank → h.count r = 0 := by
  unfold acquire at ha
  split at ha
  · obtain ⟨-, -, ha⟩ := ok_of_bind ha
    obtain ⟨-, -, ha⟩ := ok_of_bind ha
    cases ha
  · rename_i hnone
    have hzero : h.count rank = 0 := by
      by_contra hne
      exact hnone ⟨by omega, hne⟩
    obtain ⟨-, -, ha⟩ := ok_of_bind ha
    rw [if_neg (by omega)] at ha
    obtain ⟨u, ho, ha⟩ := ok_of_bind ha
    rw [if_neg (by rw [hzero]; decide)] at ha
    cases ha
    refine ⟨rfl, fun r hr hr8 => ?_⟩
    rcases Nat.lt_or_ge rank r with hlt | hge
    · exact count_of_checkOrder h1 ho hlt hr8
    · obtain rfl : r = rank := by omega
      exact hzero

theorem count_add (h1 : 1 ≤ rank) (h8 : rank ≤ maxRank) (hr : 1 ≤ r) (hr8 : r ≤ maxRank)
    (hfull : h.count rank < countMax) :
    (Held.mk (h.raw + countUnit rank)).count r = h.count r + if r = rank then 1 else 0 := by
  rw [count_eq _ h1 h8] at hfull
  rw [count_eq _ hr hr8, count_eq _ hr hr8, countUnit_eq h1 h8]
  split
  · rename_i heq
    subst heq
    exact field_add_self (by simp only [countMax, countBits] at hfull; omega)
  · exact field_add_other (b := 4) (by simp only [countMax, countBits] at hfull; omega) (by omega)

theorem raw_add_lt (h1 : 1 ≤ rank) (h8 : rank ≤ maxRank) (hfull : h.count rank < countMax)
    (hsmall : h.raw < 2 ^ 40) : h.raw + countUnit rank < 2 ^ 40 := by
  rw [count_eq _ h1 h8] at hfull
  rw [countUnit_eq h1 h8]
  simp only [maxRank, countMax, countBits] at h8 hfull
  exact add_lt_of_field (b := 4) (by omega) (by omega) hsmall

theorem raw_release_le (h : Held) (rank : Nat) : (h.release rank).raw ≤ h.raw := by
  unfold release
  split
  · exact Nat.le_refl _
  · exact Nat.sub_le _ _

theorem count_release (h : Held) (h1 : 1 ≤ rank) (h8 : rank ≤ maxRank) (hr : 1 ≤ r)
    (hr8 : r ≤ maxRank) :
    (h.release rank).count r = h.count r - if r = rank then 1 else 0 := by
  unfold release
  split
  · rename_i hzero
    split
    · rename_i heq
      rw [heq, hzero]
    · rfl
  · rename_i hne
    rw [count_eq _ h1 h8] at hne
    rw [count_eq _ hr hr8, count_eq _ hr hr8, countUnit_eq h1 h8]
    split
    · rename_i heq
      subst heq
      have := (field_sub hne).2
      change field (h.raw - 2 ^ (4 * (r - 1))) (4 * (r - 1)) 4 = _
      omega
    · exact field_sub_other (b := 4) hne (by omega)

theorem count_enterLockless (h : Held) (hr : 1 ≤ r) (hr8 : r ≤ maxRank) :
    h.enterLockless.count r = h.count r := by
  unfold enterLockless
  split
  · rfl
  · rename_i hne
    have hlt := field_lt h.raw 32 8
    rw [locklessDepth_eq] at hne
    rw [count_eq _ hr hr8, count_eq _ hr hr8, depthUnit_eq]
    simp only [depthMax, maxRank] at hne hr8
    exact field_add_other (b := 8) (by omega) (by omega)

theorem raw_enterLockless_lt (h : Held) (hsmall : h.raw < 2 ^ 40) :
    h.enterLockless.raw < 2 ^ 40 := by
  unfold enterLockless
  split
  · exact hsmall
  · rename_i hne
    have hlt := field_lt h.raw 32 8
    rw [locklessDepth_eq] at hne
    simp only [depthMax] at hne
    change h.raw + depthUnit < 2 ^ 40
    rw [depthUnit_eq]
    exact add_lt_of_field (b := 8) (by omega) (by omega) hsmall

theorem raw_leaveLockless_le (h : Held) : h.leaveLockless.raw ≤ h.raw := by
  unfold leaveLockless
  split
  · exact Nat.le_refl _
  · exact Nat.sub_le _ _

theorem count_leaveLockless (h : Held) (hr : 1 ≤ r) (hr8 : r ≤ maxRank) :
    h.leaveLockless.count r = h.count r := by
  unfold leaveLockless
  split
  · rfl
  · rename_i hne
    rw [locklessDepth_eq] at hne
    rw [count_eq _ hr hr8, count_eq _ hr hr8, depthUnit_eq]
    simp only [maxRank] at hr8
    exact field_sub_other (b := 8) hne (by omega)

end Held

/-- CPUs that wait only for locks above all they hold do not wait for each other, when ranks are
bounded. -/
theorem no_deadlock {C Λ : Type} (waits : C → Option Λ) (owner : Λ → Option C) (rank : Λ → Nat)
    {b : Nat} (hb : ∀ l, rank l ≤ b)
    (hup : ∀ c l, waits c = some l → ∀ l', owner l' = some c → rank l' < rank l) :
    ¬ ∃ D : Set C, D.Nonempty ∧ ∀ c ∈ D, ∃ l c', waits c = some l ∧ c' ∈ D ∧ owner l = some c' := by
  rintro ⟨D, ⟨c, hc⟩, hD⟩
  -- From a CPU of the set to one that waits for a higher rank, as often as one likes.
  have hclimb : ∀ n, ∃ c ∈ D, ∃ l, waits c = some l ∧ n ≤ rank l := by
    intro n
    induction n with
    | zero =>
      obtain ⟨l, c', hl, -⟩ := hD c hc
      exact ⟨c, hc, l, hl, Nat.zero_le _⟩
    | succ n ih =>
      obtain ⟨c, hc, l, hl, hn⟩ := ih
      obtain ⟨l₁, c', hl₁, hc', howner⟩ := hD c hc
      obtain ⟨l', c'', hl', -⟩ := hD c' hc'
      rw [hl] at hl₁
      cases hl₁
      exact ⟨c', hc', l', hl', Nat.lt_of_le_of_lt hn (hup c' l' hl' l howner)⟩
  obtain ⟨c, -, l, -, hl⟩ := hclimb (b + 1)
  have := hb l
  omega

/-- One CPU: its word, the lock it waits for and the locks it holds. -/
structure Cpu (Λ : Type) where
  held : Held
  waits : Option Λ
  locks : List Λ

structure Locks (C Λ : Type) where
  cpu : C → Cpu Λ
  owner : Λ → Option C

def Locks.init {C Λ : Type} : Locks C Λ where
  cpu _ := ⟨.empty, none, []⟩
  owner _ := none

/-- What a CPU does with a lock: wait for it once its rank is accepted, take the one it waits for,
give up waiting, release one; and enter or leave a section that takes no lock. -/
inductive Act (C Λ : Type) where
  | wait (c : C) (l : Λ)
  | take (c : C)
  | giveUp (c : C)
  | release (c : C) (l : Λ)
  | enter (c : C)
  | leave (c : C)

namespace Locks
variable {C Λ : Type} [DecidableEq C] [DecidableEq Λ] {rank : Λ → Nat} {S S' : Locks C Λ}

def setCpu (S : Locks C Λ) (c : C) (x : Cpu Λ) : Locks C Λ :=
  { S with cpu := Function.update S.cpu c x }

def setOwner (S : Locks C Λ) (l : Λ) (o : Option C) : Locks C Λ :=
  { S with owner := Function.update S.owner l o }

/-- One action, when it can be made. A rank that is refused stops the kernel. -/
def step (rank : Λ → Nat) (S : Locks C Λ) : Act C Λ → Option (Locks C Λ)
  | .wait c l =>
    match (S.cpu c).waits, (S.cpu c).held.acquire (rank l) with
    | none, .ok _ => some (S.setCpu c { S.cpu c with waits := some l })
    | _, _ => none
  | .take c =>
    match (S.cpu c).waits with
    | none => none
    | some l =>
      if S.owner l = none then
        some ((S.setOwner l (some c)).setCpu c
          ⟨⟨(S.cpu c).held.raw + Held.countUnit (rank l)⟩, none, l :: (S.cpu c).locks⟩)
      else none
  | .giveUp c => some (S.setCpu c { S.cpu c with waits := none })
  | .release c l =>
    if S.owner l = some c then
      some ((S.setOwner l none).setCpu c { S.cpu c with
        held := (S.cpu c).held.release (rank l)
        locks := (S.cpu c).locks.erase l })
    else none
  | .enter c => some (S.setCpu c { S.cpu c with held := (S.cpu c).held.enterLockless })
  | .leave c => some (S.setCpu c { S.cpu c with held := (S.cpu c).held.leaveLockless })

/-- What a CPU's record says of the locks it holds. -/
structure Agrees (rank : Λ → Nat) (owner : Λ → Option C) (c : C) (x : Cpu Λ) : Prop where
  nodup : x.locks.Nodup
  owner : ∀ l, owner l = some c ↔ l ∈ x.locks
  count : ∀ r, 1 ≤ r → r ≤ maxRank → x.held.count r = x.locks.countP fun l => rank l = r
  below : ∀ l, x.waits = some l → ∀ l' ∈ x.locks, rank l' < rank l
  small : x.held.raw < 2 ^ 40

def Inv (rank : Λ → Nat) (S : Locks C Λ) : Prop :=
  ∀ c, Agrees rank S.owner c (S.cpu c)

variable {c : C} {l : Λ} {x : Cpu Λ}

omit [DecidableEq Λ] in
theorem Inv.setCpu (h : Inv rank S) (hx : Agrees rank S.owner c x) : Inv rank (S.setCpu c x) := by
  intro c'
  change Agrees rank S.owner c' (Function.update S.cpu c x c')
  by_cases hc : c' = c
  · subst hc
    rwa [Function.update_self]
  · rw [Function.update_of_ne hc]
    exact h c'

theorem Inv.setOwner (h : Inv rank S) {o : Option C} (hl : ∀ c', c' ≠ c → S.owner l ≠ some c')
    (ho : ∀ c', c' ≠ c → o ≠ some c')
    (hx : Agrees rank (S.setOwner l o).owner c x) : Inv rank ((S.setOwner l o).setCpu c x) := by
  intro c'
  change Agrees rank (Function.update S.owner l o) c' (Function.update S.cpu c x c')
  by_cases hc : c' = c
  · subst hc
    rw [Function.update_self]
    exact hx
  · rw [Function.update_of_ne hc]
    obtain ⟨hnd, hown, hcount, hbelow, hsmall⟩ := h c'
    refine ⟨hnd, fun l' => ?_, hcount, hbelow, hsmall⟩
    by_cases hll : l' = l
    · subst hll
      rw [Function.update_self, ← hown]
      exact ⟨fun he => (ho c' hc he).elim, fun he => (hl c' hc he).elim⟩
    · rw [Function.update_of_ne hll]
      exact hown l'

variable (hrank : ∀ l, 1 ≤ rank l ∧ rank l ≤ maxRank)
include hrank

omit [DecidableEq C] [DecidableEq Λ] in
theorem Agrees.take {owner' : Λ → Option C} (h : Agrees rank S.owner c (S.cpu c))
    (hw : (S.cpu c).waits = some l) (hfree : S.owner l = none)
    (hown : ∀ l', owner' l' = some c ↔ l' = l ∨ S.owner l' = some c) :
    Agrees rank owner' c
      ⟨⟨(S.cpu c).held.raw + Held.countUnit (rank l)⟩, none, l :: (S.cpu c).locks⟩ := by
  have hmem : l ∉ (S.cpu c).locks := by
    rw [← h.owner, hfree]
    nofun
  have hnone : (S.cpu c).held.count (rank l) = 0 := by
    rw [h.count _ (hrank l).1 (hrank l).2, List.countP_eq_zero]
    intro l' hl'
    have := h.below l hw l' hl'
    simp only [decide_eq_true_eq]
    omega
  refine ⟨List.nodup_cons.mpr ⟨hmem, h.nodup⟩, fun l' => ?_, fun r hr hr8 => ?_, nofun,
    Held.raw_add_lt (hrank l).1 (hrank l).2 (by rw [hnone]; decide) h.small⟩
  · rw [hown, List.mem_cons, h.owner]
  · rw [Held.count_add (hrank l).1 (hrank l).2 hr hr8 (by rw [hnone]; decide), h.count r hr hr8,
      List.countP_cons]
    by_cases hrl : r = rank l <;> simp [hrl, eq_comm]

omit [DecidableEq C] in
theorem Agrees.release {owner' : Λ → Option C} (h : Agrees rank S.owner c (S.cpu c))
    (hl : S.owner l = some c) (hown : ∀ l', owner' l' = some c ↔ l' ≠ l ∧ S.owner l' = some c) :
    Agrees rank owner' c { S.cpu c with
      held := (S.cpu c).held.release (rank l)
      locks := (S.cpu c).locks.erase l } := by
  have hmem : l ∈ (S.cpu c).locks := (h.owner l).mp hl
  refine ⟨h.nodup.erase l, fun l' => ?_, fun r hr hr8 => ?_, fun l₁ hl₁ l' hl' => ?_,
    Nat.lt_of_le_of_lt (Held.raw_release_le _ _) h.small⟩
  · rw [hown, h.owner, h.nodup.mem_erase_iff]
  · rw [Held.count_release _ (hrank l).1 (hrank l).2 hr hr8, h.count r hr hr8,
      (List.perm_cons_erase hmem).countP_eq, List.countP_cons]
    by_cases hrl : r = rank l <;> simp [hrl, eq_comm]
  · exact h.below l₁ hl₁ l' (List.mem_of_mem_erase hl')

theorem Inv.step (h : Inv rank S) {a : Act C Λ} (hs : Locks.step rank S a = some S') :
    Inv rank S' := by
  cases a with
  | wait c l =>
    simp only [Locks.step] at hs
    split at hs
    · rename_i hw ha
      cases hs
      obtain ⟨hnd, hown, hcount, -, hsmall⟩ := h c
      obtain ⟨-, hnone⟩ := Held.acquire_ok (hrank l).1 (hrank l).2 ha
      refine h.setCpu ⟨hnd, hown, hcount, fun l₁ hl₁ l' hl' => ?_, hsmall⟩
      cases hl₁
      by_contra hge
      have hz := hnone (rank l') (by omega) (hrank l').2
      rw [hcount _ (hrank l').1 (hrank l').2, List.countP_eq_zero] at hz
      exact hz l' hl' (by simp)
    · cases hs
  | take c =>
    simp only [Locks.step] at hs
    split at hs
    · cases hs
    · rename_i l hw
      split at hs
      · rename_i hfree
        cases hs
        refine h.setOwner (fun c' _ => by rw [hfree]; nofun) (fun c' hc he => hc ?_)
          ((h c).take hrank hw hfree fun l' => ?_)
        · cases he
          rfl
        · change Function.update S.owner l (some c) l' = some c ↔ _
          by_cases hll : l' = l
          · subst hll
            simp
          · simp [hll]
      · cases hs
  | giveUp c =>
    cases hs
    exact h.setCpu ⟨(h c).nodup, (h c).owner, (h c).count, nofun, (h c).small⟩
  | release c l =>
    simp only [Locks.step] at hs
    split at hs
    · rename_i hl
      cases hs
      refine h.setOwner (fun c' hc he => hc ?_) (fun c' _ => nofun)
        ((h c).release hrank hl fun l' => ?_)
      · rw [hl] at he
        cases he
        rfl
      · change Function.update S.owner l none l' = some c ↔ _
        by_cases hll : l' = l
        · subst hll
          simp
        · simp [hll]
    · cases hs
  | enter c =>
    cases hs
    refine h.setCpu ⟨(h c).nodup, (h c).owner, fun r hr hr8 => ?_, (h c).below,
      Held.raw_enterLockless_lt _ (h c).small⟩
    rw [Held.count_enterLockless _ hr hr8]
    exact (h c).count r hr hr8
  | leave c =>
    cases hs
    refine h.setCpu ⟨(h c).nodup, (h c).owner, fun r hr hr8 => ?_, (h c).below,
      Nat.lt_of_le_of_lt (Held.raw_leaveLockless_le _) (h c).small⟩
    rw [Held.count_leaveLockless _ hr hr8]
    exact (h c).count r hr hr8

omit [DecidableEq C] [DecidableEq Λ] hrank in
theorem Inv.init : Inv rank (Locks.init : Locks C Λ) := by
  intro c
  refine ⟨List.nodup_nil, fun l => ⟨nofun, nofun⟩, fun r hr hr8 => ?_, nofun, ?_⟩
  · rw [Held.count_eq _ hr hr8]
    simp [Locks.init, Held.empty, field]
  · exact Nat.two_pow_pos 40

omit hrank in
inductive Reach (rank : Λ → Nat) : Locks C Λ → Prop where
  | init : Reach rank .init
  | step {S S' : Locks C Λ} {a : Act C Λ} (h : Reach rank S) (hs : S.step rank a = some S') :
      Reach rank S'

theorem Reach.inv (h : Reach rank S) : Inv rank S := by
  induction h with
  | init => exact .init
  | step _ hs ih => exact ih.step hrank hs

/-- Every word counts the locks its CPU holds and fits its 64 bits, and no CPUs wait for each
other. -/
theorem ranks_exclude_deadlock (h : Reach rank S) :
    (∀ c, (∀ l, S.owner l = some c ↔ l ∈ (S.cpu c).locks) ∧ (S.cpu c).locks.Nodup ∧
      (S.cpu c).held.raw < 2 ^ 64 ∧
      ∀ r, 1 ≤ r → r ≤ maxRank → (S.cpu c).held.count r = (S.cpu c).locks.countP fun l =>
        rank l = r) ∧
    ¬ ∃ D : Set C, D.Nonempty ∧
      ∀ c ∈ D, ∃ l c', (S.cpu c).waits = some l ∧ c' ∈ D ∧ S.owner l = some c' := by
  have hinv := h.inv hrank
  refine ⟨fun c => ⟨(hinv c).owner, (hinv c).nodup, ?_, (hinv c).count⟩, ?_⟩
  · exact Nat.lt_trans (hinv c).small (by decide)
  refine no_deadlock (fun c => (S.cpu c).waits) S.owner rank (fun l => (hrank l).2) fun c l hl l'
    hl' => ?_
  exact (hinv c).below l hl l' (((hinv c).owner l').mp hl')

omit hrank in
theorem Reach.of_play {acts : List (Act C Λ)} (h : Reach rank S)
    (hplay : acts.foldlM (Locks.step rank) S = some S') : Reach rank S' := by
  induction acts generalizing S with
  | nil =>
    cases hplay
    exact h
  | cons a acts ih =>
    rw [List.foldlM_cons] at hplay
    obtain ⟨T, hT, hrest⟩ := Option.bind_eq_some_iff.mp hplay
    exact ih (h.step hT) hrest

end Locks

/-- One CPU holds the lock of rank 2; the other took that of rank 1 and waits for it. -/
theorem Locks.ranks_exclude_deadlock_two :
    ∃ S : Locks Bool Bool, (S.cpu true).waits = some true ∧ S.owner true = some false ∧
      (S.cpu true).held.raw = 1 ∧ (S.cpu false).held.raw = 16 ∧
      ¬ ∃ D : Set Bool, D.Nonempty ∧
        ∀ c ∈ D, ∃ l c', (S.cpu c).waits = some l ∧ c' ∈ D ∧ S.owner l = some c' := by
  let acts : List (Act Bool Bool) :=
    [.wait false true, .take false, .wait true false, .take true, .wait true true]
  let rank : Bool → Nat := fun l => if l then 2 else 1
  let last : Option (Locks Bool Bool) := acts.foldlM (Locks.step rank) Locks.init
  obtain ⟨S, hS⟩ : ∃ S, last = some S := Option.isSome_iff_exists.mp (by decide)
  have hfacts : last.map (fun S => ((S.cpu true).waits, S.owner true, (S.cpu true).held.raw,
      (S.cpu false).held.raw)) = some (some true, some false, 1, 16) := by decide
  rw [hS] at hfacts
  simp only [Option.map_some, Option.some.injEq, Prod.mk.injEq] at hfacts
  obtain ⟨hwaits, howner, htrue, hfalse⟩ := hfacts
  have hrank : ∀ l, 1 ≤ rank l ∧ rank l ≤ maxRank := by decide
  exact ⟨S, hwaits, howner, htrue, hfalse,
    (ranks_exclude_deadlock hrank (Reach.of_play .init hS)).2⟩

end VibeOS.Sync
