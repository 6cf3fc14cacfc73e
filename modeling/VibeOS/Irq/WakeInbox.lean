import Mathlib.Logic.Function.Basic
import VibeOS.Lib.Bits
import VibeOS.Lib.History

/-!
One CPU's wake inbox: a bit per thread slot and a summary bit per word of them. Every atomic access
is one step: a `push` sets the slot's bit and then its word's summary bit, a `drain` swaps the
summary out and then each word it flags. The calls of `f` for a word's bits touch neither and belong
to the swap that found them. Pushes come from any number of callers, drains from the owner, one at a
time. The log keeps what happened, newest first; no step reads it. A slot is posted once a push of
it made its first step, settled once a push of it completed after that, and overdue once a drain
started after that, each time until it is reported.
-/
namespace VibeOS.Irq
open VibeOS.Lib

structure WakeInbox (W : Nat) where
  summary : BitVec 64
  words : Fin W → BitVec 64

namespace WakeInbox
variable {W : Nat}

def new : WakeInbox W := ⟨0, fun _ => 0⟩

/-- The first access of `push`. -/
def orWord (I : WakeInbox W) (w : Fin W) (slot : Nat) : WakeInbox W :=
  { I with words := Function.update I.words w (I.words w ||| 1#64 <<< (slot % 64)) }

/-- The second access of `push`. -/
def orSummary (I : WakeInbox W) (slot : Nat) : WakeInbox W :=
  { I with summary := I.summary ||| 1#64 <<< (slot / 64) }

/-- What the swap of a word leaves. -/
def clearWord (I : WakeInbox W) (w : Fin W) : WakeInbox W :=
  { I with words := Function.update I.words w 0 }

def Queued (I : WakeInbox W) (slot : Nat) : Prop :=
  ∃ h : slot / 64 < W, (I.words ⟨slot / 64, h⟩).getLsbD (slot % 64) = true

end WakeInbox

/-- The first and the second step of a push, the first step of a drain, a slot it reports and its
return. -/
inductive InboxEvent (P : Type) where
  | set (p : P) (slot : Nat)
  | flag (p : P) (slot : Nat)
  | start
  | report (slot : Nat)
  | finish (any : Bool)
  deriving DecidableEq

structure Drain where
  summary : BitVec 64
  any : Bool

/-- `pushes` has the slots of the pushes that have made their first access. -/
structure InboxSys (P : Type) (W : Nat) where
  inbox : WakeInbox W
  pushes : P → Option Nat
  drain : Option Drain
  log : List (InboxEvent P)

inductive InboxAct (P : Type) where
  | push (p : P) (slot : Nat)
  | flag (p : P)
  | drain
  | scan

def InboxAct.isScan {P : Type} : InboxAct P → Bool
  | .scan => true
  | _ => false

namespace InboxSys
variable {P : Type} [DecidableEq P] {W : Nat}

def init : InboxSys P W :=
  { inbox := .new, pushes := fun _ => none, drain := none, log := [] }

/-- A push of a slot past the words returns false at once. -/
def push (S : InboxSys P W) (p : P) (slot : Nat) : InboxSys P W :=
  if h : slot / 64 < W then
    { S with
      inbox := S.inbox.orWord ⟨slot / 64, h⟩ slot
      pushes := Function.update S.pushes p (some slot)
      log := .set p slot :: S.log }
  else S

def flag (S : InboxSys P W) (p : P) (slot : Nat) : InboxSys P W :=
  { S with
    inbox := S.inbox.orSummary slot
    pushes := Function.update S.pushes p none
    log := .flag p slot :: S.log }

/-- The calls of `f` for the bits of word `w`, newest first. -/
def reports (w : Nat) (bits : BitVec 64) : List (InboxEvent P) :=
  ((setBits bits).map fun b => .report (w * 64 + b)).reverse

/-- One turn of the loop of `drain`, or its return. -/
def scan (S : InboxSys P W) (d : Drain) : InboxSys P W :=
  if d.summary = 0 then { S with drain := none, log := .finish d.any :: S.log }
  else
    let w := d.summary.ctz.toNat
    let summary := d.summary &&& (d.summary - 1)
    if h : w < W then
      let bits := S.inbox.words ⟨w, h⟩
      { S with
        inbox := S.inbox.clearWord ⟨w, h⟩
        drain := some ⟨summary, d.any || bits ≠ 0⟩
        log := reports w bits ++ S.log }
    else { S with drain := some { d with summary } }

/-- A step of a caller that is not there does nothing. -/
def step (S : InboxSys P W) : InboxAct P → InboxSys P W
  | .push p slot =>
    match S.pushes p with
    | none => S.push p slot
    | some _ => S
  | .flag p =>
    match S.pushes p with
    | none => S
    | some slot => S.flag p slot
  | .drain =>
    match S.drain with
    | none =>
      { S with
        inbox := { S.inbox with summary := 0 }
        drain := some ⟨S.inbox.summary, false⟩
        log := .start :: S.log }
    | some _ => S
  | .scan =>
    match S.drain with
    | none => S
    | some d => S.scan d

def run (W : Nat) (acts : List (InboxAct P)) : InboxSys P W :=
  acts.foldl step init

end InboxSys

section
variable {P : Type}

def Posted (s : Nat) : List (InboxEvent P) → Prop :=
  Since (fun e _ => ∃ p, e = .set p s) (.report s)

def Settled (s : Nat) : List (InboxEvent P) → Prop :=
  Since (fun e l => (∃ p, e = .flag p s) ∧ Posted s l) (.report s)

def Overdue (s : Nat) : List (InboxEvent P) → Prop :=
  Since (fun e l => e = .start ∧ Settled s l) (.report s)

/-- A slot is reported when it is posted, and a drain ends when none is overdue. -/
def Honest : InboxEvent P → List (InboxEvent P) → Prop
  | .report s, l => Posted s l
  | .finish _, l => ∀ s, ¬ Overdue s l
  | _, _ => True

variable {s : Nat} {l l' : List (InboxEvent P)}

theorem Settled.posted (h : Settled s l) : Posted s l := by
  induction l with
  | nil => exact h
  | cons e l ih =>
    rcases h with ⟨⟨p, rfl⟩, h⟩ | ⟨he, h⟩
    · exact .inr ⟨nofun, h⟩
    · exact .inr ⟨he, ih h⟩

theorem Overdue.settled (h : Overdue s l) : Settled s l := by
  induction l with
  | nil => exact h
  | cons e l ih =>
    rcases h with ⟨rfl, h⟩ | ⟨he, h⟩
    · exact .inr ⟨nofun, h⟩
    · exact .inr ⟨he, ih h⟩

section
variable (p : P) (slot : Nat) (any : Bool)

@[simp] theorem posted_set : Posted s (.set p slot :: l) ↔ slot = s ∨ Posted s l := by
  simp [Posted, Since]

@[simp] theorem posted_flag : Posted s (.flag p slot :: l) ↔ Posted s l := since_cons nofun nofun

@[simp] theorem posted_start : Posted s (.start :: l) ↔ Posted s l := since_cons nofun nofun

@[simp] theorem posted_finish : Posted s (.finish any :: l) ↔ Posted s l := since_cons nofun nofun

@[simp] theorem settled_set : Settled s (.set p slot :: l) ↔ Settled s l := since_cons nofun nofun

@[simp] theorem settled_flag :
    Settled s (.flag p slot :: l) ↔ (slot = s ∧ Posted s l) ∨ Settled s l := by
  simp [Settled, Since]

@[simp] theorem settled_start : Settled s (.start :: l) ↔ Settled s l := since_cons nofun nofun

@[simp] theorem settled_finish :
    Settled s (.finish any :: l) ↔ Settled s l := since_cons nofun nofun

@[simp] theorem overdue_set : Overdue s (.set p slot :: l) ↔ Overdue s l := since_cons nofun nofun

@[simp] theorem overdue_flag : Overdue s (.flag p slot :: l) ↔ Overdue s l := since_cons nofun nofun

@[simp] theorem overdue_start : Overdue s (.start :: l) ↔ Settled s l := by
  refine Iff.trans (b := Settled s l ∨ Overdue s l) ?_ (or_iff_left_of_imp Overdue.settled)
  simp [Overdue, Since]

@[simp] theorem overdue_finish :
    Overdue s (.finish any :: l) ↔ Overdue s l := since_cons nofun nofun

end

end

namespace WakeInbox
variable {W : Nat} {I : WakeInbox W} {s slot : Nat}

theorem queued_orWord (h : slot / 64 < W) :
    (I.orWord ⟨slot / 64, h⟩ slot).Queued s ↔ slot = s ∨ I.Queued s := by
  unfold Queued orWord
  by_cases hw : s / 64 = slot / 64
  · have hs : s / 64 < W := hw ▸ h
    have hword : (⟨s / 64, hs⟩ : Fin W) = ⟨slot / 64, h⟩ := Fin.ext hw
    have hbit : slot % 64 < 64 := Nat.mod_lt slot (by decide)
    simp only [hs, exists_true_left, hword, Function.update_self, BitVec.getLsbD_or,
      Bool.or_eq_true, getLsbD_one_shiftLeft hbit, decide_eq_true_eq]
    have hslot : s % 64 = slot % 64 ↔ slot = s := by omega
    rw [hslot]
    exact or_comm
  · have hne : slot ≠ s := fun he => hw (he ▸ rfl)
    refine Iff.trans ?_ (or_iff_right hne).symm
    refine exists_congr fun hs => ?_
    have hword : (⟨s / 64, hs⟩ : Fin W) ≠ ⟨slot / 64, h⟩ := fun he => hw (congrArg Fin.val he)
    simp only [Function.update_of_ne hword]

theorem queued_clearWord (w : Fin W) : (I.clearWord w).Queued s ↔ s / 64 ≠ w ∧ I.Queued s := by
  unfold Queued clearWord
  by_cases hw : s / 64 = w
  · simp [hw]
  · have hcell : ∀ hs : s / 64 < W, Function.update I.words w 0 ⟨s / 64, hs⟩ =
      I.words ⟨s / 64, hs⟩ :=
      fun hs => Function.update_of_ne (fun he => hw (congrArg Fin.val he)) ..
    simp only [hcell]
    exact (and_iff_right hw).symm

theorem summary_orSummary (h : slot / 64 < 64) (w : Nat) :
    (I.orSummary slot).summary.getLsbD w = true ↔ w = slot / 64 ∨ I.summary.getLsbD w = true := by
  simp only [orSummary, BitVec.getLsbD_or, getLsbD_one_shiftLeft h, Bool.or_eq_true,
    decide_eq_true_eq]
  exact or_comm

end WakeInbox

end VibeOS.Irq
