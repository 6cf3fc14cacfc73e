import Mathlib.Logic.Basic

/-!
A producer that wakes its consumer only when asked. The consumer says how far it has got before it
looks once more and goes to sleep; the producer looks there after it has posted, and signals if its
new entries cross that point. Each side stores before it loads, so one of the two sees the other.
-/
namespace VibeOS.Lib

/-- Counts of the entries posted, of those the producer has looked after, of those taken, and of
those taken when the consumer last said so; whether a signal is owed by the producer or pending at
the consumer; whether the consumer sleeps. -/
structure Bell where
  posted : Nat
  checked : Nat
  taken : Nat
  event : Nat
  owed : Bool
  pending : Bool
  idle : Bool

namespace Bell

/-- The steps of both sides. A check may owe a signal for no reason, but must owe one if the entries
since the last check cross the consumer's event; a consumer sleeps if it finds nothing after it has
stored its event, and may wake for no reason. -/
inductive Step : Bell → Bell → Prop
  | post {b : Bell} (n : Nat) (h : b.posted ≤ n) : Step b { b with posted := n }
  | check {b : Bell} (owed : Bool) (hold : b.owed = true → owed = true)
      (h : b.checked ≤ b.event → b.event < b.posted → owed = true) :
      Step b { b with checked := b.posted, owed }
  | ring {b : Bell} (h : b.owed = true) : Step b { b with owed := false, pending := true }
  | take {b : Bell} (hi : b.idle = false) (h : b.taken < b.posted) :
      Step b { b with taken := b.taken + 1 }
  | arm {b : Bell} (hi : b.idle = false) : Step b { b with event := b.taken }
  | sleep {b : Bell} (he : b.event = b.taken) (h : b.taken = b.posted) :
      Step b { b with idle := true }
  | wake {b : Bell} : Step b { b with idle := false, pending := false }
  | poll {b : Bell} : Step b { b with idle := false }

/-- A sleeping consumer with no signal on its way has taken all that was looked after. -/
structure Inv (b : Bell) : Prop where
  checked_le : b.checked ≤ b.posted
  taken_le : b.taken ≤ b.posted
  armed : b.idle = true → b.event = b.taken
  asleep : b.idle = true → b.pending = false → b.owed = false → b.checked ≤ b.taken

variable {b b' : Bell}

theorem Inv.step (h : Inv b) (hs : Step b b') : Inv b' := by
  cases hs with
  | post n hn => exact ⟨Nat.le_trans h.checked_le hn, Nat.le_trans h.taken_le hn, h.armed, h.asleep⟩
  | check owed hold hcross =>
    refine ⟨Nat.le_refl _, h.taken_le, h.armed, fun hi hp ho => ?_⟩
    have ho : owed = false := ho
    subst ho
    -- nothing was owed before either, so the old entries are taken and the new ones crossed
    have hle := h.asleep hi hp (Bool.not_eq_true _ ▸ fun hb => nomatch hold hb)
    change b.posted ≤ b.taken
    rw [← h.armed hi] at hle ⊢
    exact Nat.le_of_not_lt fun hlt => nomatch hcross hle hlt
  | ring ho => exact ⟨h.checked_le, h.taken_le, h.armed, nofun⟩
  | take hi hlt =>
    refine ⟨h.checked_le, hlt, fun hi' => ?_, fun hi' => ?_⟩ <;>
      exact absurd (hi.symm.trans hi') nofun
  | arm hi =>
    refine ⟨h.checked_le, h.taken_le, fun _ => rfl, fun hi' => ?_⟩
    exact absurd (hi.symm.trans hi') nofun
  | sleep he hall =>
    refine ⟨h.checked_le, h.taken_le, fun _ => he, fun _ _ _ => ?_⟩
    rw [hall]
    exact h.checked_le
  | wake | poll => exact ⟨h.checked_le, h.taken_le, nofun, nofun⟩

/-- Once the producer has looked and owes nothing, a consumer that sleeps with no signal pending has
taken every entry. -/
theorem Inv.all_taken (h : Inv b) (hi : b.idle = true) (hp : b.pending = false)
    (ho : b.owed = false) (hc : b.checked = b.posted) : b.taken = b.posted :=
  Nat.le_antisymm h.taken_le (hc ▸ h.asleep hi hp ho)

end Bell

end VibeOS.Lib
