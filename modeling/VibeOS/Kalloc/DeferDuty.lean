import VibeOS.Kalloc.DeferRuns

/-!
Who queues the next release item, and that none is lost. The flag is the ticket for the next run: a
swap takes it, the duty and the queued item pass it on, and it goes back with `unclaim` or when the
run clears the flag, which is before it takes the list.
-/
namespace VibeOS.Kalloc
open VibeOS.Lib

variable {C R O : Type}

/-- Who has the ticket for the next run. -/
inductive Ticket (C R : Type) where
  | caller (c : C)
  | item
  | worker (r : R)
  deriving DecidableEq

namespace DeferSys
variable {S S' : DeferSys C R O}

structure Ticketed [DecidableEq C] [DecidableEq R] (S : DeferSys C R O) (t : Option (Ticket C R)) :
    Prop where
  queued : S.queued = t.isSome
  duty : ∀ c, S.callers c = .duty ↔ t = some (.caller c)
  items : S.items = if t = some .item then 1 else 0
  clear : ∀ r, S.workers r = .clear ↔ t = some (.worker r)

/-- A list with objects has someone to see to it, unless the duty was given back. -/
def Covered (S : DeferSys C R O) : Prop :=
  S.head ≠ none → (∃ c, S.callers c = .pushSwap) ∨ S.queued = true ∨ (∃ r, S.workers r = .take) ∨
    S.dropped = true

variable [DecidableEq C] [DecidableEq R] {t : Option (Ticket C R)} {c : C} {r : R}

section
variable (h : Ticketed S t)
include h

theorem Ticketed.still (hqueued : S'.queued = S.queued)
    (hduty : ∀ c, S'.callers c = .duty ↔ S.callers c = .duty) (hitems : S'.items = S.items)
    (hclear : ∀ r, S'.workers r = .clear ↔ S.workers r = .clear) : Ticketed S' t :=
  ⟨hqueued.trans h.queued, fun c => (hduty c).trans (h.duty c), hitems.trans h.items,
    fun r => (hclear r).trans (h.clear r)⟩

theorem Ticketed.setCaller {pc : DeferPc O} (hold : S.callers c ≠ .duty) (hnew : pc ≠ .duty) :
    Ticketed (S.setCaller c pc) t :=
  h.still rfl (fun _ => update_eq_other hold hnew) rfl fun _ => Iff.rfl

theorem Ticketed.setWorker {pc : ReleasePc O} (hold : S.workers r ≠ .clear) (hnew : pc ≠ .clear) :
    Ticketed (S.setWorker r pc) t :=
  h.still rfl (fun _ => Iff.rfl) rfl fun _ => update_eq_other hold hnew

theorem Ticketed.swap (hc : S.callers c ≠ .duty) :
    ∃ t, Ticketed ({ S with queued := true }.setCaller c (if S.queued then .idle else .duty))
      t := by
  cases hq : S.queued with
  | true =>
    refine ⟨t, h.still hq.symm (fun c' => ?_) rfl fun _ => Iff.rfl⟩
    exact update_eq_other hc (by simp)
  | false =>
    have ht : t = none := by
      have := h.queued
      rw [hq] at this
      cases t with
      | none => rfl
      | some x => cases this
    subst ht
    refine ⟨some (.caller c), rfl, fun c' => ?_, h.items, fun r => ?_⟩
    · have hnone : S.callers c' ≠ .duty := fun he => nomatch (h.duty c').mp he
      change Function.update S.callers c _ c' = .duty ↔ _
      rw [update_eq_iff]
      simp [hnone, eq_comm]
    · refine (h.clear r).trans ?_
      simp

theorem Ticketed.enqueue (hc : S.callers c = .duty) :
    Ticketed ({ S with items := S.items + 1 }.setCaller c .idle) (some .item) := by
  have ht := (h.duty c).mp hc
  subst ht
  refine ⟨h.queued, fun c' => ?_, ?_, fun r => (h.clear r).trans (by simp)⟩
  · change Function.update S.callers c .idle c' = .duty ↔ _
    rw [update_eq_iff, h.duty]
    simp [eq_comm]
  · change S.items + 1 = _
    rw [h.items]
    rfl

theorem Ticketed.unclaim (hc : S.callers c = .duty) :
    Ticketed ({ S with queued := false, dropped := true }.setCaller c .idle) none := by
  have ht := (h.duty c).mp hc
  subst ht
  refine ⟨rfl, fun c' => ?_, h.items, fun r => (h.clear r).trans (by simp)⟩
  change Function.update S.callers c .idle c' = .duty ↔ _
  rw [update_eq_iff, h.duty]
  simp [eq_comm]

theorem Ticketed.start {n : Nat} (hn : S.items = n + 1) :
    Ticketed ({ S with items := n }.setWorker r .clear) (some (.worker r)) := by
  have hitems := h.items
  rw [hn] at hitems
  split at hitems
  · rename_i ht
    subst ht
    obtain rfl : n = 0 := by omega
    refine ⟨h.queued, fun c' => (h.duty c').trans (by simp), rfl, fun r' => ?_⟩
    change Function.update S.workers r .clear r' = .clear ↔ _
    rw [update_eq_iff, h.clear]
    simp [eq_comm]
  · omega

theorem Ticketed.clearFlag (hr : S.workers r = .clear) :
    Ticketed ({ S with queued := false }.setWorker r .take) none := by
  have ht := (h.clear r).mp hr
  subst ht
  refine ⟨rfl, fun c' => (h.duty c').trans (by simp), h.items, fun r' => ?_⟩
  change Function.update S.workers r .take r' = .clear ↔ _
  rw [update_eq_iff, h.clear]
  simp [eq_comm]

end

variable [DecidableEq O]

theorem Ticketed.moves {w : Option R} (h : Ticketed S t) (hm : Moves S w S') :
    ∃ t, Ticketed S' t := by
  -- a step that moves neither the duty nor the clearing of the flag
  have hcaller : ∀ {S₁ : DeferSys C R O} {c pc}, S₁.queued = S.queued → S₁.callers = S.callers →
      S₁.items = S.items → S₁.workers = S.workers → S.callers c ≠ .duty → pc ≠ .duty →
      ∃ t, Ticketed (S₁.setCaller c pc) t := by
    intro S₁ c pc hq hc hi hw hold hnew
    refine ⟨t, (h.still hq (fun _ => by rw [hc]) hi fun _ => by rw [hw]).setCaller ?_ hnew⟩
    rwa [hc]
  have hworker : ∀ {S₁ : DeferSys C R O} {r pc}, S₁.queued = S.queued → S₁.callers = S.callers →
      S₁.items = S.items → S₁.workers = S.workers → S.workers r ≠ .clear → pc ≠ .clear →
      ∃ t, Ticketed (S₁.setWorker r pc) t := by
    intro S₁ r pc hq hc hi hw hold hnew
    refine ⟨t, (h.still hq (fun _ => by rw [hc]) hi fun _ => by rw [hw]).setWorker ?_ hnew⟩
    rwa [hw]
  cases hm with
  | push hc | claim hc | store hc | link hc | retry hc =>
    exact hcaller rfl rfl rfl rfl (hc ▸ nofun) nofun
  | swap hc => exact h.swap (hc.elim (· ▸ nofun) (· ▸ nofun))
  | enqueue hc => exact ⟨_, h.enqueue hc⟩
  | unclaim hc => exact ⟨_, h.unclaim hc⟩
  | reuse ho => exact ⟨t, h.still rfl (fun _ => Iff.rfl) rfl fun _ => Iff.rfl⟩
  | start hr hn => exact ⟨_, h.start hn⟩
  | clear hr => exact ⟨_, h.clearFlag hr⟩
  | take hr | stop hr | walk hr | release hr => exact hworker rfl rfl rfl rfl (hr ▸ nofun) nofun

omit [DecidableEq R] [DecidableEq O] in
theorem Covered.setCaller {pc : DeferPc O} (h : Covered S) (hold : S.callers c ≠ .pushSwap) :
    Covered (S.setCaller c pc) := by
  intro hhead
  refine (h hhead).imp_left fun ⟨c', hc'⟩ => ⟨c', (Function.update_of_ne ?_ ..).trans hc'⟩
  rintro rfl
  exact hold hc'

omit [DecidableEq C] [DecidableEq O] in
theorem Covered.setWorker {pc : ReleasePc O} (h : Covered S) (hold : S.workers r ≠ .take) :
    Covered (S.setWorker r pc) := by
  intro hhead
  refine (h hhead).imp_right (Or.imp_right (Or.imp_left fun ⟨r', hr'⟩ => ⟨r', ?_⟩))
  refine (Function.update_of_ne ?_ ..).trans hr'
  rintro rfl
  exact hold hr'

theorem Covered.moves {w : Option R} (h : Covered S) (hm : Moves S w S') : Covered S' := by
  -- a step that changes neither what the list needs nor who may see to it
  have hcaller : ∀ {S₁ : DeferSys C R O} {c pc}, Covered S₁ → S₁.callers = S.callers →
      S.callers c ≠ .pushSwap → Covered (S₁.setCaller c pc) :=
    fun h₁ he hold => h₁.setCaller (by rwa [he])
  have hworker : ∀ {S₁ : DeferSys C R O} {r pc}, Covered S₁ → S₁.workers = S.workers →
      S.workers r ≠ .take → Covered (S₁.setWorker r pc) :=
    fun h₁ he hold => h₁.setWorker (by rwa [he])
  cases hm with
  | push hc | claim hc | store hc | retry hc | enqueue hc => exact hcaller h rfl (hc ▸ nofun)
  | link hc hhead => exact fun _ => .inl ⟨_, Function.update_self ..⟩
  | swap hc => exact fun _ => .inr (.inl rfl)
  | unclaim hc => exact fun _ => .inr (.inr (.inr rfl))
  | reuse ho => exact h
  | clear hr => exact fun _ => .inr (.inr (.inl ⟨_, Function.update_self ..⟩))
  | take hr => exact fun hhead => absurd rfl hhead
  | start hr | stop hr | walk hr | release hr => exact hworker h rfl (hr ▸ nofun)

theorem invariants_run (acts : List (DeferAct C R O)) :
    Own (run acts) ∧ (∃ t, Ticketed (run acts) t) ∧ Covered (run acts) := by
  suffices h : ∀ S : DeferSys C R O, Own S ∧ (∃ t, Ticketed S t) ∧ Covered S →
      Own (acts.foldl DeferSys.step S) ∧ (∃ t, Ticketed (acts.foldl DeferSys.step S) t) ∧
        Covered (acts.foldl DeferSys.step S) by
    refine h _ ⟨.init, ⟨none, rfl, fun c => ⟨nofun, nofun⟩, rfl, fun r => ⟨nofun, nofun⟩⟩, ?_⟩
    exact fun hhead => absurd rfl hhead
  induction acts with
  | nil => exact fun S hS => hS
  | cons a acts ih =>
    rintro S ⟨hown, ⟨t, ht⟩, hcov⟩
    refine ih _ ⟨hown.step a, ?_⟩
    rcases S.step_moves a with he | ⟨w, hm, -⟩
    · exact he.symm ▸ ⟨⟨t, ht⟩, hcov⟩
    · exact ⟨ht.moves hm, hcov.moves hm⟩

end DeferSys
end VibeOS.Kalloc
