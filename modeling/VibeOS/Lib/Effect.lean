import Mathlib.Algebra.Order.Ring.Nat
import Mathlib.Order.Defs.Unbundled
import Mathlib.Tactic.Common

/-!
Programs over a state that survives their errors, with weakest preconditions for both
outcomes. A postcondition for errors speaks of the state the failed program left behind. A bound on
what a program costs is put together along it: what its parts cost, whatever they return.
-/
namespace VibeOS.Lib

theorem ok_of_bind {ε α β : Type} {x : Except ε α} {f : α → Except ε β} {b : β}
    (h : x >>= f = .ok b) :
    ∃ a, x = .ok a ∧ f a = .ok b := by
  cases x with
  | error e => cases h
  | ok a => exact ⟨a, rfl, h⟩

def Eff (σ ε α : Type) : Type :=
  σ → Except ε α × σ

namespace Eff
variable {σ ε α β : Type}

instance : Monad (Eff σ ε) where
  pure a := fun s => (.ok a, s)
  bind m f := fun s =>
    match m s with
    | (.ok a, s') => f a s'
    | (.error e, s') => (.error e, s')

def fail (e : ε) : Eff σ ε α :=
  fun s => (.error e, s)

def get : Eff σ ε σ :=
  fun s => (.ok s, s)

def modify (f : σ → σ) : Eff σ ε Unit :=
  fun s => (.ok (), f s)

/-- The outcome of a program, as a value. -/
def attempt (m : Eff σ ε α) : Eff σ ε (Except ε α) :=
  fun s => (.ok (m s).1, (m s).2)

def ofExcept (r : Except ε α) : Eff σ ε α :=
  fun s => (r, s)

/-- Go on if `p` holds, and fail with `e` if not. -/
def require (p : Prop) [Decidable p] (e : ε) : Eff σ ε Unit :=
  if p then pure () else fail e

/-- From `s` the program returns into `Q`, or fails into `E`. -/
def wp (m : Eff σ ε α) (Q : α → σ → Prop) (E : ε → σ → Prop) (s : σ) : Prop :=
  match m s with
  | (.ok a, s') => Q a s'
  | (.error e, s') => E e s'

variable {m : Eff σ ε α} {Q Q' : α → σ → Prop} {E E' : ε → σ → Prop} {s : σ}

@[simp] theorem wp_pure (a : α) : wp (pure a : Eff σ ε α) Q E = Q a :=
  rfl

@[simp] theorem wp_fail (e : ε) : wp (fail e : Eff σ ε α) Q E = E e :=
  rfl

@[simp] theorem wp_get {Q : σ → σ → Prop} : wp (get : Eff σ ε σ) Q E = fun s => Q s s :=
  rfl

@[simp] theorem wp_modify {Q : Unit → σ → Prop} (f : σ → σ) :
    wp (modify f : Eff σ ε Unit) Q E = fun s => Q () (f s) :=
  rfl

@[simp] theorem wp_bind {R : β → σ → Prop} (f : α → Eff σ ε β) :
    wp (m >>= f) R E = wp m (fun a => wp (f a) R E) E := by
  funext s
  simp only [wp, bind]
  rcases m s with ⟨_ | _, s'⟩ <;> rfl

@[simp] theorem wp_attempt {Q : Except ε α → σ → Prop} :
    wp (attempt m) Q E = wp m (fun a => Q (.ok a)) (fun e => Q (.error e)) := by
  funext s
  simp only [wp, attempt]
  rcases m s with ⟨_ | _, s'⟩ <;> rfl

@[simp] theorem wp_ofExcept (r : Except ε α) :
    wp (ofExcept r) Q E =
      match r with
      | .ok a => Q a
      | .error e => E e := by
  cases r <;> rfl

@[simp] theorem wp_require {Q : Unit → σ → Prop} (p : Prop) [Decidable p] (e : ε) :
    wp (require p e) Q E = if p then Q () else E e := by
  unfold require
  split <;> rfl

@[simp] theorem wp_ite (p : Prop) [Decidable p] (m m' : Eff σ ε α) :
    wp (if p then m else m') Q E = if p then wp m Q E else wp m' Q E := by
  split <;> rfl

theorem wp_ofExcept_of {r : Except ε α} (hok : ∀ a, r = .ok a → Q a s)
    (herr : ∀ e, r = .error e → E e s) : wp (ofExcept r) Q E s := by
  cases r with
  | ok a => exact hok a rfl
  | error e => exact herr e rfl

theorem wp_require_of {Q : Unit → σ → Prop} {p : Prop} [Decidable p] {e : ε} (hp : p → Q () s)
    (hn : ¬ p → E e s) : wp (require p e) Q E s := by
  rw [wp_require]
  split
  · exact hp ‹_›
  · exact hn ‹_›

theorem wp_mono (h : wp m Q E s) (hQ : ∀ a s', Q a s' → Q' a s') (hE : ∀ e s', E e s' → E' e s') :
    wp m Q' E' s := by
  unfold wp at *
  split <;> simp_all

theorem wp_iff_run : wp m Q E s ↔
    (∀ a s', m s = (.ok a, s') → Q a s') ∧ ∀ e s', m s = (.error e, s') → E e s' := by
  unfold wp
  split
  · rename_i a s' h
    simp [h]
  · rename_i e s' h
    simp [h]

theorem wp_and (h : wp m Q E s) (h' : wp m Q' E' s) :
    wp m (fun a s' => Q a s' ∧ Q' a s') (fun e s' => E e s' ∧ E' e s') s := by
  rw [wp_iff_run] at *
  exact ⟨fun a s' hm => ⟨h.1 a s' hm, h'.1 a s' hm⟩, fun e s' hm => ⟨h.2 e s' hm, h'.2 e s' hm⟩⟩

/-- Run the body on each element in turn. -/
def forEach : List β → (β → Eff σ ε Unit) → Eff σ ε Unit
  | [], _ => pure ()
  | x :: xs, body => body x >>= fun _ => forEach xs body

theorem wp_forEach {xs : List β} {body : β → Eff σ ε Unit} (I : List β → σ → Prop)
    (hbody : ∀ x rest s, I (x :: rest) s → wp (body x) (fun _ => I rest) E s)
    (h : I xs s) : wp (forEach xs body) (fun _ => I []) E s := by
  induction xs generalizing s with
  | nil => exact h
  | cons x xs ih =>
    rw [forEach, wp_bind]
    exact wp_mono (hbody x xs s h) (fun _ _ h' => ih h') fun _ _ => id

theorem snd_of_wp {P : σ → Prop} (h : wp m (fun _ => P) (fun _ => P) s) : P (m s).2 := by
  unfold wp at h
  split at h <;> rename_i hm <;> rw [hm] <;> exact h

theorem fst_of_wp {b : α} (h : wp m (fun a _ => a = b) (fun _ _ => False) s) : (m s).1 = .ok b := by
  unfold wp at h
  split at h
  · rename_i hm
    rw [hm, h]
  · exact h.elim

/-- Whatever state the program starts from, what it returns is in `P` with the state it leaves. -/
def Returns (P : α → σ → Prop) (m : Eff σ ε α) : Prop := ∀ s, wp m P (fun _ _ => True) s

namespace Returns
variable {P : α → σ → Prop} {P' : β → σ → Prop} {f : α → Eff σ ε β}

theorem ofExcept {r : Except ε α} (h : ∀ a s, r = .ok a → P a s) :
    Returns P (Eff.ofExcept r : Eff σ ε α) :=
  fun s => wp_ofExcept_of (fun a => h a s) fun _ _ => trivial

theorem bind (hf : ∀ a, Returns P' (f a)) : Returns P' (m >>= f) := by
  intro s
  rw [wp_bind, wp_iff_run]
  exact ⟨fun a s' _ => hf a s', fun _ _ _ => trivial⟩

end Returns

/-- From every state of `I` the program ends in one, and the meter has gone up by `n` units of
`K` at most. -/
def Costs (I : σ → Prop) (meter : σ → Nat) (K n : Nat) (m : Eff σ ε α) : Prop :=
  ∀ s, I s → wp m (fun _ s' => I s' ∧ meter s' ≤ meter s + n * K)
    (fun _ s' => I s' ∧ meter s' ≤ meter s + n * K) s

namespace Costs
variable {I : σ → Prop} {meter : σ → Nat} {K n k : Nat} {f : α → Eff σ ε β}

theorem mono (h : Costs I meter K n m) (hn : n ≤ k) : Costs I meter K k m := by
  intro s hs
  have hle := Nat.mul_le_mul_right K hn
  exact wp_mono (h s hs) (fun _ _ h' => ⟨h'.1, by omega⟩) fun _ _ h' => ⟨h'.1, by omega⟩

theorem pure (a : α) : Costs I meter K n (Pure.pure a : Eff σ ε α) :=
  fun _ hs => ⟨hs, Nat.le_add_right _ _⟩

theorem fail (e : ε) : Costs I meter K n (Eff.fail e : Eff σ ε α) :=
  fun _ hs => ⟨hs, Nat.le_add_right _ _⟩

theorem ofExcept (r : Except ε α) : Costs I meter K n (Eff.ofExcept r : Eff σ ε α) :=
  fun _ hs => wp_ofExcept_of (fun _ _ => ⟨hs, Nat.le_add_right _ _⟩) fun _ _ =>
    ⟨hs, Nat.le_add_right _ _⟩

theorem requireThen {p : Prop} [Decidable p] {e : ε} {g : Unit → Eff σ ε β}
    (h : p → Costs I meter K n (g ())) : Costs I meter K n (Eff.require p e >>= g) := by
  intro s hs
  rw [wp_bind]
  exact wp_require_of (fun hp => h hp s hs) fun _ => ⟨hs, Nat.le_add_right _ _⟩

theorem afterIn {P : α → Prop} (hm : Costs I meter K n m)
    (hP : ∀ s, I s → wp m (fun a _ => P a) (fun _ _ => True) s)
    (hf : ∀ a, P a → Costs I meter K k (f a)) : Costs I meter K (n + k) (m >>= f) := by
  intro s hs
  rw [wp_bind]
  refine wp_mono (wp_and (hm s hs) (hP s hs)) (fun a s' h => ?_) fun _ s' h => ?_
  · obtain ⟨⟨hs', hle⟩, ha⟩ := h
    refine wp_mono (hf a ha s' hs') (fun _ s'' h' => ?_) fun _ s'' h' => ?_
    · refine ⟨h'.1, ?_⟩
      rw [Nat.add_mul]
      omega
    · refine ⟨h'.1, ?_⟩
      rw [Nat.add_mul]
      omega
  · refine ⟨h.1.1, ?_⟩
    rw [Nat.add_mul]
    omega

theorem after {P : α → Prop} (hm : Costs I meter K n m) (hP : Returns (fun a _ => P a) m)
    (hf : ∀ a, P a → Costs I meter K k (f a)) : Costs I meter K (n + k) (m >>= f) :=
  hm.afterIn (fun s _ => hP s) hf

theorem bind (hm : Costs I meter K n m) (hf : ∀ a, Costs I meter K k (f a)) :
    Costs I meter K (n + k) (m >>= f) := by
  refine hm.after (P := fun _ => True) (fun s => ?_) fun a _ => hf a
  rw [wp_iff_run]
  exact ⟨fun _ _ _ => trivial, fun _ _ _ => trivial⟩

theorem bindFree (hm : Costs I meter K 0 m) (hf : ∀ a, Costs I meter K n (f a)) :
    Costs I meter K n (m >>= f) :=
  (hm.bind hf).mono (Nat.le_of_eq (Nat.zero_add n))

theorem attempt (h : Costs I meter K n m) : Costs I meter K n (Eff.attempt m) := by
  intro s hs
  rw [wp_attempt]
  exact wp_mono (h s hs) (fun _ _ => id) fun _ _ => id

theorem ite (p : Prop) [Decidable p] {m m' : Eff σ ε α} (h : p → Costs I meter K n m)
    (h' : ¬ p → Costs I meter K n m') : Costs I meter K n (if p then m else m') := by
  split
  · exact h ‹_›
  · exact h' ‹_›

theorem modify {g : σ → σ} (hI : ∀ s, I s → I (g s)) (hg : ∀ s, meter (g s) ≤ meter s + n * K) :
    Costs I meter K n (Eff.modify g : Eff σ ε Unit) :=
  fun s hs => ⟨hI s hs, hg s⟩

theorem get_bind {g : σ → Eff σ ε β} (h : ∀ s, I s → Costs I meter K n (g s)) :
    Costs I meter K n (Eff.get >>= g) := by
  intro s hs
  rw [wp_bind, wp_get]
  exact h s hs s hs

end Costs

end Eff
end VibeOS.Lib
