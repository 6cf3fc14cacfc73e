import Mathlib.Data.Set.Lattice
import Mathlib.Order.CompletePartialOrder

/-!
Programs of atomic actions on a shared memory. Between two actions a program may ask its
environment, which replies as it likes. A program that stays in its cells reads and writes no
others, so what it does there does not depend on what happens elsewhere: a postcondition about its
cells that it has alone, it has in every interleaving with a program that stays in other cells.
-/
namespace VibeOS.Lib

inductive Prog (A Q : Type → Type) (α : Type) : Type 1
  | ret (a : α)
  | act {β : Type} (a : A β) (k : β → Prog A Q α)
  | ask {β : Type} (q : Q β) (k : β → Prog A Q α)
  | hang

variable {A Q : Type → Type} {α β σ κ V : Type}

namespace Prog

/-- One step of a program on a shared state; its questions are answered in any way. -/
inductive Step (exec : ∀ {γ : Type}, A γ → σ → γ × σ) : σ → Prog A Q α → σ → Prog A Q α → Prop
  | act {s : σ} {γ : Type} (a : A γ) (k : γ → Prog A Q α) :
      Step exec s (.act a k) (exec a s).2 (k (exec a s).1)
  | ask {s : σ} {γ : Type} (q : Q γ) (k : γ → Prog A Q α) (b : γ) : Step exec s (.ask q k) s (k b)

/-- The program by itself, its questions answered by `reply`: every action it takes is one of
`ok`, and it returns into `P`. -/
def Alone (exec : ∀ {γ : Type}, A γ → σ → γ × σ) (reply : ∀ {γ : Type}, Q γ → γ)
    (ok : ∀ {γ : Type}, A γ → Prop) (P : α → σ → Prop) : Prog A Q α → σ → Prop
  | ret a, s => P a s
  | act a k, s => ok a ∧ (k (exec a s).1).Alone exec reply ok P (exec a s).2
  | ask q k, s => (k (reply q)).Alone exec reply ok P s
  | hang, _ => False

/-- From the memory `m` the program stays in the cells of `F`, whatever happens outside of them, and
returns into `P`. -/
def Inside (exec : ∀ {γ : Type}, A γ → (κ → V) → γ × (κ → V)) (F : Set κ) (P : α → (κ → V) → Prop) :
    Prog A Q α → (κ → V) → Prop
  | ret a, m => P a m
  | act a k, m => ∀ m', Set.EqOn m m' F → Set.EqOn m' (exec a m').2 Fᶜ ∧
      (k (exec a m').1).Inside exec F P (exec a m').2
  | ask _ k, m => ∀ b, (k b).Inside exec F P m
  | hang, _ => True

variable {exec : ∀ {γ : Type}, A γ → (κ → V) → γ × (κ → V)} {F : Set κ} {P : α → (κ → V) → Prop}
  {p p' : Prog A Q α} {m m' : κ → V}

theorem Inside.stable (hP : ∀ a m m', Set.EqOn m m' F → P a m → P a m')
    (h : p.Inside exec F P m) (hm : Set.EqOn m m' F) : p.Inside exec F P m' := by
  induction p with
  | ret a => exact hP a m m' hm h
  | act a k => exact fun m'' hm' => h m'' (hm.trans hm')
  | ask q k ih => exact fun b => ih b (h b)
  | hang => trivial

theorem Inside.step (h : p.Inside exec F P m) (hs : Step exec m p m' p') :
    p'.Inside exec F P m' ∧ Set.EqOn m m' Fᶜ := by
  cases hs with
  | act a k => exact (h m fun _ _ => rfl).symm
  | ask q k b => exact ⟨h b, fun _ _ => rfl⟩

end Prog

structure Pair (A Q : Type → Type) (α β σ : Type) where
  state : σ
  left : Prog A Q α
  right : Prog A Q β

namespace Pair

inductive Step (exec : ∀ {γ : Type}, A γ → σ → γ × σ) : Pair A Q α β σ → Pair A Q α β σ → Prop
  | left {s s' : σ} {p p' : Prog A Q α} (q : Prog A Q β) :
      Prog.Step exec s p s' p' → Step exec ⟨s, p, q⟩ ⟨s', p', q⟩
  | right {s s' : σ} (p : Prog A Q α) {q q' : Prog A Q β} :
      Prog.Step exec s q s' q' → Step exec ⟨s, p, q⟩ ⟨s', p, q'⟩

/-- The pairs that interleavings of the two programs lead to. -/
def Reach (exec : ∀ {γ : Type}, A γ → σ → γ × σ) : Pair A Q α β σ → Pair A Q α β σ → Prop :=
  Relation.ReflTransGen (Step exec)

section
variable {exec : ∀ {γ : Type}, A γ → (κ → V) → γ × (κ → V)} {F G : Set κ}
  {P : α → (κ → V) → Prop} {R : β → (κ → V) → Prop} {s s' : Pair A Q α β (κ → V)}

theorem inside_of_reach (hP : ∀ a m m', Set.EqOn m m' F → P a m → P a m')
    (hR : ∀ b m m', Set.EqOn m m' G → R b m → R b m') (hFG : Disjoint F G)
    (hl : s.left.Inside exec F P s.state) (hr : s.right.Inside exec G R s.state)
    (h : Reach exec s s') :
    s'.left.Inside exec F P s'.state ∧ s'.right.Inside exec G R s'.state ∧
      Set.EqOn s.state s'.state (F ∪ G)ᶜ := by
  induction h with
  | refl => exact ⟨hl, hr, fun _ _ => rfl⟩
  | tail _ hstep ih =>
    obtain ⟨ihl, ihr, ihm⟩ := ih
    cases hstep with
    | left q hs =>
      obtain ⟨hl', hm⟩ := ihl.step hs
      refine ⟨hl', ihr.stable hR (hm.mono hFG.subset_compl_left), fun c hc => ?_⟩
      exact (ihm hc).trans (hm fun hF => hc (.inl hF))
    | right p hs =>
      obtain ⟨hr', hm⟩ := ihr.step hs
      refine ⟨ihl.stable hP (hm.mono hFG.subset_compl_right), hr', fun c hc => ?_⟩
      exact (ihm hc).trans (hm fun hG => hc (.inr hG))

end

section
variable (exec : ∀ {γ : Type}, A γ → σ → γ × σ) (reply : ∀ {γ : Type}, Q γ → γ)

/-- The next step of a program, its question answered by `reply`. -/
def next (s : σ) : Prog A Q α → σ × Prog A Q α
  | .act a k => ((exec a s).2, k (exec a s).1)
  | .ask q k => (s, k (reply q))
  | p => (s, p)

/-- Steps of the left and of the right program in the order of a list. -/
def play : List Bool → Pair A Q α β σ → Pair A Q α β σ
  | [], s => s
  | true :: sides, s =>
    let r := next exec reply s.state s.left
    play sides ⟨r.1, r.2, s.right⟩
  | false :: sides, s =>
    let r := next exec reply s.state s.right
    play sides ⟨r.1, s.left, r.2⟩

theorem step_next (s : σ) (p : Prog A Q α) :
    Prog.Step exec s p (next exec reply s p).1 (next exec reply s p).2 ∨
      next exec reply s p = (s, p) := by
  cases p with
  | ret a => exact .inr rfl
  | act a k => exact .inl (.act a k)
  | ask q k => exact .inl (.ask q k _)
  | hang => exact .inr rfl

theorem reach_play (sides : List Bool) (s : Pair A Q α β σ) :
    Reach exec s (play exec reply sides s) := by
  induction sides generalizing s with
  | nil => exact .refl
  | cons side sides ih =>
    obtain ⟨v, p, q⟩ := s
    cases side with
    | true =>
      refine .trans ?_ (ih _)
      rcases step_next exec reply v p with h | h
      · exact .single (.left q h)
      · simp only [h]
        exact .refl
    | false =>
      refine .trans ?_ (ih _)
      rcases step_next exec reply v q with h | h
      · exact .single (.right p h)
      · simp only [h]
        exact .refl

end

end Pair

end VibeOS.Lib
