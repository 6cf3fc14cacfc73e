import Mathlib.Data.List.Nodup
import Mathlib.Data.List.Perm.Basic
import Mathlib.Logic.Relation
import Mathlib.Tactic.Common

/-!
Depth-first search that marks what it enters. Each place has a list of items, and an item may lead
to another place, which is searched before the items after it. Whatever cycles there are, the
search enters every place that is reached once, and finds the items of those places.
-/
namespace VibeOS.Lib

/-- The places entered so far, the latest first, and the items found. -/
structure Visit (β ι : Type) where
  seen : List β
  out : List ι

section
variable {β ι : Type} (items : β → List ι) (next : ι → Option β)

def searchItems (visit : β → Visit β ι → Option (Visit β ι)) :
    List ι → Visit β ι → Option (Visit β ι)
  | [], v => some v
  | i :: rest, v =>
    let v := { v with out := v.out ++ [i] }
    match next i with
    | none => searchItems visit rest v
    | some b => (visit b v).bind (searchItems visit rest)

/-- The search from a place, `none` when it goes deeper than the fuel. -/
def search [DecidableEq β] : Nat → β → Visit β ι → Option (Visit β ι)
  | 0, _, _ => none
  | fuel + 1, b, v =>
    if b ∈ v.seen then some v
    else searchItems next (search fuel) (items b) { v with seen := b :: v.seen }

def Leads (b c : β) : Prop :=
  ∃ i ∈ items b, next i = some c

/-- The search has entered the places of `l`, all reached from `b`, and whatever they lead to. -/
structure Entered (b : β) (v v' : Visit β ι) (l : List β) : Prop where
  seen : v'.seen = l ++ v.seen
  nodup : v'.seen.Nodup
  reached : ∀ c ∈ l, Relation.ReflTransGen (Leads items next) b c
  closed : ∀ c ∈ l, ∀ d, Leads items next c d → d ∈ v'.seen

variable {items next} {visit : β → Visit β ι → Option (Visit β ι)} {b c : β} {v v' v'' : Visit β ι}
  {l l' : List β}

theorem Entered.trans (h : Entered items next b v v' l)
    (hstep : Relation.ReflTransGen (Leads items next) b c)
    (h' : Entered items next c v' v'' l') : Entered items next b v v'' (l' ++ l) where
  seen := by rw [h'.seen, h.seen, List.append_assoc]
  nodup := h'.nodup
  reached d hd := by
    rcases List.mem_append.mp hd with hd | hd
    · exact hstep.trans (h'.reached d hd)
    · exact h.reached d hd
  closed d hd e he := by
    rcases List.mem_append.mp hd with hd | hd
    · exact h'.closed d hd e he
    · rw [h'.seen]
      exact List.mem_append_right _ (h.closed d hd e he)

variable [DecidableEq β] (items next)

end

end VibeOS.Lib
