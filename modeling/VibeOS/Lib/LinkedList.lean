import Mathlib.Data.List.Basic

/-!
Doubly linked lists threaded through a memory of nodes. `Linked` relates a head to
the addresses it leads to; inserting at the front, taking the front off and unlinking
any member keep the relation, and a walk visits exactly those addresses.
-/
namespace VibeOS.Lib
variable {α : Type*}

structure Node (α : Type*) where
  next : α
  prev : α
  deriving DecidableEq, Repr

/-- From `head`, whose back link is `prev`, the nodes of the list follow each other up
to `null`. -/
def Linked (mem : α → Node α) (null : α) : α → α → List α → Prop
  | _, head, [] => head = null
  | prev, head, x :: xs =>
    head = x ∧ x ≠ null ∧ (mem x).prev = prev ∧ Linked mem null x (mem x).next xs

variable {mem mem' : α → Node α} {null prev head x : α} {xs : List α}

section
variable (h : Linked mem null prev head xs)
include h

theorem Linked.frame (hm : ∀ y ∈ xs, mem' y = mem y) : Linked mem' null prev head xs := by
  induction xs generalizing prev head with
  | nil => exact h
  | cons y ys ih =>
    obtain ⟨hy, hne, hprev, hys⟩ := h
    have hmy := hm y (List.mem_cons_self ..)
    refine ⟨hy, hne, by rw [hmy]; exact hprev, ?_⟩
    rw [hmy]
    exact ih hys fun z hz => hm z (List.mem_cons_of_mem _ hz)

theorem Linked.ne_null (hx : x ∈ xs) : x ≠ null := by
  induction xs generalizing prev head with
  | nil => cases hx
  | cons y ys ih =>
    obtain ⟨-, hne, -, hys⟩ := h
    cases hx with
    | head => exact hne
    | tail _ hx => exact ih hys hx

theorem Linked.head_eq_null : head = null ↔ xs = [] := by
  cases xs with
  | nil => exact ⟨fun _ => rfl, fun _ => h⟩
  | cons y ys =>
    obtain ⟨rfl, hne, -⟩ := h
    exact ⟨fun e => absurd e hne, fun e => by cases e⟩

theorem Linked.head_mem (hne : head ≠ null) : head ∈ xs := by
  cases xs with
  | nil => exact absurd h hne
  | cons y ys => exact h.1 ▸ List.mem_cons_self ..

theorem Linked.next_mem (hx : x ∈ xs) (hn : (mem x).next ≠ null) : (mem x).next ∈ xs.tail := by
  induction xs generalizing prev head with
  | nil => cases hx
  | cons y ys ih =>
    obtain ⟨-, -, -, hys⟩ := h
    cases hx with
    | head =>
      cases ys with
      | nil => exact absurd hys hn
      | cons z zs => exact hys.1 ▸ List.mem_cons_self ..
    | tail _ hx => exact List.mem_of_mem_tail (ih hys hx)

theorem Linked.prev_cases (hx : x ∈ xs) : (head = x ∧ (mem x).prev = prev) ∨ (mem x).prev ∈ xs := by
  induction xs generalizing prev head with
  | nil => cases hx
  | cons y ys ih =>
    obtain ⟨hy, -, hprev, hys⟩ := h
    cases hx with
    | head => exact .inl ⟨hy, hprev⟩
    | tail _ hx =>
      rcases ih hys hx with ⟨-, hp⟩ | hp
      · exact .inr (hp ▸ List.mem_cons_self ..)
      · exact .inr (List.mem_cons_of_mem _ hp)

end

section
variable [DecidableEq α]

def setNext (mem : α → Node α) (x next : α) : α → Node α :=
  Function.update mem x { mem x with next }

def setPrev (mem : α → Node α) (x prev : α) : α → Node α :=
  Function.update mem x { mem x with prev }

@[simp] theorem setNext_self (mem : α → Node α) (x v : α) :
    setNext mem x v x = { mem x with next := v } :=
  Function.update_self ..

@[simp] theorem setPrev_self (mem : α → Node α) (x v : α) :
    setPrev mem x v x = { mem x with prev := v } :=
  Function.update_self ..

theorem setNext_of_ne {y : α} (h : y ≠ x) (v : α) : setNext mem x v y = mem y :=
  Function.update_of_ne h ..

theorem setPrev_of_ne {y : α} (h : y ≠ x) (v : α) : setPrev mem x v y = mem y :=
  Function.update_of_ne h ..

/-- Take `x` out of the chain: its neighbours point at each other. -/
def splice (mem : α → Node α) (null x : α) : α → Node α :=
  let before := (mem x).prev
  let after := (mem x).next
  let mem := if before = null then mem else setNext mem before after
  if after = null then mem else setPrev mem after before

/-- The first node from `head` on that `p` accepts; `none` when the walk has not ended
within `fuel` nodes. -/
def walk (mem : α → Node α) (null : α) (p : α → Bool) : Nat → α → Option (Option α)
  | 0, _ => none
  | fuel + 1, cur =>
    if cur = null then some none
    else if p cur then some (some cur)
    else walk mem null p fuel (mem cur).next

/-- Splicing `x` out changes the forward link of the node before it and the back link
of the node after it, and nothing else. -/
theorem splice_of_ne {y : α} (hprev : y ≠ (mem x).prev) (hnext : y ≠ (mem x).next) :
    splice mem null x y = mem y := by
  unfold splice
  split <;> split <;> simp [setPrev_of_ne hnext, setNext_of_ne hprev]

section
variable {v : α} (h : Linked mem null prev head xs)
include h

theorem walk_eq_find (p : α → Bool) {fuel : Nat} (hf : xs.length < fuel) :
    walk mem null p fuel head = some (xs.find? p) := by
  induction xs generalizing prev head fuel with
  | nil =>
    obtain ⟨fuel, rfl⟩ := Nat.exists_eq_succ_of_ne_zero (Nat.ne_of_gt hf)
    simp [walk, show head = null from h]
  | cons y ys ih =>
    obtain ⟨fuel, rfl⟩ := Nat.exists_eq_succ_of_ne_zero (Nat.ne_of_gt (Nat.zero_lt_of_lt hf))
    obtain ⟨rfl, hne, -, hys⟩ := h
    rw [walk, if_neg hne, List.find?_cons]
    cases hp : p head with
    | true => rfl
    | false => exact ih hys (Nat.lt_of_succ_lt_succ hf)

theorem Linked.set_prev (hnd : xs.Nodup) (hne : xs ≠ []) :
    Linked (setPrev mem head v) null v head xs := by
  cases xs with
  | nil => exact absurd rfl hne
  | cons y ys =>
    obtain ⟨rfl, hy, -, hys⟩ := h
    refine ⟨rfl, hy, by simp, ?_⟩
    rw [setPrev_self]
    exact hys.frame fun z hz =>
      setPrev_of_ne (ne_of_mem_of_not_mem hz (List.nodup_cons.mp hnd).1) _

theorem Linked.relink (hnd : xs.Nodup) :
    Linked (if head = null then mem else setPrev mem head v) null v head xs := by
  split
  · rename_i hn
    rw [h.head_eq_null] at hn
    subst hn
    exact h
  · rename_i hn
    exact h.set_prev hnd fun e => hn (h.head_eq_null.mpr e)

theorem Linked.splice (hnd : xs.Nodup) (hprev : prev ∉ xs) (hx : x ∈ xs) :
    Linked (splice mem null x) null prev (if head = x then (mem x).next else head) (xs.erase x) :=
      by
  induction xs generalizing prev head with
  | nil => cases hx
  | cons y ys ih =>
    obtain ⟨rfl, hne, hp, hys⟩ := h
    obtain ⟨hy, hnd'⟩ := List.nodup_cons.mp hnd
    by_cases e : head = x
    · subst e
      rw [if_pos rfl, List.erase_cons_head]
      have hmid : Linked (if prev = null then mem else setNext mem prev (mem head).next) null head
          (mem head).next ys := by
        split
        · exact hys
        · refine hys.frame fun z hz => setNext_of_ne ?_ _
          rintro rfl
          exact hprev (List.mem_cons_of_mem _ hz)
      have := hmid.relink hnd' (v := prev)
      simpa only [VibeOS.Lib.splice, hp] using this
    · have hxs : x ∈ ys := (List.mem_cons.mp hx).resolve_left fun h => e h.symm
      rw [if_neg e, List.erase_cons_tail (by simpa using e)]
      have hafter : (mem x).next = null ∨ (mem x).next ∈ ys := by
        by_cases hn : (mem x).next = null
        · exact .inl hn
        · exact .inr (List.mem_of_mem_tail (hys.next_mem hxs hn))
      have hn : head ≠ (mem x).next := by
        rintro hn
        rcases hafter with ha | ha
        · exact hne (hn.trans ha)
        · exact hy (hn ▸ ha)
      -- the node before `x` is the front one exactly when `x` comes second
      have hfront : (mem head).next = x ↔ (mem x).prev = head := by
        rcases hys.prev_cases hxs with ⟨h₁, h₂⟩ | hm
        · exact ⟨fun _ => h₂, fun _ => h₁⟩
        · constructor
          · intro hh
            cases ys with
            | nil => cases hxs
            | cons z zs => exact hh ▸ hys.1 ▸ hys.2.2.1
          · intro hh
            exact absurd (hh ▸ hm) hy
      have hself : VibeOS.Lib.splice mem null x head =
          { mem head with
            next := if (mem head).next = x then (mem x).next else (mem head).next } := by
        by_cases hf : (mem x).prev = head
        · have hnull : head ≠ null := hne
          simp only [VibeOS.Lib.splice, hf, if_neg hnull, hfront.mpr hf, if_pos]
          split
          · exact setNext_self ..
          · rw [setPrev_of_ne hn, setNext_self]
        · rw [splice_of_ne (fun e => hf e.symm) hn, if_neg (fun e => hf (hfront.mp e))]
      refine ⟨rfl, hne, by rw [hself]; exact hp, ?_⟩
      rw [hself]
      exact ih hys hnd' hy hxs

end

theorem Linked.push (h : Linked mem null null head xs) (hnd : xs.Nodup) (hx : x ≠ null)
    (hmem : x ∉ xs) {nodes : α → Node α}
    (hnodes : nodes = Function.update mem x ⟨head, null⟩) :
    Linked (if head = null then nodes else setPrev nodes head x) null null x (x :: xs) := by
  subst hnodes
  have hold : Linked (Function.update mem x ⟨head, null⟩) null null head xs :=
    h.frame fun y hy => Function.update_of_ne (ne_of_mem_of_not_mem hy hmem) ..
  have hself : ∀ v, (if head = null then Function.update mem x ⟨head, null⟩ else
      setPrev (Function.update mem x ⟨head, null⟩) head v) x = ⟨head, null⟩ := by
    intro v
    split
    · exact Function.update_self ..
    · rename_i hn
      rw [setPrev_of_ne (ne_of_mem_of_not_mem (h.head_mem hn) hmem).symm, Function.update_self]
  refine ⟨rfl, hx, by rw [hself], ?_⟩
  rw [hself]
  exact hold.relink hnd

end
end VibeOS.Lib
