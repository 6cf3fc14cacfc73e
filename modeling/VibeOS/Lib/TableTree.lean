import Mathlib.Logic.Function.Basic

/-!
Trees of tables in a memory. A key selects an index in the table of each depth, and an entry is
absent, a leaf, or leads to a table of the next depth. As long as no table is reached in two ways,
a store to one entry concerns the keys that select it and no others: linking an empty table
changes what no key finds, and storing a leaf changes it for the keys that share its indexes.
-/
namespace VibeOS.Lib

inductive Entry (T : Type*) where
  | absent
  | leaf
  | table (t : T)

/-- How keys and entries are read: the index of a key at each depth, and the kind of an entry
found there. -/
structure TreeFormat (K T I E : Type*) where
  idx : K → Nat → I
  kind : Nat → E → Entry T

namespace TreeFormat
variable {K T I E : Type*} (F : TreeFormat K T I E) (mem : T → I → E) (root : T)

/-- The keys select the same entries down to the depth. -/
def Agree (x y : K) (d : Nat) : Prop := ∀ i < d, F.idx x i = F.idx y i

/-- The table of depth `d` on the key's way down. -/
def walk (x : K) : Nat → Option T
  | 0 => some root
  | d + 1 =>
    match walk x d with
    | none => none
    | some t =>
      match F.kind d (mem t (F.idx x d)) with
      | .table t' => some t'
      | _ => none

/-- The leaf found from a table of depth `d` within `n` tables, and its depth. -/
def find (x : K) : Nat → Nat → T → Option (Nat × E)
  | 0, _, _ => none
  | n + 1, d, t =>
    match F.kind d (mem t (F.idx x d)) with
    | .absent => none
    | .leaf => some (d, mem t (F.idx x d))
    | .table t' => find x n (d + 1) t'

/-- No table is reached in two ways, and all that are reached are in `used`. -/
structure IsTree (used : T → Prop) : Prop where
  used : ∀ {x d t}, F.walk mem root x d = some t → used t
  unique : ∀ {x y d d' t}, F.walk mem root x d = some t → F.walk mem root y d' = some t →
    d = d' ∧ F.Agree x y d

variable {F mem root} {mem' : T → I → E} {used : T → Prop} {x y : K} {d : Nat} {t : T}

theorem walk_succ (h : F.walk mem root x d = some t) :
    F.walk mem root x (d + 1) = match F.kind d (mem t (F.idx x d)) with
      | .table t' => some t'
      | _ => none := by
  rw [walk, h]

theorem walk_agree (h : F.Agree x y d) : F.walk mem root x d = F.walk mem root y d := by
  induction d with
  | zero => rfl
  | succ d ih =>
    rw [walk, walk, ih fun i hi => h i (Nat.lt_succ_of_lt hi), h d (Nat.lt_succ_self d)]

theorem walk_none {d' : Nat} (hd : d ≤ d') (h : F.walk mem root x d = none) :
    F.walk mem root x d' = none := by
  induction hd with
  | refl => exact h
  | step _ ih => rw [walk, ih]

theorem walk_congr (h : ∀ d' < d, ∀ t, F.walk mem root x d' = some t →
    mem' t (F.idx x d') = mem t (F.idx x d')) : F.walk mem' root x d = F.walk mem root x d := by
  induction d with
  | zero => rfl
  | succ d ih =>
    rw [walk, walk, ih fun d' hd => h d' (Nat.lt_succ_of_lt hd)]
    cases hw : F.walk mem root x d with
    | none => rfl
    | some t => simp only [h d (Nat.lt_succ_self d) t hw]

theorem find_walk {n : Nat} (h : F.walk mem root x d = some t) :
    F.find mem x (n + d) 0 root = F.find mem x n d t := by
  induction d generalizing n t with
  | zero =>
    cases h
    rfl
  | succ d ih =>
    cases hw : F.walk mem root x d with
    | none =>
      rw [walk, hw] at h
      cases h
    | some u =>
      rw [walk_succ hw] at h
      have hfind := ih (n := n + 1) hw
      rw [Nat.add_right_comm] at hfind
      rw [← Nat.add_assoc, hfind, find]
      split at h
      · rename_i t' hk
        cases h
        rw [hk]
      · cases h

theorem find_congr {n : Nat} (h : ∀ d' t, F.walk mem root x d' = some t →
    mem' t (F.idx x d') = mem t (F.idx x d')) (hw : F.walk mem root x d = some t) :
    F.find mem' x n d t = F.find mem x n d t := by
  induction n generalizing d t with
  | zero => rfl
  | succ n ih =>
    rw [find, find, h d t hw]
    cases hk : F.kind d (mem t (F.idx x d)) with
    | absent => rfl
    | leaf => rfl
    | table t' =>
      refine ih ?_
      rw [walk_succ hw, hk]

namespace IsTree

theorem mono {used' : T → Prop} (h : F.IsTree mem root used) (hu : ∀ t, used t → used' t) :
    F.IsTree mem root used' :=
  ⟨fun hw => hu _ (h.used hw), h.unique⟩

section Store
variable (h : F.IsTree mem root used) (ht : F.walk mem root y d = some t)
  (hmem : ∀ u, used u → ∀ i, u ≠ t ∨ i ≠ F.idx y d → mem' u i = mem u i)
include h ht hmem

theorem same_entry {d' : Nat} {u : T} (hu : F.walk mem root x d' = some u)
    (hne : d' ≠ d ∨ ¬ F.Agree x y (d + 1)) :
    mem' u (F.idx x d') = mem u (F.idx x d') := by
  refine hmem u (h.used hu) _ ?_
  by_contra hsame
  rw [not_or, not_not, not_not] at hsame
  obtain ⟨rfl, hidx⟩ := hsame
  obtain ⟨rfl, hagree⟩ := h.unique hu ht
  refine hne.elim (fun hd => hd rfl) fun hd => hd fun i hi => ?_
  rcases Nat.lt_or_eq_of_le (Nat.le_of_lt_succ hi) with hlt | rfl
  · exact hagree i hlt
  · exact hidx

theorem walk_above {d' : Nat} (hd : d' ≤ d) : F.walk mem' root x d' = F.walk mem root x d' :=
  walk_congr fun _ hlt _ hu =>
    h.same_entry ht hmem hu (.inl (Nat.ne_of_lt (Nat.lt_of_lt_of_le hlt hd)))

theorem walk_agreed (hx : F.Agree x y (d + 1)) :
    F.walk mem root x d = some t ∧ F.walk mem' root x d = some t := by
  have hw : F.walk mem root x d = some t := by
    rw [walk_agree fun i hi => hx i (Nat.lt_succ_of_lt hi), ht]
  exact ⟨hw, (h.walk_above ht hmem (Nat.le_refl d)).trans hw⟩

theorem store_walk (hold : ∀ t', F.kind d (mem t (F.idx y d)) ≠ .table t')
    (hnew : ∀ t', F.kind d (mem' t (F.idx y d)) ≠ .table t') (x : K) (d' : Nat) :
    F.walk mem' root x d' = F.walk mem root x d' := by
  by_cases hagree : F.Agree x y (d + 1)
  · rcases Nat.lt_or_ge d d' with hlt | hge
    · obtain ⟨hx, hx'⟩ := h.walk_agreed ht hmem hagree
      have hidx : F.idx x d = F.idx y d := hagree d (Nat.lt_succ_self d)
      rw [walk_none hlt, walk_none hlt]
      · rw [walk_succ hx, hidx]
        split
        · rename_i t' hk
          exact absurd hk (hold t')
        · rfl
      · rw [walk_succ hx', hidx]
        split
        · rename_i t' hk
          exact absurd hk (hnew t')
        · rfl
    · exact h.walk_above ht hmem hge
  · exact walk_congr fun d'' _ u hu => h.same_entry ht hmem hu (.inr hagree)

theorem store (hold : ∀ t', F.kind d (mem t (F.idx y d)) ≠ .table t')
    (hnew : ∀ t', F.kind d (mem' t (F.idx y d)) ≠ .table t') : F.IsTree mem' root used where
  used hw := h.used (h.store_walk ht hmem hold hnew _ _ ▸ hw)
  unique hw hw' := h.unique (h.store_walk ht hmem hold hnew _ _ ▸ hw)
    (h.store_walk ht hmem hold hnew _ _ ▸ hw')

theorem find_other (hx : ¬ F.Agree x y (d + 1)) (n : Nat) :
    F.find mem' x n 0 root = F.find mem x n 0 root :=
  find_congr (fun _ _ hu => h.same_entry ht hmem hu (.inr hx)) rfl

theorem find_stored (hx : F.Agree x y (d + 1)) (n : Nat) :
    F.find mem' x (n + 1 + d) 0 root = match F.kind d (mem' t (F.idx y d)) with
      | .absent => none
      | .leaf => some (d, mem' t (F.idx y d))
      | .table t' => F.find mem' x n (d + 1) t' := by
  rw [find_walk (h.walk_agreed ht hmem hx).2, find, hx d (Nat.lt_succ_self d)]

variable {f : T} (hnew : F.kind d (mem' t (F.idx y d)) = .table f)
  (hempty : ∀ x d', F.kind d' (mem' f (F.idx x d')) = .absent)
include hnew hempty

theorem link_walk {d' : Nat} {u : T}
    (hu : F.walk mem' root x d' = some u) :
    F.walk mem root x d' = some u ∨ u = f ∧ d' = d + 1 ∧ F.Agree x y (d + 1) := by
  by_cases hagree : F.Agree x y (d + 1)
  · have hnext : F.walk mem' root x (d + 1) = some f := by
      rw [walk_succ (h.walk_agreed ht hmem hagree).2, hagree d (Nat.lt_succ_self d), hnew]
    rcases Nat.lt_trichotomy d' (d + 1) with hlt | rfl | hgt
    · exact .inl (h.walk_above ht hmem (Nat.le_of_lt_succ hlt) ▸ hu)
    · rw [hnext] at hu
      cases hu
      exact .inr ⟨rfl, rfl, hagree⟩
    · have hnone : F.walk mem' root x (d + 1 + 1) = none := by
        rw [walk_succ hnext, hempty]
      rw [walk_none hgt hnone] at hu
      cases hu
  · rw [walk_congr fun d'' _ u hu => h.same_entry ht hmem hu (.inr hagree)] at hu
    exact .inl hu

theorem link (hf : ¬ used f) :
    F.IsTree mem' root fun u => used u ∨ u = f where
  used hw := (h.link_walk ht hmem hnew hempty hw).imp h.used And.left
  unique {x₁ x₂ d₁ d₂ u} hw hw' := by
    rcases h.link_walk ht hmem hnew hempty hw with hw | ⟨rfl, rfl, hx⟩
    · rcases h.link_walk ht hmem hnew hempty hw' with hw' | ⟨rfl, -, -⟩
      · exact h.unique hw hw'
      · exact absurd (h.used hw) hf
    · rcases h.link_walk ht hmem hnew hempty hw' with hw' | ⟨-, rfl, hx'⟩
      · exact absurd (h.used hw') hf
      · exact ⟨rfl, fun i hi => (hx i hi).trans (hx' i hi).symm⟩

theorem find_link (hold : F.kind d (mem t (F.idx y d)) = .absent) (x : K) (n : Nat) :
    F.find mem' x (n + 1 + d) 0 root = F.find mem x (n + 1 + d) 0 root := by
  by_cases hx : F.Agree x y (d + 1)
  · rw [h.find_stored ht hmem hx, h.find_stored ht (fun _ _ _ _ => rfl) hx, hnew, hold]
    cases n with
    | zero => rfl
    | succ n => simp only [find, hempty]
  · exact h.find_other ht hmem hx _

end Store

end IsTree

end TreeFormat

end VibeOS.Lib
