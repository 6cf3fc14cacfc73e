import Mathlib.Data.List.Rotate
import Mathlib.Data.List.Sort

/-!
The smallest elements of a list, and numbers in the order of a circle. Inserting into the `k`
smallest so far and dropping what no longer fits keeps the `k` smallest. On a circle of `m`
numbers a list is walked upwards from any start and past the top once; the walk that starts just
after one of its elements is the same walk turned, so pieces of the walk, each begun where the
last ended, go through all of it.
-/
namespace VibeOS.Lib

section Insertion
variable {α : Type*} [LinearOrder α] {l : List α} {a : α}

theorem insert_findIdx (h : a ∉ l) :
    l.take (l.findIdx (decide <| a < ·)) ++ a :: l.drop (l.findIdx (decide <| a < ·)) =
      l.orderedInsert (· ≤ ·) a := by
  induction l with
  | nil => rfl
  | cons b l ih =>
    obtain ⟨hne, hmem⟩ : a ≠ b ∧ a ∉ l := by simpa using h
    by_cases hlt : a < b
    · rw [List.orderedInsert_cons_of_le _ _ hlt.le, List.findIdx_cons]
      simp [hlt]
    · rw [List.orderedInsert_of_not_le _ _ fun hle => hlt (hle.lt_of_ne hne), ← ih hmem,
        List.findIdx_cons]
      simp [hlt]

theorem take_orderedInsert_take (k : Nat) (a : α) (l : List α) :
    ((l.take k).orderedInsert (· ≤ ·) a).take k = (l.orderedInsert (· ≤ ·) a).take k := by
  induction l generalizing k with
  | nil => simp
  | cons b l ih =>
    cases k with
    | zero => simp
    | succ k =>
      by_cases hle : a ≤ b
      · cases k with
        | zero => simp [hle]
        | succ k => simp [hle, List.take_take]
      · simp [hle, ih]

theorem insertionSort_concat (l : List α) (a : α) :
    (l ++ [a]).insertionSort (· ≤ ·) = (l.insertionSort (· ≤ ·)).orderedInsert (· ≤ ·) a := by
  refine List.Perm.eq_of_pairwise' (r := (· ≤ ·)) (List.pairwise_insertionSort _ _)
    ((List.pairwise_insertionSort _ _).orderedInsert _ _) ?_
  refine (List.perm_insertionSort _ _).trans ((List.perm_append_singleton _ _).trans ?_)
  exact ((List.perm_insertionSort _ l).symm.cons a).trans (List.perm_orderedInsert _ _ _).symm

end Insertion

section Circle
variable {m start a b x : Nat} {l l' before after : List Nat}

/-- How far `a` is ahead of `start` on a circle of `m` numbers. -/
def ahead (m start a : Nat) : Nat :=
  (a + m - start) % m

/-- A list in the order of the circle from `start`. -/
def around (m start : Nat) (l : List Nat) : List Nat :=
  l.insertionSort fun a b => ahead m start a ≤ ahead m start b

theorem ahead_eq (ha : a < m) (hs : start < m) :
    ahead m start a = if start ≤ a then a - start else a + m - start := by
  unfold ahead
  split_ifs with h
  · rw [show a + m - start = a - start + m by omega, Nat.add_mod_right, Nat.mod_eq_of_lt (by omega)]
  · exact Nat.mod_eq_of_lt (by omega)

theorem around_perm (m start : Nat) (l : List Nat) : (around m start l).Perm l :=
  List.perm_insertionSort _ _

theorem around_sorted (m start : Nat) (l : List Nat) :
    (around m start l).Pairwise fun a b => ahead m start a ≤ ahead m start b := by
  have htotal : Std.Total fun a b => ahead m start a ≤ ahead m start b := ⟨fun _ _ => le_total _ _⟩
  have htrans : IsTrans Nat fun a b => ahead m start a ≤ ahead m start b :=
    ⟨fun _ _ _ => le_trans⟩
  exact List.pairwise_insertionSort _ _

section
variable (hs : start < m) (hl : ∀ a ∈ l, a < m)
include hs hl

theorem around_eq (hperm : l'.Perm l)
    (horder : l'.Pairwise fun a b => ahead m start a ≤ ahead m start b) :
    around m start l = l' := by
  refine List.Perm.eq_of_pairwise ?_ (around_sorted m start l) horder
    ((around_perm m start l).trans hperm.symm)
  intro a b ha hb hab hba
  have ha' := hl a ((around_perm m start l).mem_iff.mp ha)
  have hb' := hl b (hperm.mem_iff.mp hb)
  rw [ahead_eq ha' hs, ahead_eq hb' hs] at hab hba
  split_ifs at hab hba <;> omega

theorem around_congr (hperm : l'.Perm l) : around m start l = around m start l' :=
  around_eq hs hl ((around_perm m start l').trans hperm) (around_sorted m start l')

theorem around_split :
    around m start l = (l.filter (start ≤ ·)).insertionSort (· ≤ ·) ++
      (l.filter (· < start)).insertionSort (· ≤ ·) := by
  refine around_eq hs hl ?_ ?_
  · refine ((List.perm_insertionSort _ _).append (List.perm_insertionSort _ _)).trans ?_
    have hfilter : l.filter (· < start) = l.filter fun a => ! decide (start ≤ a) :=
      List.filter_congr fun a _ => by rw [← decide_not, decide_eq_decide, not_le]
    rw [hfilter]
    exact List.filter_append_perm _ _
  · have hle {p : Nat → Bool} : ((l.filter p).insertionSort (· ≤ ·)).Pairwise (· ≤ ·) :=
      List.pairwise_insertionSort _ _
    refine List.pairwise_append.mpr ⟨?_, ?_, ?_⟩
    · refine hle.imp_of_mem fun ha hb hab => ?_
      simp only [List.mem_insertionSort, List.mem_filter, decide_eq_true_eq] at ha hb
      rw [ahead_eq (hl _ ha.1) hs, ahead_eq (hl _ hb.1) hs, if_pos ha.2, if_pos hb.2]
      omega
    · refine hle.imp_of_mem fun ha hb hab => ?_
      simp only [List.mem_insertionSort, List.mem_filter, decide_eq_true_eq] at ha hb
      rw [ahead_eq (hl _ ha.1) hs, ahead_eq (hl _ hb.1) hs, if_neg (by omega), if_neg (by omega)]
      omega
    · intro a ha b hb
      simp only [List.mem_insertionSort, List.mem_filter, decide_eq_true_eq] at ha hb
      have := hl a ha.1
      rw [ahead_eq (hl _ ha.1) hs, ahead_eq (hl _ hb.1) hs, if_pos ha.2, if_neg (by omega)]
      omega

theorem around_pairwise (hnodup : l.Nodup) :
    (around m start l).Pairwise fun a b => ahead m start a < ahead m start b := by
  have hle := around_sorted m start l
  have hne : (around m start l).Pairwise (· ≠ ·) := (around_perm m start l).nodup_iff.mpr hnodup
  refine (hle.and hne).imp_of_mem fun {a b} ha hb hab => ?_
  have ha' := hl a ((around_perm m start l).mem_iff.mp ha)
  have hb' := hl b ((around_perm m start l).mem_iff.mp hb)
  obtain ⟨hab, hne⟩ := hab
  rw [ahead_eq ha' hs, ahead_eq hb' hs] at hab ⊢
  split_ifs at hab ⊢ <;> omega

theorem around_succ (hnodup : l.Nodup) (h : around m start l = before ++ x :: after) :
    around m ((x + 1) % m) l = after ++ (before ++ [x]) := by
  have hmem {c : Nat} (hc : c ∈ before ++ x :: after) : c < m := by
    rw [← h] at hc
    exact hl c ((around_perm m start l).mem_iff.mp hc)
  have hx : x < m := hmem (by simp)
  have hnext : (x + 1) % m < m := Nat.mod_lt _ (by omega)
  have hturn {c : Nat} (hc : c < m) : ahead m ((x + 1) % m) c =
      if ahead m start x < ahead m start c then ahead m start c - ahead m start x - 1
      else ahead m start c + m - ahead m start x - 1 := by
    rw [ahead_eq hc hnext, ahead_eq hc hs, ahead_eq hx hs]
    rcases Nat.lt_or_ge (x + 1) m with hlt | hge
    · rw [Nat.mod_eq_of_lt hlt]
      split_ifs <;> omega
    · obtain rfl : m = x + 1 := by omega
      rw [Nat.mod_self]
      split_ifs <;> omega
  have hwalk := around_pairwise hs hl hnodup
  rw [h, List.pairwise_append, List.pairwise_cons] at hwalk
  obtain ⟨hbefore, ⟨hxa, hafter⟩, hcross⟩ := hwalk
  have hsuffix {c : Nat} (hc : c ∈ after) : ahead m ((x + 1) % m) c =
      ahead m start c - ahead m start x - 1 := by
    rw [hturn (hmem (by simp [hc])), if_pos (hxa c hc)]
  have hupto {c : Nat} (hc : c ∈ before ++ [x]) : ahead m start c ≤ ahead m start x ∧
      ahead m ((x + 1) % m) c = ahead m start c + m - ahead m start x - 1 := by
    have hle : ahead m start c ≤ ahead m start x := by
      rcases List.mem_append.mp hc with hc | hc
      · exact (hcross c hc x List.mem_cons_self).le
      · rw [List.mem_singleton.mp hc]
    have hcm : c < m := hmem (by
      rcases List.mem_append.mp hc with hc | hc
      · exact List.mem_append_left _ hc
      · exact List.mem_append_right _ (by simp_all))
    exact ⟨hle, by rw [hturn hcm, if_neg (by omega)]⟩
  refine around_eq hnext hl ?_ ?_
  · refine List.Perm.trans ?_ (around_perm m start l)
    rw [h, List.append_cons before x after]
    exact List.perm_append_comm
  · refine List.pairwise_append.mpr ⟨?_, ?_, ?_⟩
    · refine hafter.imp_of_mem fun ha hb hab => ?_
      rw [hsuffix ha, hsuffix hb]
      omega
    · have hsorted : (before ++ [x]).Pairwise fun a b => ahead m start a < ahead m start b :=
        List.pairwise_append.mpr ⟨hbefore, List.pairwise_singleton _ _, fun a ha b hb => by
          rw [List.mem_singleton.mp hb]
          exact hcross a ha x List.mem_cons_self⟩
      refine hsorted.imp_of_mem fun ha hb hab => ?_
      rw [(hupto ha).2, (hupto hb).2]
      omega
    · intro a ha b hb
      have hlt : ahead m start a < m := Nat.mod_lt _ (by omega)
      rw [hsuffix ha, (hupto hb).2]
      omega

theorem around_rotate (hnodup : l.Nodup) {k : Nat} (hx : (around m start l)[k]? = some x) :
    around m ((x + 1) % m) l = (around m start l).rotate (k + 1) := by
  obtain ⟨hlt, rfl⟩ := List.getElem?_eq_some_iff.mp hx
  have hcut := (List.take_append_drop k (around m start l)).symm
  rw [List.drop_eq_getElem_cons hlt] at hcut
  rw [around_succ hs hl hnodup hcut, List.rotate_eq_drop_append_take hlt,
    List.take_succ_eq_append_getElem hlt]

end

theorem mem_pieces {α : Type*} {walk : List α} {a : α} {k : Nat} (hk : 0 < k) (h : a ∈ walk) :
    ∃ i < (walk.length + k - 1) / k, a ∈ (walk.rotate (i * min k walk.length)).take k := by
  obtain ⟨j, hj, rfl⟩ := List.getElem_of_mem h
  rcases Nat.le_total walk.length k with hle | hle
  · refine ⟨0, Nat.div_pos (by omega) hk, ?_⟩
    rw [Nat.zero_mul, List.rotate_zero, List.take_of_length_le hle]
    exact h
  · rw [Nat.min_eq_left hle]
    have hmul := Nat.div_mul_le_self j k
    have hmod : j - j / k * k < k := by
      have := Nat.mod_lt j hk
      have := Nat.div_add_mod' j k
      omega
    refine ⟨j / k, ?_, ?_⟩
    · rw [Nat.div_lt_iff_lt_mul hk]
      have := Nat.div_add_mod' (walk.length + k - 1) k
      have := Nat.mod_lt (walk.length + k - 1) hk
      omega
    · rw [List.rotate_eq_drop_append_take (by omega), List.mem_take_iff_getElem]
      refine ⟨j - j / k * k, by simp; omega, ?_⟩
      rw [List.getElem_append_left (by simp; omega), List.getElem_drop]
      congr 1
      omega

end Circle
end VibeOS.Lib
