import VibeOS.Kalloc.Arc

/-!
The accesses of drops keep the invariant of the cell: a users' put gives its share up and the
last one begins the teardown, a put gives its count up and the last one owes the release. So every
run with the counts below saturation keeps it.
-/
namespace VibeOS.Kalloc
open Lib

variable {users : Bool} {S : ArcSys} {r : Nat} {kind : RefKind}

section
variable (h : Inv users S)
include h

theorem Inv.unshared (hr : S.refs[r]? = some ⟨kind, .body⟩) (hne : S.users ≠ 1) :
    Inv users ({ S with users := S.users - 1 }.setRef r ⟨kind, .putLoad false⟩) := by
  have hpos := le_total Ref.share (List.mem_of_getElem? hr)
  have ht := total_set Ref.tearing hr ⟨kind, .putLoad false⟩
  simp only [Ref.share, Ref.tearing, if_false, reduceCtorEq] at ht hpos
  have hshares := h.shares
  obtain ⟨h1, h2, h3⟩ := h.counts (x := ⟨kind, .putLoad false⟩) (C := S.count)
    (U := S.users - 1) hr trivial rfl (by simp only [Ref.share]; omega)
  refine ⟨h1, h2, h3, h.faultless, h.ledger,
    h.last_set hr (fun he => by cases he) (fun he => by cases he), h.owed, h.unowed, ?_, ?_, ?_⟩
  · intro hu
    change .zero ∈ S.log ↔ S.users - 1 = 0
    rw [h.zero hu]
    omega
  · intro hu
    have := (h.plain hu).1
    omega
  · change S.log.count .tornDown + total Ref.tearing (S.refs.set r _) = if .zero ∈
      S.log then 1 else 0
    have := h.torn
    omega

theorem Inv.zeroed (hr : S.refs[r]? = some ⟨kind, .body⟩) (h1 : S.users = 1) :
    Inv users ({ S with users := 0, log := .zero :: S.log }.setRef r ⟨kind, .tearing⟩) := by
  obtain ⟨hlast, -⟩ := h.unreleased hr (fun he => by cases he)
  have hzero : .zero ∉ S.log := by
    cases users with
    | false => exact (h.plain rfl).2
    | true =>
      intro hz
      have := (h.zero rfl).mp hz
      omega
  have ht := total_set Ref.tearing hr ⟨kind, .tearing⟩
  simp only [Ref.tearing, if_false, if_true, reduceCtorEq] at ht
  obtain ⟨h2, h3, h4⟩ := h.counts (x := ⟨kind, .tearing⟩) (C := S.count) (U := 0) hr trivial
    rfl (by simp only [Ref.share]; omega)
  refine ⟨h2, h3, h4, h.faultless, ⟨⟨hzero, hlast⟩, h.ledger⟩, ?_, ?_, ?_, ?_, ?_, ?_⟩
  · simpa [ArcSys.setRef] using h.last_set hr (fun he => by cases he) (fun he => by cases he)
  · simpa [ArcSys.setRef] using h.owed
  · simpa [ArcSys.setRef] using h.unowed
  · intro hu
    change .zero ∈ Event.zero :: S.log ↔ 0 = 0
    simp
  · intro hu
    have := (h.plain hu).1
    omega
  · change (Event.zero :: S.log).count .tornDown + total Ref.tearing (S.refs.set r _) =
      if .zero ∈ Event.zero :: S.log then 1 else 0
    have htorn := h.torn
    rw [if_neg hzero] at htorn
    rw [if_pos List.mem_cons_self, List.count_cons_of_ne (by decide)]
    omega

theorem Inv.tornDown (hr : S.refs[r]? = some ⟨kind, .tearing⟩) :
    Inv users ({ S with log := .tornDown :: S.log }.setRef r ⟨kind, .putLoad false⟩) := by
  obtain ⟨hlast, -⟩ := h.unreleased hr (fun he => by cases he)
  have hpos := le_total Ref.tearing (List.mem_of_getElem? hr)
  have ht := total_set Ref.tearing hr ⟨kind, .putLoad false⟩
  simp only [Ref.tearing, if_false, if_true, reduceCtorEq] at ht hpos
  have htorn := h.torn
  have hzero : .zero ∈ S.log := by
    by_contra hz
    rw [if_neg hz] at htorn
    omega
  rw [if_pos hzero] at htorn
  have hnot : .tornDown ∉ S.log := List.count_eq_zero.mp (by omega)
  obtain ⟨h1, h2, h3⟩ := h.counts (x := ⟨kind, .putLoad false⟩) hr trivial rfl rfl
  refine ⟨h1, h2, h3, h.faultless, ⟨⟨hzero, hnot, hlast⟩, h.ledger⟩, ?_, ?_, ?_, ?_, ?_, ?_⟩
  · simpa [ArcSys.setRef] using h.last_set hr (fun he => by cases he) (fun he => by cases he)
  · simpa [ArcSys.setRef] using h.owed
  · simpa [ArcSys.setRef] using h.unowed
  · simpa [ArcSys.setRef] using h.zero
  · simpa [ArcSys.setRef] using h.plain
  · change (Event.tornDown :: S.log).count .tornDown + total Ref.tearing (S.refs.set r _) =
      if .zero ∈ Event.tornDown :: S.log then 1 else 0
    rw [if_pos (List.mem_cons_of_mem _ hzero), List.count_cons_self]
    omega

theorem Inv.counted {defer : Bool} {c : Nat} (hr : S.refs[r]? = some ⟨kind, .putCas defer c⟩)
    (hne : S.count ≠ 1) :
    Inv users ({ S with count := S.count - 1 }.setRef r ⟨kind, .gone⟩) := by
  obtain ⟨hlast, -⟩ := h.unreleased hr (by nofun)
  have hpos := le_total Ref.live (List.mem_of_getElem? hr)
  have ht := total_set Ref.tearing hr ⟨kind, .gone⟩
  simp only [Ref.live, Ref.tearing, if_false, reduceCtorEq] at ht hpos
  have hcount := h.count
  obtain ⟨h1, h2, h3⟩ := h.counts (x := ⟨kind, .gone⟩) (C := S.count - 1) (U := S.users) hr
    trivial (by simp only [Ref.live, if_false, if_true, reduceCtorEq]; omega) rfl
  refine ⟨h1, h2, h3, h.faultless, h.ledger, ?_, h.owed, h.unowed, h.zero, h.plain, ?_⟩
  · change total Ref.live (S.refs.set r _) = 0 ↔ .lastPut ∈ S.log
    refine ⟨fun h0 => ?_, fun hin => absurd hin hlast⟩
    omega
  · change S.log.count .tornDown + total Ref.tearing (S.refs.set r _) = if .zero ∈
      S.log then 1 else 0
    have := h.torn
    omega

theorem Inv.lastPut {defer : Bool} {c : Nat} (hr : S.refs[r]? = some ⟨kind, .putCas defer c⟩)
    (h1 : S.count = 1) :
    Inv users ({ S with count := 0, lasts := defer :: S.lasts, log := .lastPut :: S.log }.setRef r
      ⟨kind, .gone⟩) := by
  obtain ⟨hlast, hrel⟩ := h.unreleased hr (by nofun)
  have ht := total_set Ref.tearing hr ⟨kind, .gone⟩
  simp only [Ref.tearing, if_false, reduceCtorEq] at ht
  obtain ⟨hnone, hshares, hbelow⟩ := h.counts (x := ⟨kind, .gone⟩) (C := 0) (U := S.users) hr
    trivial (by simp only [Ref.live, if_false, if_true, reduceCtorEq]; omega) rfl
  have hshare : total Ref.share (S.refs.set r ⟨kind, .gone⟩) = 0 :=
    total_eq_zero hnone.symm fun _ _ => Ref.share_of_not_live
  have htear : total Ref.tearing (S.refs.set r ⟨kind, .gone⟩) = 0 :=
    total_eq_zero hnone.symm fun _ _ => Ref.tearing_of_not_live
  have htorn := h.torn
  have hdone : users = true → .tornDown ∈ S.log := by
    intro hu
    have hz : .zero ∈ S.log := (h.zero hu).mpr (by omega)
    rw [if_pos hz] at htorn
    exact List.count_pos_iff.mp (by omega)
  have hunowed := h.unowed hlast
  refine ⟨hnone, hshares, hbelow, h.faultless, ⟨⟨hlast, hdone⟩, h.ledger⟩, ?_, ?_, ?_, ?_, ?_, ?_⟩
  · exact ⟨fun _ => List.mem_cons_self, fun _ => hnone.symm⟩
  · intro _
    change (Event.lastPut :: S.log).count .released + (defer :: S.lasts).length + S.deferred = 1
    rw [List.count_cons_of_ne (by decide), List.length_cons]
    omega
  · exact fun hn => absurd List.mem_cons_self hn
  · simpa [ArcSys.setRef] using h.zero
  · simpa [ArcSys.setRef] using h.plain
  · change (Event.lastPut :: S.log).count .tornDown + total Ref.tearing (S.refs.set r _) =
      if .zero ∈ Event.lastPut :: S.log then 1 else 0
    simp only [List.mem_cons, reduceCtorEq, false_or]
    rw [List.count_cons_of_ne (by decide)]
    omega

theorem Inv.put (hb : S.count < arcSaturated ∧ S.users < arcSaturated) {spurious : Bool}
    {state : RefState} (hr : S.refs[r]? = some ⟨kind, state⟩)
    (hheld : ∀ calls, state ≠ .held calls) (hgone : state ≠ .gone) :
    Inv users ((S.putStep spurious state).1.setRef r ⟨kind, (S.putStep spurious state).2⟩) := by
  cases state with
  | held calls => exact absurd rfl (hheld calls)
  | gone => exact absurd rfl hgone
  | body =>
    have hpos := le_total Ref.share (List.mem_of_getElem? hr)
    have hshares := h.shares
    simp only [Ref.share] at hpos
    have hsub : (S.users + usizeMax) % 2 ^ 64 = S.users - 1 := by
      have hlt := hb.2
      unfold arcSaturated at hlt
      unfold usizeMax
      omega
    unfold ArcSys.putStep
    dsimp only
    rw [hsub]
    split
    · rename_i hne
      exact h.unshared hr hne
    · rename_i h1
      have h1 : S.users = 1 := not_not.mp h1
      rw [h1]
      exact h.zeroed hr h1
  | tearing => exact h.tornDown hr
  | putLoad defer => exact h.setRef hr hb.1 rfl rfl rfl
  | putCas defer c =>
    have hbelow : c < arcSaturated := h.below _ (List.mem_of_getElem? hr)
    unfold ArcSys.putStep
    dsimp only
    rw [if_neg (Nat.not_le.mpr hbelow)]
    split
    · rename_i hc
      obtain ⟨rfl, -⟩ := hc
      split
      · rename_i hne
        exact h.counted hr hne
      · rename_i h1
        have h1 : S.count = 1 := not_not.mp h1
        rw [h1]
        exact h.lastPut hr h1
    · exact h.setRef hr hb.1 rfl rfl rfl

theorem Inv.released (hlast : .lastPut ∈ S.log) {lasts : List Bool} {deferred : Nat}
    (hone : lasts.length + deferred + 1 = S.lasts.length + S.deferred) :
    Inv users { S with lasts := lasts, deferred := deferred, log := .released :: S.log } := by
  have howed := h.owed hlast
  have hnot : .released ∉ S.log := List.count_eq_zero.mp (by omega)
  refine ⟨h.count, h.shares, h.below, h.faultless, ⟨⟨hlast, hnot⟩, h.ledger⟩, ?_, ?_, ?_, ?_,
    ?_, ?_⟩
  · simpa using h.last
  · intro _
    change (Event.released :: S.log).count .released + lasts.length + deferred = 1
    rw [List.count_cons_self]
    omega
  · exact fun hn => absurd (List.mem_cons_of_mem _ hlast) hn
  · simpa using h.zero
  · simpa using h.plain
  · change (Event.released :: S.log).count .tornDown + total Ref.tearing S.refs =
      if .zero ∈ Event.released :: S.log then 1 else 0
    have := h.torn
    simp only [List.mem_cons, reduceCtorEq, false_or]
    rw [List.count_cons_of_ne (by decide)]
    omega

theorem Inv.owing (hpos : 0 < S.lasts.length + S.deferred) : .lastPut ∈ S.log := by
  by_contra hn
  have := h.unowed hn
  omega

end

variable {S' : ArcSys}

def Below (S : ArcSys) : Prop := S.count < arcSaturated ∧ S.users < arcSaturated

instance (S : ArcSys) : Decidable (Below S) := inferInstanceAs (Decidable (_ ∧ _))

theorem Inv.step (h : Inv users S) (hb : Below S) {l : Label} (hs : S.step l = some S') :
    Inv users S' := by
  cases l with
  | clone r | pin r =>
    simp only [ArcSys.step] at hs
    split at hs
    · rename_i hr
      cases hs
      refine h.setRef hr ?_ rfl ?_ rfl
      · exact List.forall_mem_cons.mpr ⟨trivial, h.below _ (List.mem_of_getElem? hr)⟩
      · simp [Ref.share, Borrow.share]
    · cases hs
  | drop r =>
    simp only [ArcSys.step] at hs
    split at hs
    · rename_i hr
      cases hs
      exact h.setRef hr trivial rfl rfl rfl
    · rename_i hr
      cases hs
      exact h.setRef hr trivial rfl rfl rfl
    · cases hs
  | putDeferred r =>
    simp only [ArcSys.step] at hs
    split at hs
    · rename_i hr
      cases hs
      exact h.setRef hr trivial rfl rfl rfl
    · cases hs
  | call r j spurious =>
    simp only [ArcSys.step] at hs
    split at hs
    · rename_i kind calls hr
      split at hs
      · rename_i b hj
        cases hs
        rw [h.touch_eq hr (fun he => by cases he)]
        exact h.call hb hr hj
      · cases hs
    · cases hs
  | put r spurious =>
    simp only [ArcSys.step] at hs
    split at hs
    · rename_i kind state hr
      split at hs
      · cases hs
      · cases hs
      · rename_i hheld hgone
        cases hs
        rw [h.touch_eq hr hgone]
        exact h.put hb hr hheld hgone
    · cases hs
  | last context sink =>
    simp only [ArcSys.step] at hs
    split at hs
    · cases hs
    · rename_i defer lasts hl
      have hlast := h.owing (by rw [hl, List.length_cons]; omega)
      have hone : lasts.length + S.deferred + 1 = S.lasts.length + S.deferred := by
        rw [hl, List.length_cons]
        omega
      split at hs
      · cases hs
        exact h.released hlast hone
      · split at hs
        · cases hs
          have howed := h.owed hlast
          refine { h with owed := fun _ => ?_, unowed := fun hn => absurd hlast hn }
          change S.log.count .released + lasts.length + (S.deferred + 1) = 1
          omega
        · cases hs
          exact h.released hlast hone
  | runDeferred =>
    simp only [ArcSys.step] at hs
    split at hs
    · cases hs
    · cases hs
      have hone : S.lasts.length + (S.deferred - 1) + 1 = S.lasts.length + S.deferred := by omega
      exact h.released (h.owing (by omega)) hone

theorem inv_init (users : Bool) : Inv users (.init users) := by
  cases users <;> refine ⟨rfl, rfl, ?_, rfl, trivial, ?_, ?_, ?_, ?_, ?_, ?_⟩ <;>
    simp [ArcSys.init, RefState.Below, total, Ref.live, Ref.tearing]

/-- The states of a cell made by `init users` while the counts stay below saturation. -/
inductive Reach (users : Bool) : ArcSys → Prop
  | init : Reach users (.init users)
  | step {S S' : ArcSys} {l : Label} : Reach users S → Below S → S.step l = some S' → Reach users S'

theorem Reach.inv (h : Reach users S) : Inv users S := by
  induction h with
  | init => exact inv_init users
  | step _ hb hs ih => exact ih.step hb hs

/-- The reference is still a users' reference: its drop has not given its share up. -/
def Ref.IsUser (x : Ref) : Prop :=
  x.kind = .users ∧ (x.state = .body ∨ ∃ calls, x.state = .held calls)

/-- What the cell's counts and its log say in every state. -/
structure Exactly (users : Bool) (S : ArcSys) : Prop where
  count : S.count = S.refs.countP fun x => x.state ≠ .gone
  faultless : S.fault = false
  /-- Each event at most once but pins, and in order. -/
  ledger : Ledger users S.log
  lastPut : .lastPut ∈ S.log ↔ ∀ x ∈ S.refs, x.state = .gone
  /-- Once the last reference is gone the release is done, or owed by exactly one put or one
  deferred call. -/
  released : .lastPut ∈ S.log → S.log.count .released + S.lasts.length + S.deferred = 1
  unreleased : .lastPut ∉ S.log → .released ∉ S.log ∧ S.lasts = [] ∧ S.deferred = 0
  zero : users = true → (.zero ∈ S.log ↔ S.users = 0)
  /-- From the moment the users count is zero the teardown is running once, or has run once. -/
  torn : .zero ∈ S.log →
    S.log.count .tornDown + S.refs.countP (fun x => x.state = .tearing) = 1
  alone : .zero ∈ S.log → ∀ x ∈ S.refs, ¬ x.IsUser

theorem total_live (l : List Ref) : total Ref.live l = l.countP fun x => x.state ≠ .gone := by
  induction l with
  | nil => rfl
  | cons x l ih =>
    rw [total_cons, ih, List.countP_cons]
    by_cases hx : x.state = .gone <;> simp [Ref.live, hx, Nat.add_comm]

theorem total_tearing (l : List Ref) :
    total Ref.tearing l = l.countP fun x => x.state = .tearing := by
  induction l with
  | nil => rfl
  | cons x l ih =>
    rw [total_cons, ih, List.countP_cons]
    by_cases hx : x.state = .tearing <;> simp [Ref.tearing, hx, Nat.add_comm]

theorem Inv.not_isUser (h : Inv users S) (hz : .zero ∈ S.log) {x : Ref} (hx : x ∈ S.refs) :
    ¬ x.IsUser := by
  have hu : S.users = 0 := by
    cases users with
    | false => exact absurd hz (h.plain rfl).2
    | true => exact (h.zero rfl).mp hz
  have hle := le_total Ref.share hx
  have hshares := h.shares
  rintro ⟨hk, hb | ⟨calls, hc⟩⟩
  · simp only [Ref.share, hb] at hle
    omega
  · simp only [Ref.share, hc, hk, if_true] at hle
    omega

/-- The count is the references, and the teardown, the last put and the release come once each
and in this order. -/
theorem counted_exactly (h : Reach users S) : Exactly users S := by
  have hi := h.inv
  refine ⟨?_, hi.faultless, hi.ledger, ?_, hi.owed, fun hn => ?_, hi.zero, fun hz => ?_,
    fun hz x hx => hi.not_isUser hz hx⟩
  · rw [hi.count, total_live]
  · rw [← hi.last, total_live, List.countP_eq_zero]
    simp
  · have := hi.unowed hn
    exact ⟨List.count_eq_zero.mp (by omega), List.length_eq_zero_iff.mp (by omega), by omega⟩
  · have := hi.torn
    rw [if_pos hz, total_tearing] at this
    exact this

def ArcSys.play : List Label → ArcSys → Option ArcSys
  | [], S => some S
  | l :: ls, S => if Below S then (S.step l).bind (play ls) else none

theorem Reach.play {ls : List Label} (h : Reach users S) (hs : S.play ls = some S') :
    Reach users S' := by
  induction ls generalizing S with
  | nil =>
    cases hs
    exact h
  | cons l ls ih =>
    unfold ArcSys.play at hs
    split at hs
    · rename_i hb
      obtain ⟨S₁, hs₁, hs⟩ := Option.bind_eq_some_iff.mp hs
      exact ih (.step h hb hs₁) hs
    · cases hs

/-- A core reference is cloned and pins the cell while the first user drops it; the pin's user
is the last one, and the core reference's deferred put the last put. -/
theorem counted_exactly_pinned : ∃ S, Reach true S ∧
    S.log = [.released, .lastPut, .tornDown, .zero, .pinned] ∧ Exactly true S := by
  have hrun : ((ArcSys.init true).play
      [.clone 0, .call 0 0 false, .call 0 0 false, .pin 1, .call 1 0 false, .drop 0,
       .call 1 0 false, .put 0 false, .call 1 0 false, .put 0 false, .call 1 0 true, .put 0 true,
       .put 0 false, .call 1 0 false, .call 1 0 false, .drop 2, .put 2 false, .put 2 false,
       .putDeferred 1, .put 2 false, .put 1 false, .put 2 false, .put 1 false, .put 1 false,
       .last true true, .runDeferred]).map ArcSys.log =
      some [.released, .lastPut, .tornDown, .zero, .pinned] := by
    decide +kernel
  obtain ⟨S, hS, hlog⟩ := Option.map_eq_some_iff.mp hrun
  have hreach : Reach true S := Reach.init.play hS
  exact ⟨S, hreach, hlog, counted_exactly hreach⟩

end VibeOS.Kalloc
