import Mathlib.Algebra.BigOperators.Group.Multiset.Basic
import VibeOS.Block.QueueLedger
import VibeOS.Lib.History

/-!
The driver finishes. Each dispatch and each completion brings the queue nearer to its end, and until
then there is one to make; so a driver that goes on as long as there is something to do is handed
every queued request and every owed flush.
-/
namespace VibeOS.Block.Queue
open Lib

variable {q q' : Queue} {r : Request} {i : Fin maxQueue}

/-- How many acts of the driver a queued request still takes: its dispatch and its end, and the same
for the flush of an emulated `Fua` write. -/
def requestSteps (nativeFua : Bool) (r : Request) : Nat := if r.fua && !nativeFua then 4 else 2

def flightSteps (f : Flight) : Nat :=
  match f.state with
  | .flushDue => 2
  | .dispatched => if f.emulatedFua then 3 else 1

def stepsLeft (q : Queue) : Nat :=
  (q.queued.map (requestSteps q.nativeFua)).sum + (q.flying.map flightSteps).sum

theorem flightSteps_flightOf (r : Request) (nativeFua : Bool) :
    flightSteps (flightOf r (r.fua && !nativeFua)) + 1 = requestSteps nativeFua r := by
  unfold flightSteps flightOf requestSteps
  cases r.fua && !nativeFua <;> rfl

theorem flightSteps_pos (f : Flight) : 0 < flightSteps f := by
  unfold flightSteps
  split
  · decide
  · split <;> decide

theorem stepsLeft_pick (h : q.pick = (some r, q')) : q'.stepsLeft < q.stepsLeft := by
  obtain ⟨hnative, ⟨f, rest, hdue, hfly, -, hq, hfly', -⟩ | ⟨hq, hfly, -⟩⟩ := pick_moves h
  · have hf : flightSteps f = 2 := by
      unfold flightSteps
      rw [hdue]
    have hr : flightSteps (flightOf r false) = 1 := rfl
    rw [stepsLeft, stepsLeft, hnative, hq, hfly, hfly', Multiset.map_cons, Multiset.map_cons,
      Multiset.sum_cons, Multiset.sum_cons, hf, hr]
    omega
  · have hr := flightSteps_flightOf r q.nativeFua
    rw [stepsLeft, stepsLeft, hnative, hq, hfly, Multiset.map_cons, Multiset.map_cons,
      Multiset.sum_cons, Multiset.sum_cons]
    omega

theorem pick_none (h : q.pick.1 = none) : q.pick.2 = q := by
  unfold pick at h ⊢
  split
  · rename_i hd
    rw [hd] at h
    cases h
  · rename_i hd
    rw [hd] at h
    simp only at h
    split
    · rfl
    · rename_i hn
      rw [if_neg hn] at h
      split
      · rfl
      · rename_i free hfree
        rw [hfree] at h
        simp only at h
        split
        · rfl
        · rename_i hc
          rw [hc] at h
          cases h

theorem stepsLeft_congr (hslots : q'.slots = q.slots) (hnative : q'.nativeFua = q.nativeFua) :
    q'.stepsLeft + (q.flying.map flightSteps).sum = q.stepsLeft +
      (q'.flying.map flightSteps).sum := by
  rw [stepsLeft, stepsLeft, hnative, queued, queued, hslots]
  omega

theorem stepsLeft_complete (q : Queue) (seq : Nat) :
    ((q.complete seq).2 = q ∧ ∀ f ∈ q.flying, f.state = .dispatched → f.seq ≠ seq) ∨
      (q.complete seq).2.stepsLeft < q.stepsLeft := by
  obtain ⟨hslots, -, hnative, ⟨heq, hno⟩ | ⟨f, rest, -, hd, hfly, hcase⟩⟩ := complete_moves q seq
  · exact .inl ⟨by rw [heq], hno⟩
  · have hsum := stepsLeft_congr hslots hnative
    rw [hfly, Multiset.map_cons, Multiset.sum_cons] at hsum
    rcases hcase with ⟨he, -, hfly'⟩ | ⟨-, -, hfly'⟩
    · have hf : flightSteps f = 3 := by
        unfold flightSteps
        rw [hd, he]
        rfl
      have hdue : flightSteps { f with state := .flushDue } = 2 := rfl
      rw [hfly', Multiset.map_cons, Multiset.sum_cons] at hsum
      omega
    · have := flightSteps_pos f
      rw [hfly'] at hsum
      omega

theorem stepsLeft_abort (q : Queue) (seq : Nat) :
    (q.abort seq = q ∧ ∀ f ∈ q.flying, f.state = .dispatched → f.seq ≠ seq) ∨
      (q.abort seq).stepsLeft < q.stepsLeft := by
  obtain ⟨hslots, -, hnative, ⟨heq, hno⟩ | ⟨f, -, -, hfly⟩⟩ := retire_clears q seq
  · exact .inl ⟨heq, hno⟩
  · have hsum := stepsLeft_congr hslots hnative
    have := flightSteps_pos f
    rw [hfly, Multiset.map_cons, Multiset.sum_cons] at hsum
    exact .inr (by rw [Queue.abort]; omega)

/-- An act of the driver, once nothing more is submitted or requeued. -/
inductive Drive where
  | pick
  | complete (seq : Nat)
  | abort (seq : Nat)
  | idle

def drive (q : Queue) : Drive → Queue
  | .pick => q.pick.2
  | .complete seq => (q.complete seq).2
  | .abort seq => q.abort seq
  | .idle => q

/-- The queue after the first acts of a driver. -/
def driven (q : Queue) (acts : Nat → Drive) : Nat → Queue
  | 0 => q
  | t + 1 => (driven q acts t).drive (acts t)

def handOut (q : Queue) : Drive → Option Request
  | .pick => q.pick.1
  | _ => none

/-- The requests handed out by the first acts. -/
def handedOut (q : Queue) (acts : Nat → Drive) (N : Nat) : Multiset Request :=
  ((List.range N).filterMap fun t => (driven q acts t).handOut (acts t) : List Request)

/-- The driver picks while it can, and completes or aborts every dispatch. -/
structure Diligent (q : Queue) (acts : Nat → Drive) : Prop where
  picks : ∀ t, (driven q acts t).pick.1 ≠ none → ∃ u, t ≤ u ∧ acts u = .pick
  ends : ∀ t i f, (driven q acts t).flights i = some f → f.state = .dispatched →
    ∃ u, t ≤ u ∧ (acts u = .complete f.seq ∨ acts u = .abort f.seq)

theorem drive_cases (q : Queue) (a : Drive) :
    q.drive a = q ∨ (q.drive a).stepsLeft < q.stepsLeft := by
  cases a with
  | pick =>
    cases hp : q.pick.1 with
    | none => exact .inl (pick_none hp)
    | some r => exact .inr (stepsLeft_pick (Prod.ext hp rfl))
  | complete seq => exact (stepsLeft_complete q seq).imp (·.1) id
  | abort seq => exact (stepsLeft_abort q seq).imp (·.1) id
  | idle => exact .inl rfl

def Idle (q : Queue) : Prop := q.queued = 0 ∧ q.flying = 0

theorem Counted.drive (h : q.Counted) (a : Drive) : (q.drive a).Counted := by
  cases a with
  | pick => exact h.pick
  | complete seq => exact h.complete seq
  | abort seq => exact h.retire seq
  | idle => exact h

theorem Counted.driven (h : q.Counted) (acts : Nat → Drive) (t : Nat) :
    (q.driven acts t).Counted := by
  induction t with
  | zero => exact h
  | succ t ih => exact ih.drive _

theorem pick_or_dispatched (h : q.Counted) (hidle : ¬ q.Idle) :
    q.pick.1 ≠ none ∨ ∃ i f, q.flights i = some f ∧ f.state = .dispatched := by
  by_cases hfly : q.flying = 0
  · have hnone : ∀ j, q.flights j = none := by
      intro j
      cases hj : q.flights j with
      | none => rfl
      | some f =>
        have hmem : f ∈ q.flying := mem_filled.mpr ⟨j, hj⟩
        rw [hfly] at hmem
        exact absurd hmem (Multiset.notMem_zero f)
    have hqueued : q.queued ≠ 0 := fun hq => hidle ⟨hq, hfly⟩
    obtain ⟨r, hr⟩ := Multiset.exists_mem_of_ne_zero hqueued
    obtain ⟨i, hi⟩ := mem_filled.mp hr
    have hn : q.n ≠ 0 := by
      rw [h]
      exact fun hz => hqueued (Multiset.card_eq_zero.mp hz)
    obtain ⟨r', hr'⟩ :=
      pick_of_queued hn hi (fun j f hf => by rw [hnone j] at hf; cases hf) ⟨i, hnone i⟩
    exact .inl (by rw [hr']; exact Option.some_ne_none r')
  · obtain ⟨f, hf⟩ := Multiset.exists_mem_of_ne_zero hfly
    obtain ⟨i, hi⟩ := mem_filled.mp hf
    cases hs : f.state with
    | dispatched => exact .inr ⟨i, f, hi, hs⟩
    | flushDue =>
      obtain ⟨r, hr⟩ := pick_of_due hi hs
      exact .inl (by rw [hr]; exact Option.some_ne_none r)

theorem Diligent.idle {acts : Nat → Drive} (hd : q.Diligent acts) (h : q.Counted) :
    ∃ N, (q.driven acts N).Idle := by
  have hlt : ∀ {p p' : Queue}, p'.stepsLeft < p.stepsLeft → p' ≠ p := by
    rintro p p' hlt rfl
    omega
  have hhelp : ∀ t, ¬ (q.driven acts t).Idle →
      ∃ u, t ≤ u ∧
      (q.driven acts u = q.driven acts t → q.driven acts (u + 1) ≠ q.driven acts u) := by
    intro t hidle
    rcases pick_or_dispatched (h.driven acts t) hidle with hp | ⟨i, f, hf, hs⟩
    · obtain ⟨u, htu, hu⟩ := hd.picks t hp
      refine ⟨u, htu, fun hsame => ?_⟩
      obtain ⟨r, hr⟩ := Option.ne_none_iff_exists'.mp hp
      have hr : (q.driven acts u).pick.1 = some r := by rw [hsame, hr]
      rw [driven, hu]
      exact hlt (stepsLeft_pick (Prod.ext hr rfl))
    · obtain ⟨u, htu, hu⟩ := hd.ends t i f hf hs
      refine ⟨u, htu, fun hsame => ?_⟩
      have hmem : f ∈ (q.driven acts u).flying := by
        rw [hsame]
        exact mem_filled.mpr ⟨i, hf⟩
      rcases hu with hu | hu
      · rw [driven, hu]
        exact hlt ((stepsLeft_complete _ _).resolve_left fun hno => hno.2 f hmem hs rfl)
      · rw [driven, hu]
        exact hlt ((stepsLeft_abort _ _).resolve_left fun hno => hno.2 f hmem hs rfl)
  obtain ⟨N, -, hN⟩ :=
    exists_final (q.driven acts) stepsLeft Idle (fun t => drive_cases _ _) hhelp 0
  exact ⟨N, hN⟩

theorem handedOut_succ (q : Queue) (acts : Nat → Drive) (t : Nat) :
    q.handedOut acts (t + 1) =
      q.handedOut acts t + (((q.driven acts t).handOut (acts t)).toList : Multiset Request) := by
  rw [handedOut, List.range_succ, List.filterMap_append, ← Multiset.coe_add, handedOut]
  cases hout : (q.driven acts t).handOut (acts t) <;> simp [hout]

theorem queued_drive (q : Queue) (a : Drive) :
    q.queued ≤ (q.drive a).queued + ((q.handOut a).toList : Multiset Request) := by
  cases a with
  | pick =>
    change q.queued ≤ q.pick.2.queued + (q.pick.1.toList : Multiset Request)
    cases hp : q.pick.1 with
    | none =>
      rw [pick_none hp]
      exact Multiset.le_add_right _ _
    | some r =>
      obtain ⟨-, ⟨f, rest, -, -, -, hq, -, -⟩ | ⟨hq, -, -⟩⟩ :=
        pick_moves (Prod.ext hp rfl : q.pick = (some r, q.pick.2))
      · rw [hq]
        exact Multiset.le_add_right _ _
      · rw [hq, Option.toList_some, Multiset.coe_singleton, add_comm, Multiset.singleton_add]
  | complete seq =>
    rw [queued, ← (complete_moves q seq).1]
    exact Multiset.le_add_right _ _
  | abort seq =>
    rw [queued, ← (retire_clears q seq).1]
    exact Multiset.le_add_right _ _
  | idle => exact Multiset.le_add_right _ _

/-- The waiters of the writes whose flush is owed. -/
def owed (q : Queue) : Multiset (List Nat) := (inState .flushDue q.flying).map Flight.waiters

def flushed (rs : Multiset Request) : Multiset (List Nat) :=
  (rs.filter fun r => r.bio.op = .flush).map Request.waiters

theorem flushed_add (rs rs' : Multiset Request) :
    flushed (rs + rs') = flushed rs + flushed rs' := by
  rw [flushed, Multiset.filter_add, Multiset.map_add, flushed, flushed]

theorem owed_drive (q : Queue) (a : Drive) :
    q.owed ≤ (q.drive a).owed + flushed ((q.handOut a).toList : Multiset Request) := by
  have hdispatched : ∀ {f : Flight}, f.state = .dispatched → f.state ≠ .flushDue := by
    intro f hd hdue
    rw [hd] at hdue
    cases hdue
  cases a with
  | pick =>
    change q.owed ≤ q.pick.2.owed + flushed (q.pick.1.toList : Multiset Request)
    cases hp : q.pick.1 with
    | none =>
      rw [pick_none hp]
      exact Multiset.le_add_right _ _
    | some r =>
      obtain ⟨-, ⟨f, rest, hdue, hfly, hr, -, hfly', -⟩ | ⟨-, hfly, -⟩⟩ :=
        pick_moves (Prod.ext hp rfl : q.pick = (some r, q.pick.2))
      · have hout : flushed ([r] : List Request) = {f.waiters} := by
          rw [hr]
          rfl
        rw [owed, hfly, inState_cons_of_eq hdue, owed, hfly', inState_cons_of_ne (hdispatched rfl),
          Multiset.map_cons, Option.toList_some, hout, add_comm, Multiset.singleton_add]
      · rw [owed, owed, hfly, inState_cons_of_ne (hdispatched rfl)]
        exact Multiset.le_add_right _ _
  | complete seq =>
    refine le_trans ?_ (Multiset.le_add_right _ _)
    obtain ⟨-, -, -, ⟨heq, -⟩ | ⟨f, rest, -, hd, hfly, ⟨-, -, hfly'⟩ | ⟨-, -, hfly'⟩⟩⟩ :=
      complete_moves q seq
    · rw [drive, heq]
    · have hdue : ({ f with state := .flushDue } : Flight).state = .flushDue := rfl
      rw [drive, owed, owed, hfly, hfly', inState_cons_of_ne (hdispatched hd),
        inState_cons_of_eq hdue, Multiset.map_cons]
      exact Multiset.le_cons_self _ _
    · rw [drive, owed, owed, hfly, hfly', inState_cons_of_ne (hdispatched hd)]
  | abort seq =>
    refine le_trans ?_ (Multiset.le_add_right _ _)
    obtain ⟨-, -, -, ⟨heq, -⟩ | ⟨f, -, hd, hfly⟩⟩ := retire_clears q seq
    · rw [drive, Queue.abort, heq]
    · rw [drive, owed, owed, hfly, inState_cons_of_ne (hdispatched hd)]
      rfl
  | idle => exact Multiset.le_add_right _ _

theorem queued_driven (q : Queue) (acts : Nat → Drive) (t : Nat) :
    q.queued ≤ (q.driven acts t).queued + q.handedOut acts t := by
  induction t with
  | zero => exact Multiset.le_add_right _ _
  | succ t ih =>
    rw [handedOut_succ, add_comm (q.handedOut acts t), ← add_assoc]
    exact ih.trans (add_le_add_left (queued_drive _ _) _)

theorem owed_driven (q : Queue) (acts : Nat → Drive) (t : Nat) :
    q.owed ≤ (q.driven acts t).owed + flushed (q.handedOut acts t) := by
  induction t with
  | zero => exact Multiset.le_add_right _ _
  | succ t ih =>
    rw [handedOut_succ, flushed_add, add_comm (flushed (q.handedOut acts t)), ← add_assoc]
    exact ih.trans (add_le_add_left (owed_drive _ _) _)

theorem driven_add (q : Queue) (acts : Nat → Drive) (t u : Nat) :
    (q.driven acts t).driven (fun v => acts (t + v)) u = q.driven acts (t + u) := by
  induction u with
  | zero => rfl
  | succ u ih => rw [driven, ih, Nat.add_succ, driven]

/-- Whatever the calls so far, a queue that has a queued request, room in flight and no write or
discard there hands one out. A driver that picks while it can and ends every dispatch comes to an
idle queue; by then it was handed every queued request, and every flush that was owed at any time.
-/
theorem queue_progress (nativeFua : Bool) (cs : List Call) :
    let q := calls nativeFua cs
    ((∃ i r, q.slots i = some r) →
        (∀ i f, q.flights i = some f → f.state = .dispatched → f.bio.op.writesMedia = false) →
        (∃ i, q.flights i = none) → ∃ r, q.pick.1 = some r) ∧
      ∀ acts, q.Diligent acts → ∃ N, (q.driven acts N).Idle ∧ q.queued ≤ q.handedOut acts N ∧
        ∀ t ≤ N, (q.driven acts t).owed ≤
          flushed ((q.driven acts t).handedOut (fun u => acts (t + u)) (N - t)) := by
  intro q
  have hcount : q.Counted := counted_calls nativeFua cs
  refine ⟨fun ⟨i, r, hr⟩ hflights hroom => ?_, fun acts hd => ?_⟩
  · refine pick_of_queued ?_ hr hflights hroom
    rw [hcount, queued, filled_of_some hr, Multiset.card_cons]
    exact Nat.succ_ne_zero _
  · obtain ⟨N, hidle⟩ := hd.idle hcount
    refine ⟨N, hidle, ?_, fun t htN => ?_⟩
    · have hqueued := q.queued_driven acts N
      rwa [hidle.1, zero_add] at hqueued
    · have howed := (q.driven acts t).owed_driven (fun u => acts (t + u)) (N - t)
      have hnone : (q.driven acts N).owed = 0 := by
        rw [owed, hidle.2]
        rfl
      rwa [driven_add, Nat.add_sub_cancel' htN, hnone, zero_add] at howed

/-- A `Fua` write on a device without it: dispatched, completed, then flushed. -/
def fuaActs : Nat → Drive
  | 0 => .pick
  | 1 => .complete 0
  | 2 => .pick
  | 3 => .complete 1
  | _ => .idle

def fuaCalls : List Call := [.submit { Request.new .write 8 1 with waiters := [5], fua := true }]

theorem fuaActs_rest (t : Nat) :
    (calls false fuaCalls).driven fuaActs (4 + t) = (calls false fuaCalls).driven fuaActs 4 := by
  induction t with
  | zero => rfl
  | succ t ih =>
    have hidle : fuaActs (4 + t) = .idle := by
      rw [Nat.add_comm]
      rfl
    rw [← Nat.add_assoc, driven, ih, hidle]
    rfl

theorem fua_diligent : (calls false fuaCalls).Diligent fuaActs := by
  refine ⟨fun t ht => ?_, fun t i f hf hs => ?_⟩
  · match t, ht with
    | 0, _ => exact ⟨0, Nat.le_refl 0, rfl⟩
    | 1, _ => exact ⟨2, by decide, rfl⟩
    | 2, _ => exact ⟨2, Nat.le_refl 2, rfl⟩
    | 3, ht => exact absurd (by decide +kernel) ht
    | t + 4, ht =>
      rw [Nat.add_comm, fuaActs_rest] at ht
      exact absurd (by decide +kernel) ht
  · match t, hf with
    | 0, hf =>
      have hnone : ∀ i, ∀ f ∈ ((calls false fuaCalls).driven fuaActs 0).flights i,
        False := by decide +kernel
      exact absurd hf (hnone i f)
    | 1, hf =>
      have hseq : ∀ i, ∀ f ∈ ((calls false fuaCalls).driven fuaActs 1).flights i, f.seq = 0 := by
        decide +kernel
      exact ⟨1, Nat.le_refl 1, .inl (by rw [hseq i f hf]; rfl)⟩
    | 2, hf =>
      have hdue : ∀ i, ∀ f ∈ ((calls false fuaCalls).driven fuaActs 2).flights i, f.state ≠
          .dispatched := by
        decide +kernel
      exact absurd hs (hdue i f hf)
    | 3, hf =>
      have hseq : ∀ i, ∀ f ∈ ((calls false fuaCalls).driven fuaActs 3).flights i, f.seq = 1 := by
        decide +kernel
      exact ⟨3, Nat.le_refl 3, .inl (by rw [hseq i f hf]; rfl)⟩
    | t + 4, hf =>
      have hnone : ∀ i, ∀ f ∈ ((calls false fuaCalls).driven fuaActs 4).flights i,
        False := by decide +kernel
      rw [Nat.add_comm, fuaActs_rest] at hf
      exact absurd hf (hnone i f)

/-- The queue of the `Fua` write hands something out at once, and the driver's acts come to the end
of it. -/
theorem queue_progress_fua :
    (∃ r, (calls false fuaCalls).pick.1 = some r) ∧
      ∃ N, ((calls false fuaCalls).driven fuaActs N).Idle ∧
        (calls false fuaCalls).queued ≤ (calls false fuaCalls).handedOut fuaActs N := by
  have hflights : ∀ i f, (calls false fuaCalls).flights i = some f → f.state = .dispatched →
      f.bio.op.writesMedia = false := by
    intro i f hf
    cases hf
  have hslot : ∃ i r, (calls false fuaCalls).slots i = some r :=
    ⟨⟨0, by decide⟩, _, show (calls false fuaCalls).slots ⟨0, by decide⟩ = some
      { Request.new .write 8 1 with waiters := [5], fua := true } by decide +kernel⟩
  obtain ⟨hpick, hdriver⟩ := queue_progress false fuaCalls
  obtain ⟨N, hidle, hqueued, -⟩ := hdriver fuaActs fua_diligent
  exact ⟨hpick hslot hflights ⟨⟨0, by decide⟩, rfl⟩, N, hidle, hqueued⟩

end VibeOS.Block.Queue
