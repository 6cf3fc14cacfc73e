import VibeOS.Kalloc.DeferDuty

/-!
Every pushed object is released once. A run that was started takes the list as it is then, releases
what it took and returns, since the others change neither its place nor the links of its objects;
and when all is quiet, the list is empty or there is someone to see to it.
-/
namespace VibeOS.Kalloc
open VibeOS.Lib

variable {C R O : Type}

def DeferAct.isWorker [DecidableEq R] (r : R) : DeferAct C R O → Bool
  | .worker r' => r' = r
  | _ => false

theorem DeferAct.eq_worker [DecidableEq R] {r : R} {a : DeferAct C R O} (h : a.isWorker r = true) :
    a = .worker r := by
  cases a with
  | worker r' => rw [of_decide_eq_true h]
  | _ => cases h

/-- The accesses a run has still to make once it has taken the list and has the objects `l` of it.
-/
def ReleasePc.turns : ReleasePc O → List O → Nat
  | .walk _, l => 2 * l.length + 1
  | .release _ _, l => 2 * l.length
  | _, _ => 0

namespace DeferSys
variable {S : DeferSys C R O} [DecidableEq C] [DecidableEq R] [DecidableEq O] {r : R} {l : List O}

theorem Own.others (h : Own S) {a : DeferAct C R O} (hr : S.workers r ≠ .idle)
    (ha : a.isWorker r = false) :
    (S.step a).workers r = S.workers r ∧ S.released.Sublist (S.step a).released ∧
      ∀ o, S.place o = .worker r → (S.step a).next o = S.next o := by
  rcases S.step_moves a with he | ⟨w, hm, hw⟩
  · rw [he]
    exact ⟨rfl, List.Sublist.refl _, fun _ _ => rfl⟩
  have hne : ∀ {r'}, w = some r' → r ≠ r' := by
    rintro r' rfl rfl
    rw [hw r rfl] at ha
    exact absurd (decide_eq_true rfl) (ha ▸ Bool.false_ne_true)
  -- the object whose link a step writes is with no worker
  have hwrite : ∀ {o v}, (∀ r, S.place o ≠ .worker r) → ∀ x, S.place x = .worker r →
      Function.update S.next o v x = S.next x := by
    intro o v ho x hx
    refine Function.update_of_ne ?_ ..
    rintro rfl
    exact ho r hx
  generalize S.step a = S' at hm ⊢
  cases hm with
  | push | claim | link | retry | swap | enqueue | unclaim =>
    exact ⟨rfl, List.Sublist.refl _, fun _ _ => rfl⟩
  | @store c o cur hc =>
    have ho : S.place o = .caller c := (h.callers c o).mp (by rw [hc]; rfl)
    exact ⟨rfl, List.Sublist.refl _, hwrite fun r => ho ▸ nofun⟩
  | reuse ho => exact ⟨rfl, List.Sublist.refl _, hwrite fun r => ho ▸ nofun⟩
  | start hr' hn =>
    refine ⟨Function.update_of_ne ?_ .., List.Sublist.refl _, fun _ _ => rfl⟩
    rintro rfl
    exact hr hr'
  | clear | take | stop | walk =>
    exact ⟨Function.update_of_ne (hne rfl) .., List.Sublist.refl _, fun _ _ => rfl⟩
  | release =>
    exact ⟨Function.update_of_ne (hne rfl) .., List.sublist_cons_self _ _,
      fun _ _ => rfl⟩

theorem Own.place_of_holds (h : Own S) (hl : (S.workers r).Holds S.next l) {o : O} (ho : o ∈ l) :
    S.place o = .worker r := by
  obtain ⟨l', hl', hmem⟩ := h.hands r
  refine (hmem o).mp ?_
  cases hpc : S.workers r with
  | walk p =>
    rw [hpc] at hl hl'
    exact Chained.unique hl hl' ▸ ho
  | release x p =>
    rw [hpc] at hl hl'
    obtain ⟨l₁, rfl, -, h₁⟩ := hl
    obtain ⟨l₂, rfl, -, h₂⟩ := hl'
    rw [← h₁.unique h₂]
    exact ho
  | idle | clear | take =>
    rw [hpc] at hl
    obtain rfl : l = [] := hl
    cases ho

/-- A run that has taken the list releases it and returns after so many accesses of its own,
whatever the others do meanwhile. -/
theorem release_ends (acts : List (DeferAct C R O)) (h : Own S) (hl : (S.workers r).Holds S.next l)
    (hpos : 0 < (S.workers r).turns l)
    (hmany : (S.workers r).turns l ≤ acts.countP (DeferAct.isWorker r)) :
    ∃ acts₁ acts₂, acts = acts₁ ++ acts₂ ∧ (acts₁.foldl DeferSys.step S).workers r = .idle ∧
      (l.reverse ++ S.released).Sublist (acts₁.foldl DeferSys.step S).released := by
  induction acts generalizing S l with
  | nil => exact absurd (Nat.lt_of_lt_of_le hpos hmany) (Nat.lt_irrefl _)
  | cons a acts ih =>
    rw [List.countP_cons] at hmany
    -- what the rest of the run gives from the state after this step
    have hgo : ∀ l', ((S.step a).workers r).Holds (S.step a).next l' →
        0 < ((S.step a).workers r).turns l' →
        ((S.step a).workers r).turns l' ≤ acts.countP (DeferAct.isWorker r) →
        (l.reverse ++ S.released).Sublist (l'.reverse ++ (S.step a).released) →
        ∃ acts₁ acts₂, a :: acts = acts₁ ++ acts₂ ∧ (acts₁.foldl DeferSys.step S).workers r =
          .idle ∧
          (l.reverse ++ S.released).Sublist (acts₁.foldl DeferSys.step S).released := by
      intro l' hl' hpos' hmany' hsub
      obtain ⟨acts₁, acts₂, rfl, hidle, hrel⟩ := ih (h.step a) hl' hpos' hmany'
      exact ⟨a :: acts₁, acts₂, rfl, hidle, hsub.trans hrel⟩
    cases ha : a.isWorker r with
    | false =>
      rw [ha] at hmany
      have hr : S.workers r ≠ .idle := by
        intro he
        rw [he] at hpos
        exact absurd hpos (Nat.lt_irrefl 0)
      obtain ⟨hw, hrel, hnext⟩ := h.others hr ha
      refine hgo l ?_ (hw ▸ hpos) (hw ▸ hmany) (List.Sublist.append_left hrel _)
      rw [hw]
      exact hl.frame fun o ho => hnext o (h.place_of_holds hl ho)
    | true =>
      obtain rfl := DeferAct.eq_worker ha
      rw [ha, if_pos rfl] at hmany
      cases hpc : S.workers r with
      | idle | clear | take =>
        rw [hpc] at hpos
        exact absurd hpos (Nat.lt_irrefl 0)
      | walk p =>
        rw [hpc] at hl hmany
        cases p with
        | none =>
          have hnil : l = [] := by
            cases l with
            | nil => rfl
            | cons x l => cases hl.1
          subst hnil
          refine ⟨[.worker r], acts, rfl, ?_, ?_⟩
          · simp [DeferSys.step, workerStep, hpc, DeferSys.setWorker]
          · simp [DeferSys.step, workerStep, hpc, DeferSys.setWorker]
        | some o =>
          have hstep : S.step (.worker r) = S.setWorker r (.release o (S.next o)) := by
            simp [DeferSys.step, workerStep, hpc]
          have hw : (S.step (.worker r)).workers r = .release o (S.next o) := by
            rw [hstep]
            exact Function.update_self ..
          have hnd := Chained.nodup hl
          cases l with
          | nil => cases hl
          | cons x l =>
            obtain ⟨hx, hrest⟩ := hl
            cases hx
            refine hgo (o :: l) ?_ ?_ ?_ ?_
            · rw [hw, hstep]
              exact ⟨l, rfl, (List.nodup_cons.mp hnd).1, hrest⟩
            · rw [hw]
              exact Nat.succ_pos _
            · rw [hw]
              simp only [ReleasePc.turns] at hmany ⊢
              omega
            · rw [hstep]
              exact List.Sublist.refl _
      | release o p =>
        rw [hpc] at hl hmany
        obtain ⟨l', rfl, -, hrest⟩ := hl
        have hstep : S.step (.worker r) =
            ({ S with released := o :: S.released }.setPlace o .free).setWorker r (.walk p) := by
          simp [DeferSys.step, workerStep, hpc]
        have hw : (S.step (.worker r)).workers r = .walk p := by
          rw [hstep]
          exact Function.update_self ..
        refine hgo l' ?_ ?_ ?_ ?_
        · rw [hw, hstep]
          exact hrest
        · rw [hw]
          exact Nat.succ_pos _
        · rw [hw]
          simp only [ReleasePc.turns, List.length_cons] at hmany ⊢
          omega
        · rw [hstep, List.reverse_cons, List.append_assoc]
          exact List.Sublist.refl _

/-- A started run comes to take the list with its second access, whatever the others do meanwhile.
-/
theorem take_reached (acts : List (DeferAct C R O)) (h : Own S)
    (hmany : S.workers r = .clear ∧ 2 ≤ acts.countP (DeferAct.isWorker r) ∨
      S.workers r = .take ∧ 1 ≤ acts.countP (DeferAct.isWorker r)) :
    ∃ acts₁ acts₂, acts = acts₁ ++ .worker r :: acts₂ ∧
      (acts₁.foldl DeferSys.step S).workers r = .take := by
  induction acts generalizing S with
  | nil => simp at hmany
  | cons a acts ih =>
    rw [List.countP_cons] at hmany
    -- the rest of the run reaches the take from the state after this step
    have hgo : ((S.step a).workers r = .clear ∧ 2 ≤ acts.countP (DeferAct.isWorker r) ∨
          (S.step a).workers r = .take ∧ 1 ≤ acts.countP (DeferAct.isWorker r)) →
        ∃ acts₁ acts₂, a :: acts = acts₁ ++ .worker r :: acts₂ ∧
          (acts₁.foldl DeferSys.step S).workers r = .take := by
      intro hmany'
      obtain ⟨acts₁, acts₂, rfl, htake⟩ := ih (h.step a) hmany'
      exact ⟨a :: acts₁, acts₂, rfl, htake⟩
    cases ha : a.isWorker r with
    | false =>
      have hr : S.workers r ≠ .idle := by
        intro he
        rcases hmany with ⟨hpc, -⟩ | ⟨hpc, -⟩ <;> cases hpc.symm.trans he
      rw [ha] at hmany
      exact hgo ((h.others hr ha).1 ▸ hmany)
    | true =>
      obtain rfl := DeferAct.eq_worker ha
      rw [ha, if_pos rfl] at hmany
      rcases hmany with ⟨hpc, hn⟩ | ⟨hpc, -⟩
      · refine hgo (.inr ⟨?_, by omega⟩)
        simp [DeferSys.step, workerStep, hpc, DeferSys.setWorker]
      · exact ⟨[], acts, rfl, hpc⟩

/-- A run about to take the list takes all of it, and then releases it and returns. -/
theorem taken_released (acts : List (DeferAct C R O)) (h : Own S) (hr : S.workers r = .take)
    (hl : Chained S.next S.head l) (hmany : 2 * l.length + 1 ≤ acts.countP (DeferAct.isWorker r)) :
    ∃ acts₁ acts₂, acts = acts₁ ++ acts₂ ∧
      (acts₁.foldl DeferSys.step (S.step (.worker r))).workers r = .idle ∧
      (l.reverse ++ S.released).Sublist
        (acts₁.foldl DeferSys.step (S.step (.worker r))).released := by
  have hown := h.step (.worker r)
  have hstep : S.step (.worker r) = { S with
      head := none
      place := fun o => if S.place o = Place.linked then .worker r else S.place o
      dropped := false }.setWorker r (.walk S.head) := by
    simp [DeferSys.step, workerStep, hr]
  have hw : (S.step (.worker r)).workers r = .walk S.head := by
    rw [hstep]
    exact Function.update_self ..
  have hnext : (S.step (.worker r)).next = S.next := by
    rw [hstep]
    rfl
  have hrel : (S.step (.worker r)).released = S.released := by
    rw [hstep]
    rfl
  obtain ⟨acts₁, acts₂, hsplit, hidle, hsub⟩ := release_ends (l := l) acts hown (by rwa [hw, hnext])
    (by rw [hw]; exact Nat.succ_pos _) (by rwa [hw])
  exact ⟨acts₁, acts₂, hsplit, hidle, hrel ▸ hsub⟩

omit [DecidableEq O] in
theorem Ticketed.one {t : Option (Ticket C R)} (h : Ticketed S t) :
    S.items ≤ 1 ∧ (∀ c c', S.callers c = .duty → S.callers c' = .duty → c = c') ∧
      ∀ c, S.callers c = .duty → S.items = 0 := by
  refine ⟨?_, fun c c' hc hc' => ?_, fun c hc => ?_⟩
  · rw [h.items]
    split <;> decide
  · have := ((h.duty c).mp hc).symm.trans ((h.duty c').mp hc')
    cases this
    rfl
  · rw [h.items, (h.duty c).mp hc]
    rfl

theorem Own.release_once {o : O} {p : Option O} (h : Own S) (hr : S.workers r = .release o p)
    (hl : ∀ x, x ∈ l ↔ S.place x = .linked) :
    o ∉ l ∧ ∀ r', r' ≠ r → ∀ p', S.workers r' ≠ .release o p' := by
  have hplace : ∀ {r' p'}, S.workers r' = .release o p' → S.place o = .worker r' := by
    intro r' p' hr'
    obtain ⟨l', hl', hmem⟩ := h.hands r'
    rw [hr'] at hl'
    obtain ⟨l'', rfl, -⟩ := hl'
    exact (hmem o).mp List.mem_cons_self
  refine ⟨fun ho => ?_, fun r' hne p' hr' => ?_⟩
  · have := (hl o).mp ho
    rw [hplace hr] at this
    cases this
  · have := (hplace hr').symm.trans (hplace hr)
    cases this
    exact hne rfl

theorem Own.all_released (h : Own S) (hc : ∀ c, S.callers c = .idle) (hr : ∀ r, S.workers r = .idle)
    (hhead : S.head = none) (o : O) : S.pushed.count o = S.released.count o := by
  rw [h.count, if_pos, Nat.add_zero]
  cases hplace : S.place o with
  | free => rfl
  | caller c =>
    have := (h.callers c o).mpr hplace
    rw [hc c] at this
    cases this
  | linked =>
    obtain ⟨l, hchain, hl⟩ := h.linked
    rw [hhead] at hchain
    have ho := (hl o).mpr hplace
    cases l with
    | nil => cases ho
    | cons x l => cases hchain.1
  | worker r =>
    obtain ⟨l, hl, hmem⟩ := h.hands r
    rw [hr r] at hl
    obtain rfl : l = [] := hl
    cases (hmem o).mpr hplace

theorem claimed_or_queued {t : Option (Ticket C R)} (ht : Ticketed S t) (hcov : Covered S)
    (hc : ∀ c, S.callers c = .idle) (hr : ∀ r, S.workers r ≠ .clear ∧ S.workers r ≠ .take)
    (hhead : S.head ≠ none) :
    S.items = 1 ∨ S.dropped = true ∧ ∀ c, ((S.step (.claim c)).step (.caller c)).callers c =
      .duty := by
  cases t with
  | some x =>
    cases x with
    | caller c =>
      have := (ht.duty c).mpr rfl
      rw [hc c] at this
      cases this
    | item => exact .inl ht.items
    | worker r => exact absurd ((ht.clear r).mpr rfl) (hr r).1
  | none =>
    right
    have hqueued : S.queued = false := ht.queued
    refine ⟨?_, fun c => ?_⟩
    · rcases hcov hhead with ⟨c, hc'⟩ | hq | ⟨r, hr'⟩ | hd
      · rw [hc c] at hc'
        cases hc'
      · rw [hqueued] at hq
        cases hq
      · exact absurd hr' (hr r).2
      · exact hd
    · simp [DeferSys.step, callerStep, hc c, hhead, DeferSys.setCaller, hqueued]

/-- At most one caller has the duty or one item is queued; no object is released while it is linked
or by two workers, or more often than it was pushed; a started run takes the list, and a run that
took the list releases all of it and returns; once all calls and runs have ended an empty list means
that every push was released, and a list with objects that an item is queued, or that a duty was
given back and the next `claim` takes it. -/
theorem deferred_releases (acts : List (DeferAct C R O)) :
    ((run acts).items ≤ 1 ∧
      (∀ c c', (run acts).callers c = .duty → (run acts).callers c' = .duty → c = c') ∧
      ∀ c, (run acts).callers c = .duty → (run acts).items = 0) ∧
    (∃ l, Chained (run acts).next (run acts).head l ∧ l.Nodup ∧
      (∀ r o p, (run acts).workers r = .release o p →
        o ∉ l ∧ ∀ r', r' ≠ r → ∀ p', (run acts).workers r' ≠ .release o p') ∧
      ∀ o, (run acts).released.count o ≤ (run acts).pushed.count o ∧
        (run acts).pushed.count o ≤ (run acts).released.count o + 1 ∧
        (o ∈ l → (run acts).pushed.count o = (run acts).released.count o + 1)) ∧
    (∀ r acts', (run acts).workers r = .clear ∧ 2 ≤ acts'.countP (DeferAct.isWorker r) ∨
        (run acts).workers r = .take ∧ 1 ≤ acts'.countP (DeferAct.isWorker r) →
      ∃ acts₁ acts₂ l, acts' = acts₁ ++ .worker r :: acts₂ ∧ (run (acts ++ acts₁)).workers r =
        .take ∧
        Chained (run (acts ++ acts₁)).next (run (acts ++ acts₁)).head l ∧
        (2 * l.length + 1 ≤ acts₂.countP (DeferAct.isWorker r) →
          ∃ acts₃ acts₄, acts₂ = acts₃ ++ acts₄ ∧
          (run (acts ++ acts₁ ++ .worker r :: acts₃)).workers r = .idle ∧
          (l.reverse ++ (run (acts ++ acts₁)).released).Sublist
            (run (acts ++ acts₁ ++ .worker r :: acts₃)).released)) ∧
    (∀ r l acts', ((run acts).workers r).Holds (run acts).next l →
      0 < ((run acts).workers r).turns l →
      ((run acts).workers r).turns l ≤ acts'.countP (DeferAct.isWorker r) →
      ∃ acts₁ acts₂, acts' = acts₁ ++ acts₂ ∧ (run (acts ++ acts₁)).workers r = .idle ∧
        (l.reverse ++ (run acts).released).Sublist (run (acts ++ acts₁)).released) ∧
    ((∀ c, (run acts).callers c = .idle) → (∀ r, (run acts).workers r = .idle) →
      (run acts).head = none → ∀ o, (run acts).pushed.count o = (run acts).released.count o) ∧
    ((∀ c, (run acts).callers c = .idle) →
      (∀ r, (run acts).workers r ≠ .clear ∧ (run acts).workers r ≠ .take) → (run acts).head ≠ none →
      (run acts).items = 1 ∨ (run acts).dropped = true ∧
        ∀ c, (((run acts).step (.claim c)).step (.caller c)).callers c = .duty) := by
  obtain ⟨hown, ⟨t, ht⟩, hcov⟩ := invariants_run acts
  refine ⟨ht.one, ?_, fun r acts' hmany => ?_, fun r l acts' hl hpos hmany => ?_, hown.all_released,
    claimed_or_queued ht hcov⟩
  · obtain ⟨l, hchain, hl⟩ := hown.linked
    refine ⟨l, hchain, hchain.nodup, fun r o p hr => hown.release_once hr hl, fun o => ?_⟩
    rw [hown.count o]
    refine ⟨Nat.le_add_right _ _, ?_, fun ho => ?_⟩
    · split <;> omega
    · rw [(hl o).mp ho]
      rfl
  · obtain ⟨acts₁, acts₂, hsplit, htake⟩ := take_reached acts' hown hmany
    have hrun : (acts₁.foldl DeferSys.step (run acts)) = run (acts ++ acts₁) :=
      List.foldl_append.symm
    rw [hrun] at htake
    obtain ⟨hown₁, -⟩ := invariants_run (acts ++ acts₁)
    obtain ⟨l, hchain, -⟩ := hown₁.linked
    refine ⟨acts₁, acts₂, l, hsplit, htake, hchain, fun hturns => ?_⟩
    obtain ⟨acts₃, acts₄, hsplit', hidle, hrel⟩ := taken_released acts₂ hown₁ htake hchain hturns
    refine ⟨acts₃, acts₄, hsplit', ?_⟩
    rw [run, List.foldl_append]
    exact ⟨hidle, hrel⟩
  · obtain ⟨acts₁, acts₂, hsplit, hidle, hrel⟩ := release_ends acts' hown hl hpos hmany
    refine ⟨acts₁, acts₂, hsplit, ?_⟩
    rw [run, List.foldl_append]
    exact ⟨hidle, hrel⟩

/-- Two callers push an object each, the first queues the item, and the run that is started for it
releases both. -/
def twoPushes : List (DeferAct Bool Unit Bool) :=
  [.push false false, .caller false, .caller false, .caller false, .enqueue false, .push true true,
    .caller true, .caller true, .caller true, .start ()] ++ List.replicate 7 (.worker ())

theorem deferred_releases_twoPushes :
    (run twoPushes).pushed = [true, false] ∧ (run twoPushes).released = [false, true] ∧
      ∀ o, (run twoPushes).pushed.count o = (run twoPushes).released.count o :=
  ⟨rfl, rfl, (deferred_releases twoPushes).2.2.2.2.1 (fun c => by cases c <;> rfl)
    (fun _ => rfl) rfl⟩

end DeferSys
end VibeOS.Kalloc
