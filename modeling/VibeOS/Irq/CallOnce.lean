import VibeOS.Irq.CallHolder

/-!
Each call runs its function once on each CPU it waits for, on every run on which no CPU
loads `acked` after a call that does not name it has cleared it, counted from its load of
`waiters`. Without that a CPU can run a function that was not sent to it, and still run it
when its call has returned.
-/
namespace VibeOS.Irq
namespace CallSys
variable {F A : Type*} {S : CallSys F A} {i : Cpu} {c : Nat}

theorem Inv.callerStep (h : S.Inv) (i : Cpu) : (S.callerStep i).Inv := by
  unfold CallSys.callerStep
  cases hi : S.caller i with
  | idle => exact h
  | acquire c =>
    simp only
    split
    · exact h
    · rename_i hb
      exact h.acquire hi (by simpa using hb)
  | holds s c =>
    have hc : (S.caller i).call? = some c := by rw [hi]; rfl
    obtain ⟨⟨k, hk, -⟩, -⟩ := h.named hc
    simp only [hk]
    cases s with
    | storeFunc => exact h.storeFunc hi hk
    | storeArg => exact h.storeArg hi hk
    | clearAcked => exact h.clearAcked hi
    | storeWaiters => exact h.storeWaiters hi hk
    | waitAcks =>
      change (if allAcked k.waiters S.slot.acked then S.goto i _ else S).Inv
      split
      · rename_i hall
        refine h.waitAcks hi ?_
        simpa [waitersOf, hk, allAcked] using hall
      · exact h
    | clearWaiters => exact h.clearWaiters hi
    | clearFunc => exact h.clearFunc hi
    | clearBusy => exact h.clearBusy hi

/-- If CPU `i` is to load `acked`, no call that does not name it has cleared `acked` since it
loaded `waiters`. -/
def promptLoad (S : CallSys F A) (i : Cpu) : Bool :=
  match S.service i, S.slot.opener with
  | .loadAcked seen, some c => seen == some c || decide (i ∈ S.waitersOf c)
  | _, _ => true

theorem opener_of_promptLoad {seen : Option Nat} (hp : S.promptLoad i = true)
    (hi : S.service i = .loadAcked seen) (c : Nat) (hc : S.slot.opener = some c) :
    seen = some c ∨ i ∈ S.waitersOf c := by
  simpa [promptLoad, hi, hc] using hp

theorem Inv.serviceStep (h : S.Inv) (hp : S.promptLoad i = true) : (S.serviceStep i).Inv := by
  unfold CallSys.serviceStep
  have hs := h.served i
  cases hi : S.service i with
  | out =>
    simp only
    split
    · rename_i hm
      refine h.serve ?_ (by rw [hi]; rfl)
      rcases h.published with hw | ⟨c, hc, hw⟩
      · rw [hw] at hm
        exact absurd hm (Finset.notMem_empty i)
      · exact ⟨c, hc, (h.opened hc).1, hw ▸ hm, by rw [hc]; rfl⟩
    · exact h
  | loadAcked seen =>
    simp only
    split
    · exact h.serve trivial (by rw [hi]; rfl)
    · rename_i hna
      exact h.serve (h.loadAcked hi (opener_of_promptLoad hp hi) hna) (by rw [hi]; rfl)
  | loadFunc =>
    rw [hi] at hs
    obtain ⟨c, hc⟩ := hs
    obtain ⟨⟨k, hk, hf⟩, -⟩ := h.of_open hc.2.1
    exact h.serve ⟨c, k, hc, hk, hf⟩ (by rw [hi]; rfl)
  | loadArg f =>
    rw [hi] at hs
    obtain ⟨c, k, hc, hk, hf⟩ := hs
    obtain ⟨-, ⟨k', hk', ha⟩, -⟩ := h.of_open hc.2.1
    obtain rfl := Option.some.inj (hk.symm.trans hk')
    exact h.serve ⟨c, k, hc, hk, hf, ha⟩ (by rw [hi]; rfl)
  | call f a =>
    obtain ⟨t, rfl, ht⟩ := h.start hi
    exact ht
  | running f a =>
    rw [hi] at hs
    exact h.serve ⟨_, hs⟩ (by rw [hi]; rfl)
  | ack => exact h.ack hi

def promptAct (S : CallSys F A) : CallAct F A → Bool
  | .service i => S.promptLoad i
  | _ => true

/-- Every load of `acked` on the way is prompt. -/
def promptFrom (S : CallSys F A) : List (CallAct F A) → Bool
  | [] => true
  | a :: acts => S.promptAct a && promptFrom (S.step a) acts

theorem Inv.step (h : S.Inv) {a : CallAct F A} (hp : S.promptAct a = true) : (S.step a).Inv := by
  cases a with
  | bringUp i =>
    exact ⟨h.busy, h.unique, h.free, h.shape, h.named, h.published, h.opened, h.served,
      h.returned_lt, h.runs, h.started_returned, h.started_early, h.started_late⟩
  | callMask i mask f arg =>
    simp only [CallSys.step]
    split
    · rename_i hi
      exact h.callMask hi.1 mask f arg
    · exact h
  | caller i =>
    simp only [CallSys.step]
    split
    · exact h.callerStep i
    · exact h
  | service i =>
    simp only [CallSys.step]
    split
    · exact h.serviceStep hp
    · exact h

theorem holdStep_grows (S : CallSys F A) (i : Cpu) (c : Nat) (k : Call F A) (s : Stage) :
    (S.holdStep i c k s).calls = S.calls ∧ S.returned ⊆ (S.holdStep i c k s).returned ∧
      (S.holdStep i c k s).runs = S.runs := by
  cases s with
  | storeFunc | storeArg | clearAcked | storeWaiters | clearWaiters | clearFunc =>
    exact ⟨rfl, List.Subset.refl _, rfl⟩
  | waitAcks =>
    simp only [holdStep]
    split
    · exact ⟨rfl, List.Subset.refl _, rfl⟩
    · exact ⟨rfl, List.Subset.refl _, rfl⟩
  | clearBusy => exact ⟨rfl, List.subset_cons_self _ _, rfl⟩

theorem step_grows (S : CallSys F A) (a : CallAct F A) :
    S.calls <+: (S.step a).calls ∧ S.returned ⊆ (S.step a).returned ∧
      ((S.step a).runs = S.runs ∨ ∃ i f arg, S.service i = .call (some f) arg ∧
        (S.step a).runs = ⟨i, f, arg⟩ :: S.runs) := by
  have same : S.calls <+: S.calls ∧ S.returned ⊆ S.returned ∧ (S.runs = S.runs ∨
      ∃ i f arg, S.service i = .call (some f) arg ∧ S.runs = ⟨i, f, arg⟩ :: S.runs) :=
    ⟨List.prefix_rfl, List.Subset.refl _, .inl rfl⟩
  cases a with
  | bringUp i => exact same
  | callMask i mask f arg =>
    simp only [CallSys.step]
    split
    · unfold CallSys.callMask
      simp only
      split
      · exact ⟨List.prefix_append _ _, List.subset_cons_self _ _, .inl rfl⟩
      · exact ⟨List.prefix_append _ _, List.Subset.refl _, .inl rfl⟩
    · exact same
  | caller i =>
    simp only [CallSys.step]
    split
    · unfold CallSys.callerStep
      split
      · exact same
      · split
        · exact same
        · exact same
      · split
        · rename_i s c _ _ k _
          obtain ⟨hc, hr, hruns⟩ := holdStep_grows S i c k s
          exact ⟨hc ▸ List.prefix_rfl, hr, .inl hruns⟩
        · exact same
    · exact same
  | service i =>
    simp only [CallSys.step]
    split
    · unfold CallSys.serviceStep
      split
      · split
        · exact same
        · exact same
      · split
        · exact same
        · exact same
      · exact same
      · exact same
      · exact same
      · rename_i f arg hi
        exact ⟨List.prefix_rfl, List.Subset.refl _, .inr ⟨i, f, arg, hi, rfl⟩⟩
      · exact same
      · exact same
    · exact same

theorem Inv.started_le_step (h : S.Inv) (a : CallAct F A) (hone : ∀ c i, S.started c i ≤ 1)
    (c : Nat) (i : Cpu) : (S.step a).started c i ≤ 1 := by
  obtain ⟨-, -, hr | ⟨j, f, arg, hj, hr⟩⟩ := step_grows S a
  · unfold started
    rw [hr]
    exact hone c i
  · have hstart : (S.step a).started c i =
        started { S with runs := ⟨j, f, arg⟩ :: S.runs } c i := by
      unfold started
      rw [hr]
    rw [hstart, started_cons]
    split
    · rename_i he
      obtain ⟨rfl, rfl⟩ := he
      rw [h.started_loaded hj]
    · exact hone c i

theorem Inv.foldl (h : S.Inv) (hone : ∀ c i, S.started c i ≤ 1) {acts : List (CallAct F A)}
    (hp : S.promptFrom acts = true) : (acts.foldl CallSys.step S).Inv ∧
      (∀ c i, (acts.foldl CallSys.step S).started c i ≤ 1) ∧
      S.calls <+: (acts.foldl CallSys.step S).calls ∧
      S.returned ⊆ (acts.foldl CallSys.step S).returned := by
  induction acts generalizing S with
  | nil => exact ⟨h, hone, List.prefix_rfl, List.Subset.refl _⟩
  | cons a acts ih =>
    rw [promptFrom, Bool.and_eq_true] at hp
    obtain ⟨hc, hr, -⟩ := step_grows S a
    obtain ⟨hi, hle, hcalls, hret⟩ := ih (h.step hp.1) (h.started_le_step a hone) hp.2
    exact ⟨hi, hle, hc.trans hcalls, List.Subset.trans hr hret⟩

theorem promptFrom_append (S : CallSys F A) (acts acts' : List (CallAct F A)) :
    S.promptFrom (acts ++ acts') =
      (S.promptFrom acts && (acts.foldl CallSys.step S).promptFrom acts') := by
  induction acts generalizing S with
  | nil => rfl
  | cons a acts ih =>
    simp only [List.cons_append, promptFrom, List.foldl_cons, ih, Bool.and_assoc]

theorem call_runs_once_on_each_waiter (online : Finset Cpu) (acts rest : List (CallAct F A))
    (hp : (init online).promptFrom (acts ++ rest) = true) :
    (∀ r ∈ (run online acts).runs, (run online acts).Matches r) ∧
      (∀ c i, (run online acts).started c i ≤ 1) ∧
      (∀ c ∈ (run online acts).returned, ∀ i,
        (run online acts).started c i = if i ∈ (run online acts).waitersOf c then 1 else 0) ∧
      (∀ i f arg, (run online acts).service i = .running f arg →
        f.call ∉ (run online acts).returned) ∧
      ∀ c ∈ (run online acts).returned, ∀ i,
        (run online (acts ++ rest)).started c i = (run online acts).started c i := by
  rw [promptFrom_append, Bool.and_eq_true] at hp
  obtain ⟨hinv, hone, -, -⟩ := (inv_init online).foldl (fun _ _ => Nat.zero_le _) hp.1
  have hrest : run online (acts ++ rest) = rest.foldl CallSys.step (run online acts) := by
    rw [run, List.foldl_append]
    rfl
  change (run online acts).Inv at hinv
  obtain ⟨hinv', -, hcalls, hret⟩ := hinv.foldl hone hp.2
  refine ⟨hinv.runs, hone, hinv.started_returned, ?_, ?_⟩
  · intro i f arg hi hm
    have hs := hinv.served i
    rw [hi] at hs
    obtain ⟨-, -, j, hj, -⟩ := hinv.of_open hs.2.1
    exact (hinv.named hj).2 hm
  · intro c hc i
    have hw : waitersOf (rest.foldl CallSys.step (run online acts)) c =
        (run online acts).waitersOf c := by
      obtain ⟨more, hmore⟩ := hcalls
      unfold waitersOf
      rw [← hmore, List.getElem?_append_left (hinv.returned_lt c hc)]
    rw [hrest, hinv'.started_returned c (hret hc) i, hinv.started_returned c hc i, hw]

/-- CPU `i` takes `n` steps of `service_calls`, or of `call_mask`. -/
def serves (i : Cpu) (n : Nat) : List (CallAct Nat Nat) := List.replicate n (.service i)

def accesses (i : Cpu) (n : Nat) : List (CallAct Nat Nat) := List.replicate n (.caller i)

/-- One call on two CPUs, which each run it. -/
def oneCall : List (CallAct Nat Nat) :=
  .callMask 0 {1, 2} 10 0 :: accesses 0 5 ++ serves 1 7 ++ serves 2 7 ++ accesses 0 4

theorem oneCall_runs_once :
    (init {0, 1, 2}).promptFrom (oneCall ++ serves 1 1) = true ∧
      0 ∈ (run {0, 1, 2} oneCall).returned ∧ (run {0, 1, 2} oneCall).started 0 1 = 1 := by
  have hp : (init {0, 1, 2}).promptFrom (oneCall ++ serves 1 1) = true := by decide +kernel
  have hret : 0 ∈ (run {0, 1, 2} oneCall).returned := by decide +kernel
  have hw : (1 : Cpu) ∈ (run {0, 1, 2} oneCall).waitersOf 0 := by decide +kernel
  obtain ⟨-, -, hone, -, -⟩ := call_runs_once_on_each_waiter {0, 1, 2} oneCall (serves 1 1) hp
  refine ⟨hp, hret, ?_⟩
  rw [hone 0 hret 1, if_pos hw]

/-- CPU 1 serves the first call, enters `service_calls` again and loads `waiters`, which
still names it. Before it loads `acked` that call returns and the next, for CPU 2 alone,
clears `acked`. CPU 1 then loads and runs the second call's function. -/
def straddle : List (CallAct Nat Nat) :=
  .callMask 0 {1, 2} 10 0 :: accesses 0 5 ++ serves 1 7 ++ serves 1 1 ++ serves 2 7 ++
    accesses 0 4 ++ .callMask 0 {2} 20 0 :: accesses 0 4 ++ serves 1 4 ++ accesses 0 1 ++
      serves 2 7 ++ accesses 0 4

theorem straddling_cpu_runs_the_next_call :
    ∃ f arg, (run {0, 1, 2} straddle).service 1 = .running f arg ∧
      ⟨1, f, arg⟩ ∈ (run {0, 1, 2} straddle).runs ∧
      (1 : Cpu) ∉ (run {0, 1, 2} straddle).waitersOf f.call ∧
      f.call ∈ (run {0, 1, 2} straddle).returned :=
  ⟨⟨20, 1⟩, some ⟨0, 1⟩, by decide +kernel, by decide +kernel, by decide +kernel,
    by decide +kernel⟩

end CallSys
end VibeOS.Irq
