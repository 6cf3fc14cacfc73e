import Mathlib.Algebra.Order.Ring.Nat
import Mathlib.Data.Finset.Card
import Mathlib.Tactic.Common

/-!
Call-function work on other CPUs: `call_mask` publishes a function in the one `CALL` slot
and waits for the acks, `service_calls` runs and acks it. Every atomic access is one step
of the CPU that makes it. A CPU runs `service_calls` from an interrupt or from the spin
loops of `call_mask`, and does nothing else until it returns; `call_mask` runs with
interrupts off. A mask is the set of its bits. Pointers carry the number of the call that
stored them, and the slot the number of the call that last cleared `acked`; no step reads
these numbers. A call is open from the moment it cleared `acked` until every CPU it names has
acked; a CPU that runs its function is one it names and that has not acked, so the call stays
open until that CPU is done.
-/
namespace VibeOS.Irq

def maxIpiCpus : Nat := 64

instance : NeZero maxIpiCpus := ⟨by decide⟩

abbrev Cpu := Fin maxIpiCpus

/-- CPUs that must ack, excluding the initiator. -/
def waiterMask (online : Finset Cpu) (self : Cpu) : Finset Cpu :=
  online.erase self

def allAcked (waiters acked : Finset Cpu) : Bool :=
  decide (waiters ⊆ acked)

variable {F A : Type*}

structure Tagged (V : Type*) where
  val : V
  call : Nat
  deriving DecidableEq, Repr

/-- One `call_mask`, with the online mask it read. -/
structure Call (F A : Type*) where
  caller : Cpu
  mask : Finset Cpu
  online : Finset Cpu
  func : F
  arg : A

def Call.waiters (k : Call F A) : Finset Cpu :=
  waiterMask (k.mask ∩ k.online) k.caller

structure CallSlot (F A : Type*) where
  func : Option (Tagged F)
  arg : Option (Tagged A)
  waiters : Finset Cpu
  acked : Finset Cpu
  opener : Option Nat

/-- The accesses of `call_mask` once it holds `CALL_BUSY`, in order. -/
inductive Stage where
  | storeFunc | storeArg | clearAcked | storeWaiters | waitAcks | clearWaiters | clearFunc
  | clearBusy
  deriving DecidableEq, Repr

inductive CallerPc where
  | idle
  | acquire (c : Nat)
  | holds (s : Stage) (c : Nat)
  deriving DecidableEq, Repr

/-- A CPU may enter `service_calls` here. -/
def CallerPc.serves : CallerPc → Bool
  | .idle | .acquire _ | .holds .waitAcks _ => true
  | _ => false

/-- Where a CPU is in `service_calls`: the access it makes next. `loadAcked` keeps which
call had cleared `acked` when `waiters` was loaded. -/
inductive ServicePc (F A : Type*) where
  | out
  | loadAcked (seen : Option Nat)
  | loadFunc
  | loadArg (f : Option (Tagged F))
  | call (f : Option (Tagged F)) (a : Option (Tagged A))
  | running (f : Tagged F) (a : Option (Tagged A))
  | ack
  deriving DecidableEq, Repr

def ServicePc.isOut : ServicePc F A → Bool
  | .out => true
  | _ => false

structure CallRun (F A : Type*) where
  cpu : Cpu
  func : Tagged F
  arg : Option (Tagged A)
  deriving DecidableEq, Repr

structure CallSys (F A : Type*) where
  slot : CallSlot F A
  busy : Bool
  online : Finset Cpu
  caller : Cpu → CallerPc
  service : Cpu → ServicePc F A
  calls : List (Call F A)
  returned : List Nat
  runs : List (CallRun F A)

inductive CallAct (F A : Type*) where
  | bringUp (i : Cpu)
  | callMask (i : Cpu) (mask : Finset Cpu) (f : F) (arg : A)
  | caller (i : Cpu)
  | service (i : Cpu)

namespace CallSys

def init (online : Finset Cpu) : CallSys F A :=
  { slot := { func := none, arg := none, waiters := ∅, acked := ∅, opener := none }
    busy := false, online, caller := fun _ => .idle, service := fun _ => .out
    calls := [], returned := [], runs := [] }

def goto (S : CallSys F A) (i : Cpu) (pc : CallerPc) : CallSys F A :=
  { S with caller := Function.update S.caller i pc }

def serve (S : CallSys F A) (i : Cpu) (pc : ServicePc F A) : CallSys F A :=
  { S with service := Function.update S.service i pc }

@[simp] theorem goto_self (S : CallSys F A) (i : Cpu) (pc : CallerPc) :
    (S.goto i pc).caller i = pc := Function.update_self ..

theorem goto_ne (S : CallSys F A) {i j : Cpu} (h : j ≠ i) (pc : CallerPc) :
    (S.goto i pc).caller j = S.caller j := Function.update_of_ne h ..

@[simp] theorem serve_self (S : CallSys F A) (i : Cpu) (pc : ServicePc F A) :
    (S.serve i pc).service i = pc := Function.update_self ..

theorem serve_ne (S : CallSys F A) {i j : Cpu} (h : j ≠ i) (pc : ServicePc F A) :
    (S.serve i pc).service j = S.service j := Function.update_of_ne h ..

/-- The start of `call_mask`: the online mask is read, and a call that names no other
online CPU returns. -/
def callMask (S : CallSys F A) (i : Cpu) (mask : Finset Cpu) (f : F) (arg : A) : CallSys F A :=
  let k : Call F A := { caller := i, mask, online := S.online, func := f, arg }
  let c := S.calls.length
  if k.waiters = ∅ then { S with calls := S.calls ++ [k], returned := c :: S.returned }
  else { S with calls := S.calls ++ [k] }.goto i (.acquire c)

/-- One access of the CPU that holds the slot for call `c`. -/
def holdStep (S : CallSys F A) (i : Cpu) (c : Nat) (k : Call F A) : Stage → CallSys F A
  | .storeFunc =>
    { S with slot.func := some ⟨k.func, c⟩ }.goto i (.holds .storeArg c)
  | .storeArg => { S with slot.arg := some ⟨k.arg, c⟩ }.goto i (.holds .clearAcked c)
  | .clearAcked =>
    { S with slot.acked := ∅, slot.opener := some c }.goto i (.holds .storeWaiters c)
  | .storeWaiters => { S with slot.waiters := k.waiters }.goto i (.holds .waitAcks c)
  | .waitAcks =>
    if allAcked k.waiters S.slot.acked then S.goto i (.holds .clearWaiters c) else S
  | .clearWaiters => { S with slot.waiters := ∅ }.goto i (.holds .clearFunc c)
  | .clearFunc => { S with slot.func := none }.goto i (.holds .clearBusy c)
  | .clearBusy => { S with busy := false, returned := c :: S.returned }.goto i .idle

def callerStep (S : CallSys F A) (i : Cpu) : CallSys F A :=
  match S.caller i with
  | .idle => S
  | .acquire c => if S.busy then S else { S with busy := true }.goto i (.holds .storeFunc c)
  | .holds s c =>
    match S.calls[c]? with
    | some k => S.holdStep i c k s
    | none => S

def serviceStep (S : CallSys F A) (i : Cpu) : CallSys F A :=
  match S.service i with
  | .out => if i ∈ S.slot.waiters then S.serve i (.loadAcked S.slot.opener) else S
  | .loadAcked _ => if i ∈ S.slot.acked then S.serve i .out else S.serve i .loadFunc
  | .loadFunc => S.serve i (.loadArg S.slot.func)
  | .loadArg f => S.serve i (.call f S.slot.arg)
  | .call none _ => S.serve i .ack
  | .call (some f) a => { S with runs := ⟨i, f, a⟩ :: S.runs }.serve i (.running f a)
  | .running _ _ => S.serve i .ack
  | .ack => { S with slot.acked := insert i S.slot.acked }.serve i .out

/-- A CPU in `service_calls` finishes it before anything else. -/
def step (S : CallSys F A) : CallAct F A → CallSys F A
  | .bringUp i => { S with online := insert i S.online }
  | .callMask i mask f arg =>
    if S.caller i = .idle ∧ (S.service i).isOut then S.callMask i mask f arg else S
  | .caller i => if (S.service i).isOut then S.callerStep i else S
  | .service i => if (S.caller i).serves then S.serviceStep i else S

def run (online : Finset Cpu) (acts : List (CallAct F A)) : CallSys F A :=
  acts.foldl step (init online)

end CallSys

def CallerPc.call? : CallerPc → Option Nat
  | .idle => none
  | .acquire c => some c
  | .holds _ c => some c

/-- The call has cleared `acked`. -/
def CallerPc.late : CallerPc → Bool
  | .holds .storeWaiters _ | .holds .waitAcks _ | .holds .clearWaiters _ | .holds .clearFunc _
  | .holds .clearBusy _ => true
  | _ => false

theorem CallerPc.holds_of_late {pc : CallerPc} {c : Nat} (hc : pc.call? = some c)
    (hl : pc.late = true) : ∃ s, pc = .holds s c := by
  cases pc with
  | idle | acquire => cases hl
  | holds s c' =>
    cases hc
    exact ⟨s, rfl⟩

def ServicePc.began {F A : Type*} : ServicePc F A → Bool
  | .running _ _ | .ack => true
  | _ => false

namespace CallSys
variable {S : CallSys F A} {i j : Cpu} {c : Nat} {s : Stage}

def waitersOf (S : CallSys F A) (c : Nat) : Finset Cpu :=
  (S.calls[c]?).elim ∅ Call.waiters

/-- How often CPU `i` began to run the function of call `c`. -/
def started (S : CallSys F A) (c : Nat) (i : Cpu) : Nat :=
  S.runs.countP fun r => r.func.call == c && r.cpu == i

/-- Call `c` takes acks. -/
def Open (S : CallSys F A) (c : Nat) : Prop :=
  ∃ i, S.caller i = .holds .storeWaiters c ∨ S.caller i = .holds .waitAcks c

def FuncOf (S : CallSys F A) (c : Nat) : Prop :=
  ∃ k, S.calls[c]? = some k ∧ S.slot.func = some ⟨k.func, c⟩

def ArgOf (S : CallSys F A) (c : Nat) : Prop :=
  ∃ k, S.calls[c]? = some k ∧ S.slot.arg = some ⟨k.arg, c⟩

/-- The slot at each access of its holder. -/
def Shape (S : CallSys F A) (c : Nat) : Stage → Prop
  | .storeFunc => S.slot.waiters = ∅ ∧ S.slot.func = none
  | .storeArg => S.slot.waiters = ∅ ∧ S.FuncOf c
  | .clearAcked => S.slot.waiters = ∅ ∧ S.FuncOf c ∧ S.ArgOf c
  | .storeWaiters => S.slot.waiters = ∅ ∧ S.FuncOf c ∧ S.ArgOf c ∧ S.slot.opener = some c
  | .waitAcks => S.FuncOf c ∧ S.ArgOf c ∧ S.slot.opener = some c
  | .clearWaiters => S.slot.opener = some c ∧ S.waitersOf c ⊆ S.slot.acked
  | .clearFunc => S.slot.waiters = ∅ ∧ S.slot.opener = some c ∧ S.waitersOf c ⊆ S.slot.acked
  | .clearBusy =>
    S.slot.waiters = ∅ ∧ S.slot.func = none ∧ S.slot.opener = some c ∧
      S.waitersOf c ⊆ S.slot.acked

/-- CPU `i` serves the open call `c`, which waits for it. -/
def Serving (S : CallSys F A) (i : Cpu) (c : Nat) : Prop :=
  S.slot.opener = some c ∧ S.Open c ∧ i ∈ S.waitersOf c ∧ i ∉ S.slot.acked

def Served (S : CallSys F A) (i : Cpu) : ServicePc F A → Prop
  | .out => True
  | .loadAcked seen =>
    ∃ c, seen = some c ∧ c < S.calls.length ∧ i ∈ S.waitersOf c ∧ S.slot.opener.isSome
  | .loadFunc => ∃ c, S.Serving i c
  | .loadArg f => ∃ c k, S.Serving i c ∧ S.calls[c]? = some k ∧ f = some ⟨k.func, c⟩
  | .call f a =>
    ∃ c k, S.Serving i c ∧ S.calls[c]? = some k ∧ f = some ⟨k.func, c⟩ ∧ a = some ⟨k.arg, c⟩
  | .running f _ => S.Serving i f.call
  | .ack => ∃ c, S.Serving i c

/-- The run is of a call's own function on its own argument, on a CPU it names. -/
def Matches (S : CallSys F A) (r : CallRun F A) : Prop :=
  ∃ k, S.calls[r.func.call]? = some k ∧ r.func.val = k.func ∧
    r.arg = some ⟨k.arg, r.func.call⟩ ∧ r.cpu ∈ k.waiters

structure Inv (S : CallSys F A) : Prop where
  busy : ∀ {i s c}, S.caller i = .holds s c → S.busy = true
  unique : ∀ {i j s t c d}, S.caller i = .holds s c → S.caller j = .holds t d → i = j
  free : S.busy = false → S.slot.waiters = ∅ ∧ S.slot.func = none
  shape : ∀ {i s c}, S.caller i = .holds s c → S.Shape c s
  named : ∀ {i c}, (S.caller i).call? = some c →
    (∃ k, S.calls[c]? = some k ∧ k.caller = i) ∧ c ∉ S.returned
  published : S.slot.waiters = ∅ ∨ ∃ c, S.slot.opener = some c ∧ S.slot.waiters = S.waitersOf c
  opened : ∀ {c}, S.slot.opener = some c →
    c < S.calls.length ∧ (S.Open c ∨ S.waitersOf c ⊆ S.slot.acked)
  served : ∀ i, S.Served i (S.service i)
  returned_lt : ∀ c ∈ S.returned, c < S.calls.length
  runs : ∀ r ∈ S.runs, S.Matches r
  started_returned : ∀ c ∈ S.returned, ∀ i, S.started c i = if i ∈ S.waitersOf c then 1 else 0
  started_early : ∀ {j c}, (S.caller j).call? = some c → (S.caller j).late = false →
    ∀ i, S.started c i = 0
  started_late : ∀ {j c}, (S.caller j).call? = some c → (S.caller j).late = true → ∀ i,
    S.started c i =
      if i ∈ S.waitersOf c ∧ (i ∈ S.slot.acked ∨ (S.service i).began = true) then 1 else 0

theorem inv_init (online : Finset Cpu) : (init online : CallSys F A).Inv where
  busy h := by cases h
  unique h := by cases h
  free _ := ⟨rfl, rfl⟩
  shape h := by cases h
  named h := by cases h
  published := .inl rfl
  opened h := by cases h
  served _ := trivial
  returned_lt _ h := by cases h
  runs _ h := by cases h
  started_returned _ h := by cases h
  started_early h := by cases h
  started_late h := by cases h

theorem Served.mono {S' : CallSys F A} {pc : ServicePc F A} (h : S.Served i pc)
    (hserving : ∀ {c}, S.Serving i c → S'.Serving i c) (hcalls : S'.calls = S.calls)
    (hop : S.slot.opener.isSome → S'.slot.opener.isSome) : S'.Served i pc := by
  cases pc with
  | out => trivial
  | loadAcked seen =>
    obtain ⟨c, hc, hlt, hm, ho⟩ := h
    exact ⟨c, hc, by rwa [hcalls], by rwa [waitersOf, hcalls], hop ho⟩
  | loadFunc | ack =>
    obtain ⟨c, hc⟩ := h
    exact ⟨c, hserving hc⟩
  | loadArg f | call f a =>
    obtain ⟨c, k, hc, hk, hrest⟩ := h
    exact ⟨c, k, hserving hc, by rwa [hcalls], hrest⟩
  | running f a => exact hserving h

theorem Inv.serve (h : S.Inv) {pc : ServicePc F A} (hpc : S.Served i pc)
    (hb : pc.began = (S.service i).began) : (S.serve i pc).Inv := by
  refine ⟨h.busy, h.unique, h.free, h.shape, h.named, h.published, h.opened, fun j => ?_,
    h.returned_lt, h.runs, h.started_returned, h.started_early, fun hj hl j => ?_⟩
  · rcases eq_or_ne j i with rfl | hne
    · rw [serve_self]
      exact hpc.mono (fun hs => hs) rfl id
    · rw [serve_ne S hne]
      exact (h.served j).mono (fun hs => hs) rfl id
  · have hbegan : ((S.serve i pc).service j).began = (S.service j).began := by
      rcases eq_or_ne j i with rfl | hne
      · rw [serve_self, hb]
      · rw [serve_ne S hne]
    rw [hbegan]
    exact h.started_late hj hl j

theorem Inv.call_unique (h : S.Inv) (hi : (S.caller i).call? = some c)
    (hj : (S.caller j).call? = some c) : i = j := by
  obtain ⟨⟨k, hk, rfl⟩, -⟩ := h.named hi
  obtain ⟨⟨k', hk', rfl⟩, -⟩ := h.named hj
  rw [Option.some.inj (hk.symm.trans hk')]

theorem Inv.late_unique (h : S.Inv) {d : Nat} (hi : (S.caller i).call? = some c)
    (hli : (S.caller i).late = true) (hj : (S.caller j).call? = some d)
    (hlj : (S.caller j).late = true) : c = d := by
  obtain ⟨s, hs⟩ := CallerPc.holds_of_late hi hli
  obtain ⟨t, ht⟩ := CallerPc.holds_of_late hj hlj
  obtain rfl := h.unique hs ht
  rw [hs] at ht
  cases ht
  rfl

theorem Inv.of_open (h : S.Inv) (ho : S.Open c) :
    S.FuncOf c ∧ S.ArgOf c ∧ ∃ j, (S.caller j).call? = some c ∧ (S.caller j).late = true := by
  obtain ⟨j, hj | hj⟩ := ho
  · obtain ⟨-, hf, ha, -⟩ := h.shape hj
    exact ⟨hf, ha, j, by rw [hj]; rfl, by rw [hj]; rfl⟩
  · obtain ⟨hf, ha, -⟩ := h.shape hj
    exact ⟨hf, ha, j, by rw [hj]; rfl, by rw [hj]; rfl⟩

theorem Inv.loadAcked (h : S.Inv) {seen : Option Nat} (hi : S.service i = .loadAcked seen)
    (hp : ∀ c, S.slot.opener = some c → seen = some c ∨ i ∈ S.waitersOf c)
    (hna : i ∉ S.slot.acked) : S.Served i .loadFunc := by
  have hs := h.served i
  rw [hi] at hs
  obtain ⟨c₀, rfl, -, hmem, ho⟩ := hs
  obtain ⟨c, hc⟩ := Option.isSome_iff_exists.mp ho
  have hi : i ∈ S.waitersOf c := by
    rcases hp c hc with he | hi
    · cases he
      exact hmem
    · exact hi
  refine ⟨c, hc, ?_, hi, hna⟩
  exact (h.opened hc).2.resolve_right fun hsub => hna (hsub hi)

theorem started_cons (S : CallSys F A) (r : CallRun F A) (c : Nat) (i : Cpu) :
    started { S with runs := r :: S.runs } c i =
      S.started c i + if r.func.call = c ∧ r.cpu = i then 1 else 0 := by
  simp [started, List.countP_cons]

theorem Inv.started_loaded (h : S.Inv) {f : Tagged F} {a : Option (Tagged A)}
    (hi : S.service i = .call (some f) a) : S.started f.call i = 0 := by
  have hs := h.served i
  rw [hi] at hs
  obtain ⟨c, k, ⟨-, hopen, -, hna⟩, hk, hf, -⟩ := hs
  cases hf
  obtain ⟨-, -, j, hj, hl⟩ := h.of_open hopen
  rw [h.started_late hj hl i, if_neg]
  simp [hna, hi, ServicePc.began]

theorem Inv.start (h : S.Inv) {f : Option (Tagged F)} {a : Option (Tagged A)}
    (hi : S.service i = .call f a) : ∃ t, f = some t ∧
      ({ S with runs := ⟨i, t, a⟩ :: S.runs }.serve i (.running t a)).Inv := by
  have hs := h.served i
  rw [hi] at hs
  obtain ⟨c, k, hserve, hk, rfl, rfl⟩ := hs
  obtain ⟨hop, hopen, hmem, hna⟩ := id hserve
  obtain ⟨-, -, j, hj, hl⟩ := h.of_open hopen
  have hother : ∀ {d i'}, d ≠ c →
      started { S with runs := ⟨i, ⟨k.func, c⟩, some ⟨k.arg, c⟩⟩ :: S.runs } d i' =
        S.started d i' := by
    intro d i' hne
    rw [started_cons, if_neg fun he => hne he.1.symm, Nat.add_zero]
  refine ⟨_, rfl, ⟨h.busy, h.unique, h.free, h.shape, h.named, h.published, h.opened,
    fun j => ?_, h.returned_lt, ?_, ?_, ?_, ?_⟩⟩
  · rcases eq_or_ne j i with rfl | hne
    · rw [serve_self]
      exact hserve
    · rw [serve_ne _ hne]
      exact (h.served j).mono (fun hs => hs) rfl id
  · intro r hr
    rcases List.mem_cons.mp hr with rfl | hr
    · refine ⟨k, hk, rfl, rfl, ?_⟩
      simpa [waitersOf, hk] using hmem
    · exact h.runs r hr
  · intro d hd i'
    have hdc : d ≠ c := by
      rintro rfl
      exact (h.named hj).2 hd
    exact (hother hdc).trans (h.started_returned d hd i')
  · intro j' d hj' hl' i'
    have hdc : d ≠ c := by
      rintro rfl
      obtain rfl := h.call_unique hj hj'
      exact absurd hl (by simp [show (S.caller j).late = false from hl'])
    exact (hother hdc).trans (h.started_early hj' hl' i')
  · intro j' d hj' hl' i'
    obtain rfl := h.late_unique hj' hl' hj hl
    rcases eq_or_ne i' i with rfl | hne
    · have hzero := h.started_loaded hi
      change started { S with runs := _ :: S.runs } d i' = _
      rw [started_cons, hzero, if_pos ⟨rfl, rfl⟩, serve_self, if_pos ⟨hmem, .inr rfl⟩]
    · rw [serve_ne _ hne]
      refine Eq.trans ?_ (h.started_late hj' hl' i')
      change started { S with runs := _ :: S.runs } d i' = _
      rw [started_cons, if_neg fun he => hne he.2.symm, Nat.add_zero]

theorem Inv.ack (h : S.Inv) (hi : S.service i = .ack) :
    ({ S with slot.acked := insert i S.slot.acked }.serve i .out).Inv := by
  have hsub : S.slot.acked ⊆ insert i S.slot.acked := Finset.subset_insert _ _
  refine ⟨h.busy, h.unique, h.free, ?_, h.named, h.published, ?_, fun j => ?_, h.returned_lt,
    h.runs, h.started_returned, h.started_early, fun hj hl i' => ?_⟩
  · intro j s c hj
    have hs := h.shape hj
    cases s with
    | storeFunc | storeArg | clearAcked | storeWaiters | waitAcks => exact hs
    | clearWaiters => exact ⟨hs.1, hs.2.trans hsub⟩
    | clearFunc => exact ⟨hs.1, hs.2.1, hs.2.2.trans hsub⟩
    | clearBusy => exact ⟨hs.1, hs.2.1, hs.2.2.1, hs.2.2.2.trans hsub⟩
  · intro c hc
    exact (h.opened hc).imp id fun ho => ho.imp id fun hw => hw.trans hsub
  · rcases eq_or_ne j i with rfl | hne
    · rw [serve_self]
      trivial
    · rw [serve_ne _ hne]
      have keep : ∀ {c}, S.Serving j c →
          Serving ({ S with slot.acked := insert i S.slot.acked }.serve i .out) j c :=
        fun ⟨h1, h2, h3, h4⟩ => ⟨h1, h2, h3, fun hm =>
          (Finset.mem_insert.mp hm).elim hne h4⟩
      exact (h.served j).mono keep rfl id
  · refine (h.started_late hj hl i').trans (if_congr (and_congr Iff.rfl ?_) rfl rfl)
    rcases eq_or_ne i' i with rfl | hne
    · rw [serve_self, hi]
      exact ⟨fun _ => .inl (Finset.mem_insert_self _ _), fun _ => .inr rfl⟩
    · rw [serve_ne _ hne]
      exact or_congr (Finset.mem_insert.trans (or_iff_right hne)).symm Iff.rfl

end CallSys
end VibeOS.Irq
