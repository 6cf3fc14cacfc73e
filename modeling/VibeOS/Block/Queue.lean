import VibeOS.Block.Request

/-!
The per-device queue: submission with merge, dispatch in C-LOOK order, and the
in-flight table. `Queue.running`, a flag only the kernel's pump reads, is left
out. Each operation that mutates the queue returns the new one beside its
result, on the error paths too. What each operation can do is stated once, and
later modules use these cases without unfolding it.
-/
namespace VibeOS.Block

inductive Completion where
  | report | deferred
  deriving DecidableEq, Repr

inductive FlightState where
  | dispatched | flushDue
  deriving DecidableEq, Repr

structure Flight where
  seq : Nat
  bio : Bio
  emulatedFua : Bool
  state : FlightState
  waiters : List Nat
  deriving DecidableEq, Repr

structure Queue where
  slots : Fin maxQueue → Option Request
  n : Nat
  nextSeq : Nat
  lastLba : Nat
  flights : Fin maxQueue → Option Flight
  failed : Bool
  nativeFua : Bool

namespace Queue

def new : Queue :=
  { slots := fun _ => none, n := 0, nextSeq := 0, lastLba := 0, flights := fun _ => none,
    failed := false, nativeFua := false }

def flightBlocks (r : Request) (f : Flight) : Bool :=
  f.state == .dispatched && f.bio.op.writesMedia && f.bio.overlaps r.bio

def slotBlocks (r q : Request) : Bool :=
  decide (q.seq < r.seq) && q.bio.op.writesMedia && q.bio.overlaps r.bio

/-- A write or discard that overlaps a write or discard in flight, or a queued
one with a smaller seq, waits. -/
def blocked (q : Queue) (r : Request) : Bool :=
  r.bio.op.writesMedia &&
    (List.finRange maxQueue).any fun i =>
      (q.flights i).any (flightBlocks r) || (q.slots i).any (slotBlocks r)

/-- Slot `i` after `req` merged into it, when it merges. -/
def mergeSlot (q : Queue) (req : Request) (i : Fin maxQueue) : Option (Fin maxQueue × Request) :=
  (q.slots i).bind fun dst => (mergeInto dst req (mergeKind dst req)).map fun r => (i, r)

/-- The slot `try_merge` changes and what it then holds, or `none` where it
returns `false`. -/
def mergeTarget (q : Queue) (req : Request) : Option (Fin maxQueue × Request) :=
  if !req.bio.op.canMerge then none
  else if req.bio.op.writesMedia && q.blocked { req with seq := u64Max } then none
  else (List.finRange maxQueue).findSome? (q.mergeSlot req)

def tryMerge (q : Queue) (req : Request) : Option Queue :=
  (q.mergeTarget req).map fun t => { q with slots := Function.update q.slots t.1 (some t.2) }

def freeSlot (q : Queue) : Option (Fin maxQueue) :=
  (List.finRange maxQueue).find? fun i => (q.slots i).isNone

def insertSlot (q : Queue) (req : Request) : Except BlockError Unit × Queue :=
  match q.freeSlot with
  | some i => (.ok (), { q with slots := Function.update q.slots i (some req), n := q.n + 1 })
  | none => (.error .queueFull, q)

/-- The next sequence number, and the queue after it wrapped in `u64`. -/
def freshSeq (q : Queue) : Nat × Queue :=
  (q.nextSeq, { q with nextSeq := (q.nextSeq + 1) % 2 ^ 64 })

/-- The end of `submit`: merge the numbered request, else give it a slot. -/
def enqueue (q : Queue) (req : Request) : Except BlockError Unit × Queue :=
  match q.tryMerge req with
  | some q => (.ok (), q)
  | none => q.insertSlot req

def submit (q : Queue) (req : Request) : Except BlockError Unit × Queue :=
  if req.fua && req.bio.op != .write then (.error .inval, q)
  else if q.failed then (.error .failed, q)
  else if q.n ≥ maxQueue then (.error .queueFull, q)
  else
    let (seq, q) := q.freshSeq
    q.enqueue { req with seq := seq }

def flightIndex (q : Queue) (seq : Nat) (state : FlightState) : Option (Fin maxQueue) :=
  (List.finRange maxQueue).find? fun i =>
    (q.flights i).any fun f => f.seq == seq && f.state == state

def clearFlight (q : Queue) (i : Fin maxQueue) : Queue :=
  { q with flights := Function.update q.flights i none }

def retire (q : Queue) (seq : Nat) : Queue :=
  match q.flightIndex seq .dispatched with
  | some i => q.clearFlight i
  | none => q

def complete (q : Queue) (seq : Nat) : Completion × Queue :=
  match q.flightIndex seq .dispatched with
  | none => (.report, q)
  | some i =>
    match q.flights i with
    | some f =>
      if f.emulatedFua then
        (.deferred,
          { q with flights := Function.update q.flights i (some { f with state := .flushDue }) })
      else (.report, q.clearFlight i)
    | none => (.report, q.clearFlight i)

def abort (q : Queue) (seq : Nat) : Queue := q.retire seq

def requeue (q : Queue) (req : Request) : Except BlockError Unit × Queue :=
  let q := q.retire req.seq
  if q.failed then (.error .failed, q)
  else if q.n ≥ maxQueue then (.error .queueFull, q)
  else q.insertSlot req

def take (q : Queue) (i : Fin maxQueue) : Option (Request × Queue) :=
  (q.slots i).map fun r => (r, { q with slots := Function.update q.slots i none, n := q.n - 1 })

def dueIndex (q : Queue) : Option (Fin maxQueue × Flight) :=
  (List.finRange maxQueue).findSome? fun i =>
    (q.flights i).bind fun f => if f.state == .flushDue then some (i, f) else none

/-- The `Flush` an emulated-`Fua` entry owes, with a fresh seq and the write's
waiters. -/
def dueFlush (q : Queue) : Option (Fin maxQueue × Request × Queue) :=
  q.dueIndex.map fun (i, f) =>
    let (seq, q) := q.freshSeq
    (i, { Request.new .flush 0 0 with seq := seq, waiters := f.waiters }, q)

/-- The three candidates of `pick`'s scan: the lowest-seq flush, and the lowest
LBA at or past the head and below it, each with its slot. -/
structure Scan where
  flush : Option (Nat × Fin maxQueue) := none
  fwd : Option (Nat × Fin maxQueue) := none
  wrap : Option (Nat × Fin maxQueue) := none

/-- Keep the candidate with the smaller key, the older one on a tie. -/
def Scan.better (best : Option (Nat × Fin maxQueue)) (key : Nat) (i : Fin maxQueue) :
    Option (Nat × Fin maxQueue) :=
  match best with
  | some (b, j) => if key ≥ b then some (b, j) else some (key, i)
  | none => some (key, i)

def scanSlot (q : Queue) (s : Scan) (i : Fin maxQueue) : Scan :=
  match q.slots i with
  | none => s
  | some r =>
    if r.bio.op == .flush then { s with flush := Scan.better s.flush r.seq i }
    else if q.blocked r then s
    else if r.bio.lba ≥ q.lastLba then { s with fwd := Scan.better s.fwd r.bio.lba i }
    else { s with wrap := Scan.better s.wrap r.bio.lba i }

def scan (q : Queue) : Scan := (List.finRange maxQueue).foldl q.scanSlot {}

def freeFlight (q : Queue) : Option (Fin maxQueue) :=
  (List.finRange maxQueue).find? fun i => (q.flights i).isNone

/-- Record dispatch `r` in flight entry `i`. -/
def dispatch (q : Queue) (i : Fin maxQueue) (r : Request) (emulatedFua : Bool) : Queue :=
  { q with
    flights := Function.update q.flights i
      (some { seq := r.seq, bio := r.bio, emulatedFua, state := .dispatched,
              waiters := r.waiters }) }

/-- Take the scan's choice: a flush first, else C-LOOK, which moves the head. -/
def takeChosen (q : Queue) (s : Scan) : Option (Request × Queue) :=
  match s.flush with
  | some (_, i) => q.take i
  | none =>
    match s.fwd.or s.wrap with
    | some (_, i) => (q.take i).map fun (r, q) => (r, { q with lastLba := r.bio.endLba })
    | none => none

def pick (q : Queue) : Option Request × Queue :=
  match q.dueFlush with
  | some (i, r, q) => (some r, q.dispatch i r false)
  | none =>
    if q.n == 0 then (none, q)
    else
      match q.freeFlight with
      | none => (none, q)
      | some free =>
        match q.takeChosen q.scan with
        | none => (none, q)
        | some (r, q) => (some r, q.dispatch free r (r.fua && !q.nativeFua))

def fail (q : Queue) : Queue := { q with failed := true }

/-- Hand back every queued request, at most `room`. -/
def drainSlots (room : Nat) (q : Queue) (out : List Request) :
    List (Fin maxQueue) → Queue × List Request
  | [] => (q, out)
  | i :: is =>
    if out.length < room then
      match q.take i with
      | some (r, q) => drainSlots room q (out ++ [r]) is
      | none => drainSlots room q out is
    else (q, out)

/-- Hand back pending emulated-`Fua` flushes while there is room. -/
def drainFlushes (q : Queue) (out : List Request) : Nat → Queue × List Request
  | 0 => (q, out)
  | left + 1 =>
    match q.dueFlush with
    | some (i, r, q) => drainFlushes (q.clearFlight i) (out ++ [r]) left
    | none => (q, out)

def drain (q : Queue) (room : Nat) : Queue × List Request :=
  let (q, out) := drainSlots room q [] (List.finRange maxQueue)
  drainFlushes q out (room - out.length)

variable {q : Queue} {i : Fin maxQueue}

theorem mergeTarget_eq_some {req r : Request} (h : q.mergeTarget req = some (i, r)) :
    (req.bio.op.writesMedia = true → q.blocked { req with seq := u64Max } = false) ∧
      ∃ dst, q.slots i = some dst ∧ mergeInto dst req (mergeKind dst req) = some r := by
  unfold mergeTarget at h
  split at h
  · cases h
  split at h
  · cases h
  rename_i hb
  refine ⟨fun hw => by simpa [hw] using hb, ?_⟩
  obtain ⟨j, -, hj⟩ := List.exists_of_findSome?_eq_some h
  simp only [mergeSlot, Option.bind_eq_some_iff, Option.map_eq_some_iff, Prod.mk.injEq] at hj
  obtain ⟨dst, hdst, r', hr', rfl, rfl⟩ := hj
  exact ⟨dst, hdst, hr'⟩

theorem freeSlot_eq_some (h : q.freeSlot = some i) : q.slots i = none := by
  simpa using List.find?_some h

theorem freeFlight_eq_some (h : q.freeFlight = some i) : q.flights i = none := by
  simpa using List.find?_some h

/-- The request as it is queued: numbered with the next sequence number. -/
def numbered (q : Queue) (req : Request) : Request := { req with seq := q.nextSeq }

theorem insertSlot_cases (q : Queue) (r : Request) :
    q.insertSlot r = (.error .queueFull, q) ∨
      ∃ i, q.slots i = none ∧
        q.insertSlot r =
          (.ok (), { q with slots := Function.update q.slots i (some r), n := q.n + 1 }) := by
  unfold insertSlot
  cases hf : q.freeSlot with
  | none => exact .inl rfl
  | some i => exact .inr ⟨i, freeSlot_eq_some hf, rfl⟩

theorem enqueue_cases (q : Queue) (r : Request) :
    q.enqueue r = (.error .queueFull, q) ∨
    (∃ i r', q.mergeTarget r = some (i, r') ∧
      q.enqueue r = (.ok (), { q with slots := Function.update q.slots i (some r') })) ∨
    ∃ i, q.mergeTarget r = none ∧ q.slots i = none ∧
      q.enqueue r =
        (.ok (), { q with slots := Function.update q.slots i (some r), n := q.n + 1 }) := by
  unfold enqueue tryMerge
  cases ht : q.mergeTarget r with
  | some t => exact .inr (.inl ⟨t.1, t.2, rfl, rfl⟩)
  | none =>
    rcases insertSlot_cases q r with h | ⟨i, hi, h⟩
    · exact .inl h
    · exact .inr (.inr ⟨i, rfl, hi, h⟩)

/-- A refused submission may still have drawn a number; an accepted one has
joined a queued request or taken an empty slot. -/
theorem submit_cases (q : Queue) (req : Request) :
    (∃ e, q.submit req = (.error e, q)) ∨
    (∃ e, q.submit req = (.error e, q.freshSeq.2)) ∨
    (∃ i r, q.freshSeq.2.mergeTarget (q.numbered req) = some (i, r) ∧
      q.submit req = (.ok (), { q.freshSeq.2 with slots := Function.update q.slots i (some r) })) ∨
    (∃ i, q.freshSeq.2.mergeTarget (q.numbered req) = none ∧ q.slots i = none ∧
      q.submit req =
        (.ok (),
          { q.freshSeq.2 with
            slots := Function.update q.slots i (some (q.numbered req)), n := q.n + 1 })) := by
  unfold submit
  split
  · exact .inl ⟨_, rfl⟩
  split
  · exact .inl ⟨_, rfl⟩
  split
  · exact .inl ⟨_, rfl⟩
  rcases enqueue_cases q.freshSeq.2 (q.numbered req) with h | h | h
  · exact .inr (.inl ⟨_, h⟩)
  · exact .inr (.inr (.inl h))
  · exact .inr (.inr (.inr h))

/-- The dispatch in entry `i` that is with the device. -/
def live (q : Queue) (i : Fin maxQueue) : Option Flight :=
  (q.flights i).filter fun f => f.state == .dispatched

theorem live_eq_some {f : Flight} :
    q.live i = some f ↔ q.flights i = some f ∧ f.state = .dispatched := by
  simp [live, Option.filter_eq_some_iff]

theorem flightIndex_none {seq : Nat} (h : q.flightIndex seq .dispatched = none) :
    ∀ i f, q.live i = some f → f.seq ≠ seq := by
  intro i f hf hs
  obtain ⟨hf, hd⟩ := live_eq_some.mp hf
  simp only [flightIndex, List.find?_eq_none, List.mem_finRange, true_imp_iff] at h
  simpa [hf, hd, hs] using h i

theorem flightIndex_some {seq : Nat} (h : q.flightIndex seq .dispatched = some i) :
    ∃ f, q.live i = some f ∧ f.seq = seq := by
  have := List.find?_some h
  simp only [Option.any_eq_true, Bool.and_eq_true, beq_iff_eq] at this
  obtain ⟨f, hf, hs, hd⟩ := this
  exact ⟨f, live_eq_some.mpr ⟨hf, hd⟩, hs⟩

/-- `q'` is `q` with the dispatch of `seq` no longer with the device. -/
structure Retired (q q' : Queue) (seq : Nat) : Prop where
  slots : q'.slots = q.slots
  nextSeq : q'.nextSeq = q.nextSeq
  live : (∀ i, q'.live i = q.live i) ∧ (∀ i f, q.live i = some f → f.seq ≠ seq) ∨
    ∃ i f, q.live i = some f ∧ f.seq = seq ∧ q'.live = Function.update q.live i none

theorem live_update {o : Option Flight} :
    ({ q with flights := Function.update q.flights i o } : Queue).live =
      Function.update q.live i (o.filter fun f => f.state == .dispatched) := by
  funext j
  by_cases h : j = i
  · subst h; simp [live]
  · simp [live, h]

theorem retire_retired (q : Queue) (seq : Nat) : Retired q (q.retire seq) seq := by
  unfold retire
  cases hi : q.flightIndex seq .dispatched with
  | none => exact ⟨rfl, rfl, .inl ⟨fun _ => rfl, flightIndex_none hi⟩⟩
  | some i =>
    obtain ⟨f, hf, hs⟩ := flightIndex_some hi
    exact ⟨rfl, rfl, .inr ⟨i, f, hf, hs, live_update⟩⟩

theorem requeue_cases (q : Queue) (r : Request) :
    (∃ e, q.requeue r = (.error e, q.retire r.seq)) ∨
    ∃ i, q.slots i = none ∧
      q.requeue r =
        (.ok (),
          { q.retire r.seq with
            slots := Function.update q.slots i (some r), n := (q.retire r.seq).n + 1 }) := by
  have hslots := (retire_retired q r.seq).slots
  unfold requeue
  simp only
  split
  · exact .inl ⟨_, rfl⟩
  split
  · exact .inl ⟨_, rfl⟩
  rcases insertSlot_cases (q.retire r.seq) r with h | ⟨i, hi, h⟩
  · exact .inl ⟨_, h⟩
  · rw [hslots] at hi h
    exact .inr ⟨i, hi, h⟩

/-- A slot the scan may choose: a flush, or a request no older write blocks. -/
def Eligible (q : Queue) (i : Fin maxQueue) : Prop :=
  ∃ r, q.slots i = some r ∧ (r.bio.op = .flush ∨ q.blocked r = false)

def Scan.Sound (q : Queue) (s : Scan) : Prop :=
  (∀ k i, s.flush = some (k, i) → q.Eligible i) ∧
    (∀ k i, s.fwd = some (k, i) → q.Eligible i) ∧ ∀ k i, s.wrap = some (k, i) → q.Eligible i

theorem Scan.better_sound {best : Option (Nat × Fin maxQueue)} {key : Nat}
    (hb : ∀ k j, best = some (k, j) → q.Eligible j) (hi : q.Eligible i) :
    ∀ k j, Scan.better best key i = some (k, j) → q.Eligible j := by
  intro k j h
  unfold Scan.better at h
  split at h
  · split at h <;> cases h
    · exact hb _ _ rfl
    · exact hi
  · cases h
    exact hi

theorem scanSlot_sound {s : Scan} (h : s.Sound q) (i : Fin maxQueue) :
    (q.scanSlot s i).Sound q := by
  obtain ⟨h1, h2, h3⟩ := h
  unfold scanSlot
  split
  · exact ⟨h1, h2, h3⟩
  rename_i r hr
  split
  · rename_i hop
    exact ⟨Scan.better_sound h1 ⟨r, hr, .inl (beq_iff_eq.mp hop)⟩, h2, h3⟩
  split
  · exact ⟨h1, h2, h3⟩
  rename_i hb
  have hi : q.Eligible i := ⟨r, hr, .inr (by simpa using hb)⟩
  split
  · exact ⟨h1, Scan.better_sound h2 hi, h3⟩
  · exact ⟨h1, h2, Scan.better_sound h3 hi⟩

theorem scan_sound (q : Queue) : q.scan.Sound q := by
  unfold scan
  generalize List.finRange maxQueue = is
  have h0 : Scan.Sound q {} := by simp [Scan.Sound]
  generalize ({} : Scan) = s at h0
  induction is generalizing s with
  | nil => exact h0
  | cons i is ih => exact ih _ (scanSlot_sound h0 i)

theorem takeChosen_spec {q q' : Queue} {r : Request} (h : q.takeChosen q.scan = some (r, q')) :
    ∃ i, q.slots i = some r ∧ (r.bio.op = .flush ∨ q.blocked r = false) ∧
      q'.slots = Function.update q.slots i none ∧ q'.flights = q.flights ∧
      q'.nextSeq = q.nextSeq ∧ q'.nativeFua = q.nativeFua := by
  obtain ⟨h1, h2, h3⟩ := scan_sound q
  have chosen : ∀ i t, q.Eligible i → q.take i = some t → q.slots i = some t.1 ∧
      (t.1.bio.op = .flush ∨ q.blocked t.1 = false) ∧
      t.2 = { q with slots := Function.update q.slots i none, n := q.n - 1 } := by
    rintro i t ⟨r', hr', hok⟩ ht
    simp only [take, hr', Option.map_some, Option.some.injEq] at ht
    subst ht
    exact ⟨hr', hok, rfl⟩
  unfold takeChosen at h
  split at h
  · rename_i k i hfl
    obtain ⟨hr, hok, hq⟩ := chosen i _ (h1 k i hfl) h
    simp only at hq
    subst hq
    exact ⟨i, hr, hok, rfl, rfl, rfl, rfl⟩
  · split at h
    · rename_i k i hor
      have hi : q.Eligible i := by
        rcases Option.or_eq_some_iff.mp hor with hf | ⟨-, hw⟩
        · exact h2 k i hf
        · exact h3 k i hw
      simp only [Option.map_eq_some_iff, Prod.mk.injEq] at h
      obtain ⟨t, ht, rfl, rfl⟩ := h
      obtain ⟨hr, hok, hq⟩ := chosen i t hi ht
      refine ⟨i, hr, hok, ?_⟩
      simp [hq]
    · cases h

/-- The in-flight entry of a request `pick` hands out. -/
def flightOf (r : Request) (emulatedFua : Bool) : Flight :=
  { seq := r.seq, bio := r.bio, emulatedFua, state := .dispatched, waiters := r.waiters }

/-- `pick` sends the flush an entry owes, or moves a queued request that nothing
blocks to an empty entry. -/
theorem pick_cases {q q' : Queue} {r : Request} (h : q.pick = (some r, q')) :
    (∃ i f, q.flights i = some f ∧ f.state = .flushDue ∧
      r = { Request.new .flush 0 0 with seq := q.nextSeq, waiters := f.waiters } ∧
      q' = q.freshSeq.2.dispatch i r false) ∨
    (∃ i j b, q.slots i = some r ∧ (r.bio.op = .flush ∨ q.blocked r = false) ∧
      q.flights j = none ∧ q'.slots = Function.update q.slots i none ∧
      q'.flights = Function.update q.flights j (some (flightOf r b)) ∧
      q'.nextSeq = q.nextSeq ∧ b = (r.fua && !q.nativeFua)) := by
  unfold pick at h
  cases hd : q.dueIndex with
  | some t =>
    obtain ⟨i, f⟩ := t
    simp only [dueFlush, hd, Option.map_some, Prod.mk.injEq, Option.some.injEq] at h
    obtain ⟨rfl, rfl⟩ := h
    obtain ⟨j, -, hj⟩ := List.exists_of_findSome?_eq_some hd
    simp only [Option.bind_eq_some_iff, Option.ite_none_right_eq_some, Option.some.injEq,
      Prod.mk.injEq, beq_iff_eq] at hj
    obtain ⟨f', hf', hdue, rfl, rfl⟩ := hj
    exact .inl ⟨_, _, hf', hdue, rfl, rfl⟩
  | none =>
    simp only [dueFlush, hd, Option.map_none] at h
    split at h
    · cases h
    split at h
    · cases h
    rename_i free hfree
    split at h
    · cases h
    rename_i r' q₁ hc
    obtain ⟨i, hr, hok, hs, hf, hn, hnative⟩ := takeChosen_spec hc
    simp only [Prod.mk.injEq, Option.some.injEq] at h
    obtain ⟨rfl, rfl⟩ := h
    exact .inr ⟨i, free, r'.fua && !q₁.nativeFua, hr, hok, freeFlight_eq_some hfree, hs,
      by simp only [dispatch, hf, flightOf], hn, by rw [hnative]⟩

end Queue
end VibeOS.Block
