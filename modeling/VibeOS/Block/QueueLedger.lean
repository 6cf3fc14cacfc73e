import Mathlib.Data.Finset.Max
import Mathlib.Data.Fintype.Basic
import VibeOS.Block.Queue
import VibeOS.Lib.Table

/-!
The queue as two multisets, the queued requests and the in-flight entries, and what each
operation does to them. Waiters move with the requests and entries that carry them. Of the queued
writes and discards one of the smallest seq is blocked by no queued request, whatever merges and
requeues made of the numbers; so when nothing that changes the media is in flight, something can be
dispatched.
-/
namespace VibeOS.Block.Queue
open Lib

variable {q q' : Queue} {r : Request} {seq : Nat}

def queued (q : Queue) : Multiset Request :=
  filled q.slots

def flying (q : Queue) : Multiset Flight :=
  filled q.flights

/-- The entries of `fs` in a state. -/
def inState (state : FlightState) (fs : Multiset Flight) : Multiset Flight :=
  fs.filter fun f => f.state = state

theorem inState_cons_of_eq {state : FlightState} {f : Flight} (h : f.state = state)
    (fs : Multiset Flight) : inState state (f ::ₘ fs) = f ::ₘ inState state fs :=
  Multiset.filter_cons_of_pos (p := fun f : Flight => f.state = state) _ h

theorem inState_cons_of_ne {state : FlightState} {f : Flight} (h : f.state ≠ state)
    (fs : Multiset Flight) : inState state (f ::ₘ fs) = inState state fs :=
  Multiset.filter_cons_of_neg (p := fun f : Flight => f.state = state) _ h

theorem inState_add (state : FlightState) (fs gs : Multiset Flight) :
    inState state (fs + gs) = inState state fs + inState state gs :=
  Multiset.filter_add _ _ _

/-- The waiters queued requests and in-flight entries carry. -/
def waiting (q : Queue) : Multiset Nat :=
  q.queued.bind (fun r => (r.waiters : Multiset Nat)) +
    q.flying.bind fun f => (f.waiters : Multiset Nat)

theorem merged_waiters (dst src : Request) (front : Bool) :
    ((merged dst src front).waiters : Multiset Nat) = dst.waiters + src.waiters := by
  cases front
  · simp [merged]
  · simp [merged, List.perm_append_comm]

/-- An accepted request is queued by itself, or joins a queued one of another seq; neither
of two that merge is a `Fua` write. -/
theorem submit_queued {req : Request} (h : q.submit req = (.ok (), q')) :
    q'.nextSeq = (q.nextSeq + 1) % 2 ^ 64 ∧ q'.flights = q.flights ∧ q'.nativeFua = q.nativeFua ∧
      (q'.queued = q.numbered req ::ₘ q.queued ∨
        ∃ dst r rest, q.queued = dst ::ₘ rest ∧ q'.queued = r ::ₘ rest ∧
          (r.waiters : Multiset Nat) = dst.waiters + req.waiters ∧
          r.seq = min q.nextSeq dst.seq ∧ r.bio.op = dst.bio.op ∧ r.bio.op ≠ .flush ∧
          req.fua = false ∧ dst.fua = false ∧ r.fua = false) := by
  rcases submit_cases q req with ⟨e, he⟩ | ⟨e, he⟩ | ⟨i, r, ht, he⟩ | ⟨i, -, hi, he⟩
  · rw [h] at he
    cases he
  · rw [h] at he
    cases he
  · rw [h, Prod.mk.injEq] at he
    obtain ⟨-, rfl⟩ := he
    refine ⟨rfl, rfl, rfl, .inr ?_⟩
    obtain ⟨-, dst, hdst, hm⟩ := mergeTarget_eq_some ht
    obtain ⟨hk, rfl⟩ := mergeInto_eq_some hm
    have hkind : dst.bio.op.canMerge = true ∧ dst.fua = false ∧ req.fua = false := by
      unfold mergeKind at hk
      split at hk
      · exact absurd rfl hk
      · rename_i hn
        simp only [Bool.or_eq_true, bne_iff_ne, not_or, not_not, Bool.not_eq_true] at hn
        exact ⟨by simpa using hn.1.1.2, hn.1.2, hn.2⟩
    refine ⟨dst, _, filledBut q.slots i, filled_of_some hdst, filled_update_some _ _ _,
      merged_waiters _ _ _, ?_, rfl, ?_, hkind.2.2, hkind.2.1, hkind.2.1⟩
    · change (if q.nextSeq < dst.seq then q.nextSeq else dst.seq) = min q.nextSeq dst.seq
      rcases lt_or_ge q.nextSeq dst.seq with hlt | hge
      · rw [if_pos hlt, min_eq_left hlt.le]
      · rw [if_neg (not_lt.mpr hge), min_eq_right hge]
    · intro hop
      have hop : dst.bio.op = .flush := hop
      rw [hop] at hkind
      cases hkind.1
  · rw [h, Prod.mk.injEq] at he
    obtain ⟨-, rfl⟩ := he
    refine ⟨rfl, rfl, rfl, .inl ?_⟩
    rw [queued, filled_update_some, queued, filled_of_none hi]

theorem submit_refused {req : Request} {e : BlockError} (h : q.submit req = (.error e, q')) :
    q'.slots = q.slots ∧ q'.flights = q.flights ∧ q'.nativeFua = q.nativeFua ∧
      (q'.nextSeq = q.nextSeq ∨ q'.nextSeq = (q.nextSeq + 1) % 2 ^ 64) := by
  rcases submit_cases q req with ⟨e, he⟩ | ⟨e, he⟩ | ⟨i, r, ht, he⟩ | ⟨i, -, hi, he⟩
  · rw [h, Prod.mk.injEq] at he
    obtain ⟨-, rfl⟩ := he
    exact ⟨rfl, rfl, rfl, .inl rfl⟩
  · rw [h, Prod.mk.injEq] at he
    obtain ⟨-, rfl⟩ := he
    exact ⟨rfl, rfl, rfl, .inr rfl⟩
  · rw [h] at he
    cases he
  · rw [h] at he
    cases he

def owedFlush (q : Queue) (f : Flight) : Request :=
  { Request.new .flush 0 0 with seq := q.nextSeq, waiters := f.waiters }

/-- `pick` turns an entry that owes a flush into the flush's, or moves a queued request
in flight. -/
theorem pick_moves (h : q.pick = (some r, q')) : q'.nativeFua = q.nativeFua ∧
    ((∃ f rest, f.state = .flushDue ∧ q.flying = f ::ₘ rest ∧ r = q.owedFlush f ∧
        q'.queued = q.queued ∧ q'.flying = flightOf r false ::ₘ rest ∧
        q'.nextSeq = (q.nextSeq + 1) % 2 ^ 64) ∨
      (q.queued = r ::ₘ q'.queued ∧
        q'.flying = flightOf r (r.fua && !q.nativeFua) ::ₘ q.flying ∧ q'.nextSeq = q.nextSeq)) := by
  have hnative : q'.nativeFua = q.nativeFua := by
    unfold pick at h
    split at h
    · rename_i i r' q₁ hd
      simp only [dueFlush, Option.map_eq_some_iff] at hd
      obtain ⟨t, -, ht⟩ := hd
      cases ht
      cases h
      rfl
    · split at h
      · cases h
      split at h
      · cases h
      split at h
      · cases h
      rename_i hc
      obtain ⟨-, -, -, -, -, -, hn⟩ := takeChosen_spec hc
      cases h
      exact hn
  refine ⟨hnative, ?_⟩
  rcases pick_cases h with ⟨i, f, hf, hdue, hr, rfl⟩ | ⟨i, j, b, hr, -, hj, hs, hfl, hn, rfl⟩
  · exact .inl ⟨f, filledBut q.flights i, hdue, filled_of_some hf, hr, rfl,
      filled_update_some _ _ _, rfl⟩
  · refine .inr ⟨?_, ?_, hn⟩
    · rw [queued, filled_of_some hr, queued, hs, filled_update_none]
    · rw [flying, hfl, filled_update_some, flying, filled_of_none hj]

theorem retire_clears (q : Queue) (seq : Nat) :
    (q.retire seq).slots = q.slots ∧ (q.retire seq).nextSeq = q.nextSeq ∧
      (q.retire seq).nativeFua = q.nativeFua ∧
      ((q.retire seq = q ∧ ∀ f ∈ q.flying, f.state = .dispatched → f.seq ≠ seq) ∨
        ∃ f, f.seq = seq ∧ f.state = .dispatched ∧ q.flying = f ::ₘ (q.retire seq).flying) := by
  unfold retire
  cases hi : q.flightIndex seq .dispatched with
  | none =>
    refine ⟨rfl, rfl, rfl, .inl ⟨rfl, fun f hf hd => ?_⟩⟩
    obtain ⟨i, hfi⟩ := mem_filled.mp hf
    exact flightIndex_none hi i f (live_eq_some.mpr ⟨hfi, hd⟩)
  | some i =>
    obtain ⟨f, hf, hs⟩ := flightIndex_some hi
    obtain ⟨hfl, hd⟩ := live_eq_some.mp hf
    refine ⟨rfl, rfl, rfl, .inr ⟨f, hs, hd, ?_⟩⟩
    rw [flying, filled_of_some hfl, flying]
    exact congrArg _ (filled_update_none _ _).symm

theorem complete_moves (q : Queue) (seq : Nat) :
    (q.complete seq).2.slots = q.slots ∧ (q.complete seq).2.nextSeq = q.nextSeq ∧
      (q.complete seq).2.nativeFua = q.nativeFua ∧
      ((q.complete seq = (.report, q) ∧ ∀ f ∈ q.flying, f.state = .dispatched → f.seq ≠ seq) ∨
        ∃ f rest, f.seq = seq ∧ f.state = .dispatched ∧ q.flying = f ::ₘ rest ∧
          ((f.emulatedFua = true ∧ (q.complete seq).1 = .deferred ∧
              (q.complete seq).2.flying = { f with state := .flushDue } ::ₘ rest) ∨
            (f.emulatedFua = false ∧ (q.complete seq).1 = .report ∧
              (q.complete seq).2.flying = rest))) := by
  unfold complete
  cases hi : q.flightIndex seq .dispatched with
  | none =>
    refine ⟨rfl, rfl, rfl, .inl ⟨rfl, fun f hf hd => ?_⟩⟩
    obtain ⟨i, hfi⟩ := mem_filled.mp hf
    exact flightIndex_none hi i f (live_eq_some.mpr ⟨hfi, hd⟩)
  | some i =>
    obtain ⟨f, hf, hs⟩ := flightIndex_some hi
    obtain ⟨hfl, hd⟩ := live_eq_some.mp hf
    simp only [hfl]
    split
    · rename_i he
      exact ⟨rfl, rfl, rfl, .inr ⟨f, filledBut q.flights i, hs, hd, filled_of_some hfl,
        .inl ⟨he, rfl, filled_update_some _ _ _⟩⟩⟩
    · rename_i he
      exact ⟨rfl, rfl, rfl, .inr ⟨f, filledBut q.flights i, hs, hd, filled_of_some hfl,
        .inr ⟨by simpa using he, rfl, filled_update_none _ _⟩⟩⟩

theorem requeue_queued (q : Queue) (r : Request) :
    (q.requeue r).2.flights = (q.retire r.seq).flights ∧ (q.requeue r).2.nextSeq = q.nextSeq ∧
      (q.requeue r).2.nativeFua = q.nativeFua ∧
      ((∃ e, (q.requeue r).1 = .error e ∧ (q.requeue r).2.slots = q.slots) ∨
        (q.requeue r).1 = .ok () ∧ (q.requeue r).2.queued = r ::ₘ q.queued) := by
  obtain ⟨hslots, hnext, hnative, -⟩ := retire_clears q r.seq
  rcases requeue_cases q r with ⟨e, he⟩ | ⟨i, hi, he⟩
  · rw [he]
    exact ⟨rfl, hnext, hnative, .inl ⟨e, rfl, hslots⟩⟩
  · rw [he]
    refine ⟨rfl, hnext, hnative, .inr ⟨rfl, ?_⟩⟩
    rw [queued, filled_update_some, queued, filled_of_none hi]

theorem drainSlots_queued (room : Nat) (q : Queue) (out : List Request) (is : List (Fin maxQueue)) :
    (drainSlots room q out is).1.flights = q.flights ∧
      (drainSlots room q out is).1.nextSeq = q.nextSeq ∧
      (drainSlots room q out is).1.nativeFua = q.nativeFua ∧
      (q.queued + out : Multiset Request) =
        (drainSlots room q out is).1.queued + (drainSlots room q out is).2 := by
  induction is generalizing q out with
  | nil => exact ⟨rfl, rfl, rfl, rfl⟩
  | cons i is ih =>
    unfold drainSlots
    split
    · cases hi : q.slots i with
      | none =>
        simp only [take, hi, Option.map_none]
        exact ih q out
      | some r =>
        simp only [take, hi, Option.map_some]
        obtain ⟨h1, h2, h3, h4⟩ := ih
          { q with slots := Function.update q.slots i none, n := q.n - 1 } (out ++ [r])
        refine ⟨h1, h2, h3, h4 ▸ ?_⟩
        rw [queued, filled_of_some hi, queued]
        simp only [filled_update_none]
        rw [← Multiset.coe_add, ← Multiset.singleton_add, Multiset.coe_singleton]
        ac_rfl
    · exact ⟨rfl, rfl, rfl, rfl⟩

theorem dueFlush_some {i : Fin maxQueue} (h : q.dueFlush = some (i, r, q')) :
    ∃ f, q.flights i = some f ∧ f.state = .flushDue ∧ r = q.owedFlush f ∧ q' = q.freshSeq.2 := by
  simp only [dueFlush, Option.map_eq_some_iff, Prod.exists] at h
  obtain ⟨j, f, hd, he⟩ := h
  obtain ⟨j', -, hj⟩ := List.exists_of_findSome?_eq_some hd
  simp only [Option.bind_eq_some_iff, Option.ite_none_right_eq_some, Option.some.injEq,
    Prod.mk.injEq, beq_iff_eq] at hj
  obtain ⟨f', hf', hdue, rfl, rfl⟩ := hj
  cases he
  exact ⟨f', hf', hdue, rfl, rfl⟩

theorem drainFlushes_flying (q : Queue) (out : List Request) (left : Nat)
    (hseq : q.nextSeq < 2 ^ 64) :
    ∃ fs : List Flight, (∀ f ∈ fs, f.state = .flushDue) ∧
      (drainFlushes q out left).1.slots = q.slots ∧
      (drainFlushes q out left).1.nativeFua = q.nativeFua ∧
      q.flying = (fs : Multiset Flight) + (drainFlushes q out left).1.flying ∧
      (drainFlushes q out left).1.nextSeq = (q.nextSeq + fs.length) % 2 ^ 64 ∧
      ((drainFlushes q out left).2.flatMap Request.waiters =
        out.flatMap Request.waiters ++ fs.flatMap Flight.waiters) := by
  have done : ∃ fs : List Flight, (∀ f ∈ fs, f.state = .flushDue) ∧ q.slots = q.slots ∧
      q.nativeFua = q.nativeFua ∧ q.flying = (fs : Multiset Flight) + q.flying ∧
      q.nextSeq = (q.nextSeq + fs.length) % 2 ^ 64 ∧
      (out.flatMap Request.waiters = out.flatMap Request.waiters ++ fs.flatMap Flight.waiters) :=
    ⟨[], by simp, rfl, rfl, by simp, (Nat.mod_eq_of_lt hseq).symm, by simp⟩
  induction left generalizing q out with
  | zero => exact done
  | succ left ih =>
    unfold drainFlushes
    cases hd : q.dueFlush with
    | none => exact done
    | some t =>
      obtain ⟨i, r, q₁⟩ := t
      obtain ⟨f, hf, hdue, rfl, rfl⟩ := dueFlush_some hd
      have hlt : (q.nextSeq + 1) % 2 ^ 64 < 2 ^ 64 := Nat.mod_lt _ (by decide)
      obtain ⟨fs, hfs, hslots, hnative, hfly, hnext, hout⟩ :=
        ih (q.freshSeq.2.clearFlight i) (out ++ [q.owedFlush f]) hlt
          ⟨[], by simp, rfl, rfl, by simp, (Nat.mod_eq_of_lt hlt).symm, by simp⟩
      refine ⟨f :: fs, ?_, hslots, hnative, ?_, ?_, ?_⟩
      · simpa [hdue] using hfs
      · rw [flying, filled_of_some hf, ← Multiset.cons_coe, Multiset.cons_add, ← hfly]
        exact congrArg _ (filled_update_none _ _).symm
      · rw [hnext]
        simp only [clearFlight, freshSeq, List.length_cons, Nat.mod_add_mod]
        congr 1
        omega
      · rw [hout]
        simp [owedFlush]

variable {i : Fin maxQueue}

theorem not_blocked_of_reads (h : r.bio.op.writesMedia = false) : q.blocked r = false := by
  rw [blocked, h, Bool.false_and]

theorem not_blocked (hflights : ∀ i f, q.flights i = some f → f.state = .dispatched →
      f.bio.op.writesMedia = false)
    (hslots : ∀ i s, q.slots i = some s → s.bio.op.writesMedia = true → r.seq ≤ s.seq) :
    q.blocked r = false := by
  rw [blocked, Bool.and_eq_false_iff]
  refine .inr (List.any_eq_false.mpr fun i _ => ?_)
  rw [Bool.or_eq_true, not_or, Bool.not_eq_true, Bool.not_eq_true]
  constructor
  · cases hf : q.flights i with
    | none => rfl
    | some f =>
      by_cases hd : f.state = .dispatched
      · simp [flightBlocks, hflights i f hf hd]
      · simp [flightBlocks, hd]
  · cases hs : q.slots i with
    | none => rfl
    | some s =>
      by_cases hw : s.bio.op.writesMedia = true
      · simp [slotBlocks, hslots i s hs hw]
      · simp [slotBlocks, hw]

theorem exists_eligible (hr : q.slots i = some r)
    (hflights : ∀ i f, q.flights i = some f → f.state = .dispatched →
      f.bio.op.writesMedia = false) :
    ∃ i, q.Eligible i := by
  by_cases hw : r.bio.op.writesMedia = true
  · let writers := Finset.univ.filter fun i => (q.slots i).any fun s => s.bio.op.writesMedia
    have hne : writers.Nonempty := ⟨i, by simp [writers, hr, hw]⟩
    obtain ⟨j, hj, hmin⟩ :=
      writers.exists_min_image (fun i => ((q.slots i).map Request.seq).getD 0) hne
    rw [Finset.mem_filter, Option.any_eq_true] at hj
    obtain ⟨-, s, hs, -⟩ := hj
    refine ⟨j, s, hs, .inr (not_blocked hflights fun k s' hs' hw' => ?_)⟩
    have := hmin k (by simp [writers, hs', hw'])
    simpa [hs, hs'] using this
  · exact ⟨i, r, hr, .inr (not_blocked_of_reads (by simpa using hw))⟩

def Scan.Found (s : Scan) : Prop := s.flush.isSome ∨ (s.fwd.or s.wrap).isSome

theorem Scan.better_isSome (best : Option (Nat × Fin maxQueue)) (key : Nat) (i : Fin maxQueue) :
    (Scan.better best key i).isSome := by
  unfold Scan.better
  split
  · split <;> rfl
  · rfl

theorem scanSlot_found (s : Scan) (h : s.Found ∨ q.Eligible i) : (q.scanSlot s i).Found := by
  have hbetter := Scan.better_isSome
  unfold scanSlot
  split
  · rename_i hnone
    refine h.resolve_right fun ⟨r, hr, _⟩ => ?_
    rw [hnone] at hr
    cases hr
  · rename_i r hr
    split
    · exact .inl (hbetter ..)
    · rename_i hop
      split
      · rename_i hb
        refine h.resolve_right fun ⟨r', hr', hok⟩ => ?_
        rw [hr] at hr'
        cases hr'
        rcases hok with hflush | hfree
        · exact hop (beq_iff_eq.mpr hflush)
        · rw [hfree] at hb
          cases hb
      · split
        · exact .inr (by simp [hbetter])
        · exact .inr (by simp [hbetter])

theorem scan_found (h : q.Eligible i) : q.scan.Found := by
  have hfold : ∀ (is : List (Fin maxQueue)) (s : Scan), s.Found ∨ i ∈ is →
      (is.foldl q.scanSlot s).Found := by
    intro is
    induction is with
    | nil => exact fun s hs => hs.resolve_right List.not_mem_nil
    | cons j is ih =>
      intro s hs
      refine ih _ ?_
      rcases hs with hs | hs
      · exact .inl (scanSlot_found s (.inl hs))
      · rcases List.mem_cons.mp hs with rfl | hs
        · exact .inl (scanSlot_found s (.inr h))
        · exact .inr hs
  exact hfold _ _ (.inr (List.mem_finRange i))

theorem takeChosen_isSome (h : q.Eligible i) : (q.takeChosen q.scan).isSome := by
  obtain ⟨hflush, hfwd, hwrap⟩ := scan_sound q
  have htake : ∀ j, q.Eligible j → (q.take j).isSome := by
    rintro j ⟨r, hr, -⟩
    rw [take, hr]
    rfl
  unfold takeChosen
  split
  · rename_i k j hs
    exact htake j (hflush k j hs)
  · rename_i hs
    split
    · rename_i k j hor
      rw [Option.isSome_map]
      rcases Option.or_eq_some_iff.mp hor with hf | ⟨-, hw⟩
      · exact htake j (hfwd k j hf)
      · exact htake j (hwrap k j hw)
    · rename_i hor
      have := scan_found h
      rw [Scan.Found, hs, hor] at this
      simp at this

theorem dueIndex_isSome {f : Flight} (hf : q.flights i = some f) (hdue : f.state = .flushDue) :
    q.dueIndex.isSome := by
  rw [dueIndex, List.findSome?_isSome_iff]
  exact ⟨i, List.mem_finRange i, by simp [hf, hdue]⟩

theorem pick_of_due {f : Flight} (hf : q.flights i = some f) (hdue : f.state = .flushDue) :
    ∃ r, q.pick.1 = some r := by
  obtain ⟨t, ht⟩ := Option.isSome_iff_exists.mp (dueIndex_isSome hf hdue)
  simp only [pick, dueFlush, ht, Option.map_some]
  exact ⟨_, rfl⟩

theorem pick_of_queued (hn : q.n ≠ 0) (hr : q.slots i = some r)
    (hflights : ∀ i f, q.flights i = some f → f.state = .dispatched → f.bio.op.writesMedia = false)
    (hroom : ∃ j, q.flights j = none) : ∃ r, q.pick.1 = some r := by
  obtain ⟨k, hk⟩ := exists_eligible hr hflights
  obtain ⟨t, ht⟩ := Option.isSome_iff_exists.mp (takeChosen_isSome hk)
  obtain ⟨j, hj⟩ := hroom
  have hfree : q.freeFlight.isSome := by
    rw [freeFlight, List.find?_isSome]
    exact ⟨j, List.mem_finRange j, by simp [hj]⟩
  obtain ⟨free, hfree⟩ := Option.isSome_iff_exists.mp hfree
  unfold pick
  split
  · exact ⟨_, rfl⟩
  · rw [if_neg (by simpa using hn), hfree, ht]
    exact ⟨_, rfl⟩

def Counted (q : Queue) : Prop := q.n = q.queued.card

theorem Counted.insert (h : q.Counted) (hi : q.slots i = none)
    (hslots : q'.slots = Function.update q.slots i (some r)) (hn : q'.n = q.n + 1) :
    q'.Counted := by
  rw [Counted, hn, h, queued, queued, hslots, filled_update_some, filled_of_none hi,
    Multiset.card_cons]

theorem Counted.congr (h : q.Counted) (hslots : q'.slots = q.slots) (hn : q'.n = q.n) :
    q'.Counted := by
  rw [Counted, hn, h, queued, queued, hslots]

theorem Counted.submit (h : q.Counted) (req : Request) : (q.submit req).2.Counted := by
  rcases submit_cases q req with ⟨e, he⟩ | ⟨e, he⟩ | ⟨i, r, ht, he⟩ | ⟨i, -, hi, he⟩
  · rw [he]
    exact h
  · rw [he]
    exact h.congr rfl rfl
  · rw [he]
    obtain ⟨-, dst, hdst, -⟩ := mergeTarget_eq_some ht
    have hdst : q.slots i = some dst := hdst
    change q.n = (filled (Function.update q.slots i (some r))).card
    rw [h, queued, filled_of_some hdst, filled_update_some, Multiset.card_cons, Multiset.card_cons]
  · rw [he]
    exact h.insert hi rfl rfl

theorem retire_n (q : Queue) (seq : Nat) : (q.retire seq).n = q.n := by
  unfold retire
  split <;> rfl

theorem Counted.retire (h : q.Counted) (seq : Nat) : (q.retire seq).Counted :=
  h.congr (retire_clears q seq).1 (q.retire_n seq)

theorem Counted.complete (h : q.Counted) (seq : Nat) : (q.complete seq).2.Counted := by
  refine h.congr (complete_moves q seq).1 ?_
  unfold Queue.complete
  split
  · rfl
  · split
    · split <;> rfl
    · rfl

theorem Counted.requeue (h : q.Counted) (r : Request) : (q.requeue r).2.Counted := by
  have hslots := (retire_clears q r.seq).1
  rcases requeue_cases q r with ⟨e, he⟩ | ⟨i, hi, he⟩
  · rw [he]
    exact h.retire r.seq
  · rw [he]
    exact (h.retire r.seq).insert (hslots ▸ hi) (by rw [hslots]) rfl

theorem take_counted (h : q.Counted) {t : Request × Queue} (ht : q.take i = some t) :
    t.2.Counted := by
  simp only [take, Option.map_eq_some_iff] at ht
  obtain ⟨r, hr, rfl⟩ := ht
  change q.n - 1 = (filled (Function.update q.slots i none)).card
  rw [h, queued, filled_of_some hr, filled_update_none, Multiset.card_cons, Nat.add_sub_cancel]

theorem Counted.pick (h : q.Counted) : q.pick.2.Counted := by
  unfold Queue.pick
  split
  · rename_i j r q₁ hd
    obtain ⟨f, -, -, -, rfl⟩ := dueFlush_some hd
    exact h.congr rfl rfl
  · split
    · exact h
    · split
      · exact h
      · split
        · exact h
        · rename_i r q₁ hc
          refine Counted.congr (q := q₁) ?_ rfl rfl
          unfold takeChosen at hc
          split at hc
          · exact take_counted h hc
          · split at hc
            · rw [Option.map_eq_some_iff] at hc
              obtain ⟨t, ht, heq⟩ := hc
              cases heq
              exact (take_counted h ht).congr rfl rfl
            · cases hc

/-- A call of the queue by its users and its driver. -/
inductive Call where
  | submit (r : Request)
  | pick
  | complete (seq : Nat)
  | abort (seq : Nat)
  | requeue (r : Request)

def call (q : Queue) : Call → Queue
  | .submit r => (q.submit r).2
  | .pick => q.pick.2
  | .complete seq => (q.complete seq).2
  | .abort seq => q.abort seq
  | .requeue r => (q.requeue r).2

/-- The queue of a device after some calls. -/
def calls (nativeFua : Bool) (cs : List Call) : Queue := cs.foldl call { Queue.new with nativeFua }

theorem Counted.call (h : q.Counted) (c : Call) : (q.call c).Counted := by
  cases c with
  | submit r => exact h.submit r
  | pick => exact h.pick
  | complete seq => exact h.complete seq
  | abort seq => exact h.retire seq
  | requeue r => exact h.requeue r

theorem counted_calls (nativeFua : Bool) (cs : List Call) : (calls nativeFua cs).Counted := by
  have hfold : ∀ q : Queue, q.Counted → (cs.foldl Queue.call q).Counted := by
    induction cs with
    | nil => exact fun q hq => hq
    | cons c cs ih => exact fun q hq => ih _ (hq.call c)
  refine hfold _ ?_
  change 0 = (filled fun _ : Fin maxQueue => (none : Option Request)).card
  rw [filled_empty, Multiset.card_zero]

end VibeOS.Block.Queue
