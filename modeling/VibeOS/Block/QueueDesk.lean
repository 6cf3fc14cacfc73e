import VibeOS.Block.QueueCookies
import VibeOS.Block.QueueLedger

/-!
The queue and the driver that hands waiters back. The driver keeps the requests `pick`
returned; it completes, aborts or requeues one of them, and reports the waiters of a
request whose completion the queue lets it report, that it aborts, that the queue does
not take back, or that a drain hands out. While no sequence number is drawn twice this
refines the ledger.
-/
namespace VibeOS.Block
open Queue

structure Desk where
  q : Queue
  held : List Request
  accepted : List Request
  handed : List Nat
  drawn : Nat
  log : List Event

/-- The driver names the requests it holds by their place in its list. -/
inductive DeskAct where
  | submit (r : Request)
  | pick
  | complete (k : Nat)
  | abort (k : Nat)
  | requeue (k retries : Nat)
  | drain (room : Nat)
  | fail

namespace Desk
variable {d d' : Desk} {r : Request}

def init (nativeFua : Bool) : Desk :=
  { q := { Queue.new with nativeFua }, held := [], accepted := [], handed := [], drawn := 0,
    log := [] }

/-- How many numbers were drawn from `q` to `q'`. -/
def drew (q q' : Queue) : Nat :=
  (q'.nextSeq + 2 ^ 64 - q.nextSeq) % 2 ^ 64

def submit (d : Desk) (req : Request) : Desk :=
  match d.q.submit req with
  | (.ok _, q') =>
    { d with q := q', drawn := d.drawn + drew d.q q', accepted := req :: d.accepted }
  | (.error _, q') => { d with q := q', drawn := d.drawn + drew d.q q' }

def pick (d : Desk) : Desk :=
  match d.q.pick with
  | (some r, q') =>
    { d with
      q := q', drawn := d.drawn + drew d.q q', held := r :: d.held, log := .picked r :: d.log }
  | (none, _) => d

def complete (d : Desk) (k : Nat) : Desk :=
  match d.held[k]? with
  | none => d
  | some r =>
    match d.q.complete r.seq with
    | (.report, q') =>
      { d with
        q := q', held := d.held.eraseIdx k, handed := d.handed ++ r.waiters
        log := .completed r .report :: d.log }
    | (.deferred, q') =>
      { d with q := q', held := d.held.eraseIdx k, log := .completed r .deferred :: d.log }

def abort (d : Desk) (k : Nat) : Desk :=
  match d.held[k]? with
  | none => d
  | some r =>
    { d with
      q := d.q.abort r.seq, held := d.held.eraseIdx k, handed := d.handed ++ r.waiters }

def requeue (d : Desk) (k retries : Nat) : Desk :=
  match d.held[k]? with
  | none => d
  | some r =>
    match d.q.requeue { r with retriesLeft := retries } with
    | (.ok _, q') => { d with q := q', held := d.held.eraseIdx k }
    | (.error _, q') =>
      { d with q := q', held := d.held.eraseIdx k, handed := d.handed ++ r.waiters }

def drain (d : Desk) (room : Nat) : Desk :=
  let (q', out) := d.q.drain room
  { d with
    q := q', drawn := d.drawn + drew d.q q', handed := d.handed ++ out.flatMap Request.waiters }

def step (d : Desk) : DeskAct → Desk
  | .submit r => d.submit r
  | .pick => d.pick
  | .complete k => d.complete k
  | .abort k => d.abort k
  | .requeue k retries => d.requeue k retries
  | .drain room => d.drain room
  | .fail => { d with q := d.q.fail }

def run (nativeFua : Bool) (acts : List DeskAct) : Desk :=
  acts.foldl step (init nativeFua)

def cookies (d : Desk) : List Nat :=
  d.accepted.flatMap Request.waiters

/-- The ledger the queue and its driver keep. -/
def ledger (d : Desk) : Ledger :=
  { queued := d.q.queued
    held := d.held
    due := (inState .flushDue d.q.flying).map Flight.waiters
    accepted := d.accepted
    handed := d.handed
    log := d.log }

/-- The entry `pick` makes for a request. -/
def entry (nativeFua : Bool) (r : Request) : Flight :=
  flightOf r (r.fua && !nativeFua)

/-- The driver holds what is dispatched, and every number in use was drawn once. -/
structure Matched (d : Desk) : Prop where
  next_seq : d.q.nextSeq = d.drawn % 2 ^ 64
  dispatched : inState .dispatched d.q.flying =
    (d.held : Multiset Request).map (entry d.q.nativeFua)
  nodup : (d.q.queued.map Request.seq + (d.held : Multiset Request).map Request.seq).Nodup
  seq_lt : ∀ s ∈ d.q.queued.map Request.seq + (d.held : Multiset Request).map Request.seq,
    s < d.drawn

theorem matched_init (nativeFua : Bool) : (init nativeFua).Matched := by
  have hq : (init nativeFua).q.queued = 0 := Lib.filled_empty
  have hf : (init nativeFua).q.flying = 0 := Lib.filled_empty
  refine ⟨rfl, ?_, ?_, ?_⟩
  · rw [hf]
    rfl
  · rw [hq]
    exact Multiset.nodup_zero
  · intro s hs
    rw [hq] at hs
    exact absurd hs (Multiset.notMem_zero s)

theorem drew_of_add {q q' : Queue} {k : Nat} (hk : k < 2 ^ 64) (hq : q.nextSeq < 2 ^ 64)
    (h : q'.nextSeq = (q.nextSeq + k) % 2 ^ 64) : drew q q' = k := by
  unfold drew
  omega

theorem drew_of_eq {q q' : Queue} (hq : q.nextSeq < 2 ^ 64) (h : q'.nextSeq = q.nextSeq) :
    drew q q' = 0 :=
  drew_of_add (by decide) hq (by rw [h, Nat.add_zero, Nat.mod_eq_of_lt hq])

theorem Matched.seq_bound (h : d.Matched) : d.q.nextSeq < 2 ^ 64 := by
  rw [h.next_seq]
  exact Nat.mod_lt _ (by decide)

theorem Matched.entry_eq (h : d.Matched) (hr : r ∈ d.held) {f : Flight} (hf : f ∈ d.q.flying)
    (hd : f.state = .dispatched) (hs : f.seq = r.seq) : f = entry d.q.nativeFua r := by
  have hm : f ∈ (d.held : Multiset Request).map (entry d.q.nativeFua) := by
    rw [← h.dispatched]
    exact Multiset.mem_filter.mpr ⟨hf, hd⟩
  obtain ⟨r', hr', rfl⟩ := Multiset.mem_map.mp hm
  have hnd := (Multiset.nodup_add.mp h.nodup).2.1
  rw [Multiset.inj_on_of_nodup_map hnd r' hr' r hr hs]

theorem Matched.entry_mem (h : d.Matched) (hr : r ∈ d.held) :
    entry d.q.nativeFua r ∈ d.q.flying := by
  have hm : entry d.q.nativeFua r ∈ inState .dispatched d.q.flying := by
    rw [h.dispatched]
    exact Multiset.mem_map_of_mem _ hr
  exact (Multiset.mem_filter.mp hm).1

theorem held_eq {k : Nat} (hk : d.held[k]? = some r) :
    (d.held : Multiset Request) = r ::ₘ (d.held.eraseIdx k : List Request) := by
  obtain ⟨hlt, rfl⟩ := List.getElem?_eq_some_iff.mp hk
  exact (Multiset.coe_eq_coe.mpr (List.getElem_cons_eraseIdx_perm hlt)).symm

theorem mem_held {k : Nat} (hk : d.held[k]? = some r) : r ∈ d.held :=
  List.mem_of_getElem? hk

theorem Matched.release (h : d.Matched) {k : Nat} (hk : d.held[k]? = some r) {q' : Queue}
    (hslots : q'.slots = d.q.slots) (hnext : q'.nextSeq = d.q.nextSeq)
    (hnative : q'.nativeFua = d.q.nativeFua)
    (hfly : inState .dispatched d.q.flying =
      entry d.q.nativeFua r ::ₘ inState .dispatched q'.flying)
    (handed : List Nat) (log : List Event) :
    Matched { d with q := q', held := d.held.eraseIdx k, handed, log } := by
  have hq : q'.queued = d.q.queued := by
    unfold queued
    rw [hslots]
  have hheld := held_eq hk
  have hdis := h.dispatched
  have hnd := h.nodup
  have hlt := h.seq_lt
  rw [hheld, Multiset.map_cons] at hdis hnd hlt
  rw [hfly, Multiset.cons_inj_right] at hdis
  refine ⟨hnext.trans h.next_seq, ?_, ?_, ?_⟩
  · simpa only [hnative] using hdis
  · simp only [hq]
    rw [Multiset.add_cons, Multiset.nodup_cons] at hnd
    exact hnd.2
  · simp only [hq]
    intro s hs
    refine hlt s ?_
    rw [Multiset.add_cons]
    exact Multiset.mem_cons_of_mem hs

theorem Matched.retire_eq (h : d.Matched) (hr : r ∈ d.held) :
    d.q.flying = entry d.q.nativeFua r ::ₘ (d.q.retire r.seq).flying := by
  obtain ⟨-, -, -, ⟨-, hnone⟩ | ⟨f, hs, hd, hf⟩⟩ := retire_clears d.q r.seq
  · exact absurd rfl (hnone _ (h.entry_mem hr) rfl)
  · have hmem : f ∈ d.q.flying := hf ▸ Multiset.mem_cons_self _ _
    rw [← h.entry_eq hr hmem hd hs]
    exact hf

theorem Matched.next_eq (h : d.Matched) (hlt : d.drawn < 2 ^ 64) : d.q.nextSeq = d.drawn := by
  rw [h.next_seq, Nat.mod_eq_of_lt hlt]

theorem Matched.drawn_succ (h : d.Matched) {q' : Queue}
    (hn : q'.nextSeq = (d.q.nextSeq + 1) % 2 ^ 64) :
    drew d.q q' = 1 ∧ q'.nextSeq = (d.drawn + 1) % 2 ^ 64 := by
  refine ⟨drew_of_add (by decide) h.seq_bound hn, ?_⟩
  rw [hn, h.next_seq, Nat.mod_add_mod]

/-- What `d` may become in one step: still matched, and a ledger's move away. -/
def Refines (d d' : Desk) : Prop :=
  d'.Matched ∧ Move (!d.q.nativeFua) d.ledger d'.ledger ∧ d'.q.nativeFua = d.q.nativeFua

theorem submit_refines (h : d.Matched) (req : Request) (hle : (d.submit req).drawn ≤ 2 ^ 64) :
    d.Refines (d.submit req) := by
  unfold submit at hle ⊢
  obtain ⟨res, q', hs⟩ : ∃ res q', d.q.submit req = (res, q') := ⟨_, _, rfl⟩
  rw [hs] at hle ⊢
  cases res with
  | error e =>
    obtain ⟨hslots, hfl, hnative, hn⟩ := submit_refused hs
    have hq : q'.queued = d.q.queued := congrArg Lib.filled hslots
    have hf : q'.flying = d.q.flying := congrArg Lib.filled hfl
    refine ⟨⟨?_, ?_, ?_, ?_⟩, ?_, hnative⟩
    · rcases hn with hn | hn
      · simp only [drew_of_eq h.seq_bound hn, hn, h.next_seq, Nat.add_zero]
      · simp only [h.drawn_succ hn]
    · simpa only [hf, hnative] using h.dispatched
    · simpa only [hq] using h.nodup
    · simp only [hq]
      exact fun s hs => Nat.lt_add_right _ (h.seq_lt s hs)
    · simp only [ledger, hq, hf]
      exact .skip _
  | ok u =>
    obtain ⟨hn, hfl, hnative, hcases⟩ := submit_queued hs
    have hf : q'.flying = d.q.flying := congrArg Lib.filled hfl
    obtain ⟨hdrew, hnext⟩ := h.drawn_succ hn
    simp only [hdrew] at hle ⊢
    have hseq : d.q.nextSeq = d.drawn := h.next_eq hle
    have hlt := h.seq_lt
    rcases hcases with hq | ⟨dst, r, rest, hqd, hq, hw, hrs, hop, hopf, hreq, hdst, -⟩
    · refine ⟨⟨hnext, ?_, ?_, ?_⟩, ?_, hnative⟩
      · simpa only [hf, hnative] using h.dispatched
      · simp only [hq, Multiset.map_cons, Multiset.cons_add, Multiset.nodup_cons]
        exact ⟨fun hm => absurd (hlt _ hm) (by simp [numbered, hseq]), h.nodup⟩
      · simp only [hq, Multiset.map_cons, Multiset.cons_add, Multiset.mem_cons]
        rintro s (rfl | hs)
        · simp [numbered, hseq]
        · exact Nat.lt_succ_of_lt (hlt s hs)
      · simp only [ledger, hq, hf]
        exact .accept ⟨rfl, rfl, rfl⟩
    · -- The merged request keeps the queued one's number, the smaller of the two.
      have hdlt : dst.seq < d.drawn := by
        refine hlt _ ?_
        rw [hqd, Multiset.map_cons, Multiset.cons_add]
        exact Multiset.mem_cons_self _ _
      have hrs : r.seq = dst.seq := by
        rw [hrs, hseq, min_eq_right hdlt.le]
      have hseqs : q'.queued.map Request.seq = d.q.queued.map Request.seq := by
        rw [hq, hqd, Multiset.map_cons, Multiset.map_cons, hrs]
      refine ⟨⟨hnext, ?_, ?_, ?_⟩, ?_, hnative⟩
      · simpa only [hf, hnative] using h.dispatched
      · simpa only [hseqs] using h.nodup
      · simp only [hseqs]
        exact fun s hs => Nat.lt_succ_of_lt (hlt s hs)
      · simp only [ledger, hq, hf]
        exact .join hqd hw hreq hdst (hop ▸ hopf)

theorem pick_refines (h : d.Matched) (hle : d.pick.drawn ≤ 2 ^ 64) : d.Refines d.pick := by
  unfold pick at hle ⊢
  obtain ⟨res, q', hp⟩ : ∃ res q', d.q.pick = (res, q') := ⟨_, _, rfl⟩
  rw [hp] at hle ⊢
  cases res with
  | none => exact ⟨h, .skip _, rfl⟩
  | some r =>
    obtain ⟨hnative, ⟨f, rest, hdue, hfly, hr, hq, hfly', hn⟩ | ⟨hq, hfly, hn⟩⟩ := pick_moves hp
    · obtain ⟨hdrew, hnext⟩ := h.drawn_succ hn
      simp only [hdrew] at hle ⊢
      have hseq : r.seq = d.drawn := by
        rw [hr]
        exact h.next_eq hle
      have hnot : ¬ f.state = .dispatched := by simp [hdue]
      have hfua : r.fua = false := by
        rw [hr]
        rfl
      refine ⟨⟨hnext, ?_, ?_, ?_⟩, ?_, hnative⟩
      · have hdis := h.dispatched
        rw [hfly, inState_cons_of_ne hnot] at hdis
        simp only [hfly', hnative]
        rw [inState_cons_of_eq (by rfl), hdis,
          ← Multiset.cons_coe, Multiset.map_cons, entry, hfua]
        rfl
      · simp only [hq]
        rw [← Multiset.cons_coe, Multiset.map_cons, Multiset.add_cons, Multiset.nodup_cons]
        exact ⟨fun hm => absurd (h.seq_lt _ hm) (by simp [hseq]), h.nodup⟩
      · simp only [hq]
        rw [← Multiset.cons_coe, Multiset.map_cons, Multiset.add_cons]
        intro s hs
        rcases Multiset.mem_cons.mp hs with rfl | hs
        · simp [hseq]
        · exact Nat.lt_succ_of_lt (h.seq_lt s hs)
      · simp only [ledger, hq, hfly']
        rw [inState_cons_of_ne (by simp [flightOf]),
          ← Multiset.cons_coe]
        refine .flush ?_ (by rw [hr]; rfl)
        simp only [hfly]
        rw [inState_cons_of_eq hdue,
          Multiset.map_cons, hr]
        rfl
    · simp only [drew_of_eq h.seq_bound hn, Nat.add_zero]
      have hseqs : q'.queued.map Request.seq +
          ((r :: d.held : List Request) : Multiset Request).map Request.seq =
          d.q.queued.map Request.seq + (d.held : Multiset Request).map Request.seq := by
        rw [hq, ← Multiset.cons_coe, Multiset.map_cons, Multiset.map_cons, Multiset.add_cons,
          Multiset.cons_add]
      refine ⟨⟨hn.trans h.next_seq, ?_, ?_, ?_⟩, ?_, hnative⟩
      · simp only [hfly, hnative]
        rw [inState_cons_of_eq (by rfl), h.dispatched,
          ← Multiset.cons_coe, Multiset.map_cons]
        rfl
      · simpa only [hseqs] using h.nodup
      · simpa only [hseqs] using h.seq_lt
      · simp only [ledger, hfly]
        rw [inState_cons_of_ne (by simp [flightOf]),
          ← Multiset.cons_coe]
        exact .dispatch hq

theorem complete_refines (h : d.Matched) (k : Nat) : d.Refines (d.complete k) := by
  unfold complete
  cases hk : d.held[k]? with
  | none => exact ⟨h, .skip _, rfl⟩
  | some r =>
    have hr := mem_held hk
    obtain ⟨c, q', hc⟩ : ∃ c q', d.q.complete r.seq = (c, q') := ⟨_, _, rfl⟩
    obtain ⟨hslots, hnext, hnative, hcases⟩ := complete_moves d.q r.seq
    rcases hcases with ⟨-, hnone⟩ | ⟨f, rest, hs, hd, hfly, hcases⟩
    · exact absurd rfl (hnone _ (h.entry_mem hr) rfl)
    obtain rfl := h.entry_eq hr (hfly ▸ Multiset.mem_cons_self _ _) hd hs
    simp only [hc] at hslots hnext hnative hcases ⊢
    have hq : q'.queued = d.q.queued := congrArg Lib.filled hslots
    have hdis : inState .dispatched d.q.flying =
        entry d.q.nativeFua r ::ₘ inState .dispatched rest := by
      rw [hfly, inState_cons_of_eq hd]
    have hdue : inState .flushDue d.q.flying =
        inState .flushDue rest := by
      rw [hfly, inState_cons_of_ne (by simp [hd])]
    rcases hcases with ⟨he, rfl, hfly'⟩ | ⟨he, rfl, rfl⟩
    · refine ⟨h.release hk hslots hnext hnative ?_ _ _, ?_, hnative⟩
      · rw [hdis, hfly', inState_cons_of_ne (by simp)]
      · simp only [ledger, hq, hfly']
        rw [inState_cons_of_eq (by rfl),
          Multiset.map_cons, ← hdue]
        exact .defer (held_eq hk) ((Bool.and_comm _ _).trans he)
    · refine ⟨h.release hk hslots hnext hnative hdis _ _, ?_, hnative⟩
      simp only [ledger, hq, ← hdue, ← Multiset.coe_add]
      exact .report (held_eq hk) ((Bool.and_comm _ _).trans he)

theorem Matched.retired (h : d.Matched) (hr : r ∈ d.held) :
    inState .dispatched d.q.flying =
        entry d.q.nativeFua r ::ₘ inState .dispatched (d.q.retire r.seq).flying ∧
      inState .flushDue d.q.flying =
        inState .flushDue (d.q.retire r.seq).flying := by
  rw [h.retire_eq hr]
  have hstate : (entry d.q.nativeFua r).state = .dispatched := rfl
  exact ⟨inState_cons_of_eq hstate _, inState_cons_of_ne (by simp [hstate]) _⟩

theorem abort_refines (h : d.Matched) (k : Nat) : d.Refines (d.abort k) := by
  unfold abort
  cases hk : d.held[k]? with
  | none => exact ⟨h, .skip _, rfl⟩
  | some r =>
    obtain ⟨hslots, hnext, hnative, -⟩ := retire_clears d.q r.seq
    obtain ⟨hdis, hdue⟩ := h.retired (mem_held hk)
    have hq : (d.q.retire r.seq).queued = d.q.queued := congrArg Lib.filled hslots
    refine ⟨h.release hk hslots hnext hnative hdis _ _, ?_, hnative⟩
    simp only [ledger, Queue.abort, hq, ← hdue, ← Multiset.coe_add]
    exact .fail (held_eq hk)

theorem requeue_refines (h : d.Matched) (k retries : Nat) : d.Refines (d.requeue k retries) := by
  unfold requeue
  cases hk : d.held[k]? with
  | none => exact ⟨h, .skip _, rfl⟩
  | some r =>
    obtain ⟨res, q', hres⟩ : ∃ res q', d.q.requeue { r with retriesLeft := retries } = (res, q') :=
      ⟨_, _, rfl⟩
    obtain ⟨hfl, hnext, hnative, hcases⟩ := requeue_queued d.q { r with retriesLeft := retries }
    obtain ⟨hdis, hdue⟩ := h.retired (mem_held hk)
    simp only [hres] at hfl hnext hnative hcases ⊢
    have hfly : q'.flying = (d.q.retire r.seq).flying := congrArg Lib.filled hfl
    rw [← hfly] at hdis hdue
    rcases hcases with ⟨e, rfl, hslots⟩ | ⟨rfl, hq⟩
    · have hq : q'.queued = d.q.queued := congrArg Lib.filled hslots
      refine ⟨h.release hk hslots hnext hnative hdis _ _, ?_, hnative⟩
      simp only [ledger, hq, ← hdue, ← Multiset.coe_add]
      exact .fail (held_eq hk)
    · have hheld := held_eq hk
      have hseqs : q'.queued.map Request.seq +
          (d.held.eraseIdx k : Multiset Request).map Request.seq =
          d.q.queued.map Request.seq + (d.held : Multiset Request).map Request.seq := by
        rw [hq, hheld, Multiset.map_cons, Multiset.map_cons, Multiset.add_cons,
          Multiset.cons_add]
      refine ⟨⟨hnext.trans h.next_seq, ?_, ?_, ?_⟩, ?_, hnative⟩
      · have hd := h.dispatched
        rw [hdis, hheld, Multiset.map_cons, Multiset.cons_inj_right] at hd
        simpa only [hnative] using hd
      · simpa only [hseqs] using h.nodup
      · simpa only [hseqs] using h.seq_lt
      · simp only [ledger, hq, ← hdue]
        exact .retry hheld ⟨rfl, rfl, rfl⟩

theorem bind_waiters (rs : List Request) :
    ((rs : Multiset Request).bind fun r => (r.waiters : Multiset Nat)) =
      (rs.flatMap Request.waiters : List Nat) :=
  Multiset.coe_bind _ _

theorem drain_moves (q : Queue) (room : Nat) (hseq : q.nextSeq < 2 ^ 64) :
    ∃ (rs : List Request) (fs : List Flight), (∀ f ∈ fs, f.state = .flushDue) ∧
      q.queued = (q.drain room).1.queued + rs ∧ q.flying = fs + (q.drain room).1.flying ∧
      (q.drain room).1.nativeFua = q.nativeFua ∧
      (q.drain room).1.nextSeq = (q.nextSeq + fs.length) % 2 ^ 64 ∧
      (q.drain room).2.flatMap Request.waiters =
        rs.flatMap Request.waiters ++ fs.flatMap Flight.waiters := by
  obtain ⟨hfl, hnext, hnative, hq⟩ := drainSlots_queued room q [] (List.finRange maxQueue)
  unfold Queue.drain
  generalize drainSlots room q [] (List.finRange maxQueue) = t at hfl hnext hnative hq
  obtain ⟨q₁, out⟩ := t
  simp only at hfl hnext hnative hq ⊢
  obtain ⟨fs, hfs, hs, hn, hfly, hnx, hout⟩ :=
    drainFlushes_flying q₁ out (room - out.length) (hnext ▸ hseq)
  refine ⟨out, fs, hfs, ?_, ?_, hn.trans hnative, hnext ▸ hnx, hout⟩
  · rw [Multiset.coe_nil, add_zero] at hq
    rw [hq, queued, queued, hs]
  · rw [← hfly]
    exact congrArg Lib.filled hfl.symm

theorem drain_refines (h : d.Matched) (room : Nat) (hle : (d.drain room).drawn ≤ 2 ^ 64) :
    d.Refines (d.drain room) := by
  obtain ⟨rs, fs, hfs, hq, hfly, hnative, hnext, hout⟩ := drain_moves d.q room h.seq_bound
  unfold drain at hle ⊢
  generalize d.q.drain room = t at hq hfly hnative hnext hout hle
  obtain ⟨q', out⟩ := t
  simp only at hq hfly hnative hnext hout hle ⊢
  have hlen : fs.length < 2 ^ 64 := by
    have hcard := Lib.card_filled_le d.q.flights
    change d.q.flying.card ≤ maxQueue at hcard
    rw [hfly, Multiset.card_add, Multiset.coe_card] at hcard
    unfold maxQueue at hcard
    omega
  have hdrew := drew_of_add hlen h.seq_bound hnext
  have hdis : inState .dispatched (fs : Multiset Flight) = 0 :=
    Multiset.filter_eq_nil.mpr fun f hf => by simp [hfs f hf]
  have hdue : inState .flushDue (fs : Multiset Flight) = fs :=
    Multiset.filter_eq_self.mpr hfs
  refine ⟨⟨?_, ?_, ?_, ?_⟩, ?_, hnative⟩
  · simp only [hnext, hdrew, h.next_seq, Nat.mod_add_mod]
  · have hd := h.dispatched
    rw [hfly, inState_add, hdis, zero_add] at hd
    simpa only [hnative] using hd
  · have hnd := h.nodup
    rw [hq, Multiset.map_add, add_right_comm] at hnd
    exact (Multiset.nodup_add.mp hnd).1
  · intro s hs
    refine Nat.lt_add_right _ (h.seq_lt s ?_)
    rw [hq, Multiset.map_add, add_right_comm]
    exact Multiset.mem_add.mpr (.inl hs)
  · have hhanded : ((d.handed ++ out.flatMap Request.waiters : List Nat) : Multiset Nat) =
        d.handed + ((rs : Multiset Request).bind fun r => (r.waiters : Multiset Nat)) +
          ((fs : Multiset Flight).map Flight.waiters).bind fun w => (w : Multiset Nat) := by
      rw [hout, bind_waiters, Multiset.bind_map, ← Multiset.coe_add, ← Multiset.coe_add, add_assoc]
      exact congrArg _ (congrArg _ (Multiset.coe_bind fs Flight.waiters).symm)
    simp only [ledger, hhanded]
    refine .drain hq ?_
    simp only [hfly]
    rw [inState_add, Multiset.map_add, hdue]

theorem step_refines (h : d.Matched) (a : DeskAct) (hle : (d.step a).drawn ≤ 2 ^ 64) :
    d.Refines (d.step a) := by
  cases a with
  | submit req => exact submit_refines h req hle
  | pick => exact pick_refines h hle
  | complete k => exact complete_refines h k
  | abort k => exact abort_refines h k
  | requeue k retries => exact requeue_refines h k retries
  | drain room => exact drain_refines h room hle
  | fail => exact ⟨⟨h.next_seq, h.dispatched, h.nodup, h.seq_lt⟩, .skip _, rfl⟩

end Desk
end VibeOS.Block
