import VibeOS.Lib.Doorbell
import VibeOS.Virtio.QueueRuns

/-!
Notifications of a queue with the event index on. The driver publishes and asks `should_kick` with
the avail index of its last check; it takes used elements until `get_used` finds none, which loads
the used index after each store of `used_event`. The device stores `avail_event` and reads the avail
index again before it goes idle, and interrupts when its elements since its last check cross
`used_event`. Every load and store of an index that the other side uses is a step of its own. Both
directions are doorbells, and the comparison of 16-bit indexes sees every crossing of an event by
entries that fit an index; so each step is a step of the doorbells, however often the indexes
wrapped.
-/
namespace VibeOS.Virtio
open Lib

def wrappingSub (a b : Nat) : Nat := (a + 2 ^ 16 - b) % 2 ^ 16

def needEvent (event new old : Nat) : Bool :=
  wrappingSub (wrappingSub new event) 1 < wrappingSub new old

def usedFNoNotify : Nat := 1

def SplitQueue.shouldKick {n : Nat} (q : SplitQueue n) (oldAvail : Nat) : Bool :=
  let new := q.rd 2 q.layout.availIdx
  if q.eventIdx then
    let event := q.rd 2 q.layout.availEvent
    needEvent event new oldAvail
  else q.rd 2 q.layout.usedFlags &&& usedFNoNotify = 0

/-- Where the driver is in its loop over `get_used`: before the load of the used index, after a load
that found an element, or out of the loop. -/
inductive Drain where
  | load | take | idle
  deriving DecidableEq, Repr

structure NotifySys (n : Nat) where
  sys : QueueSys n
  /-- The avail index of the driver's last check, in full. -/
  checked : Nat
  /-- The driver has yet to do a kick that `should_kick` asked for; the device has yet to answer
  one. -/
  kickOwed : Bool
  kick : Bool
  /-- What the device has stored to `avail_event`, in full. -/
  event : Nat
  deviceIdle : Bool
  /-- The used index of the device's last check, in full. -/
  usedChecked : Nat
  irqOwed : Bool
  irq : Bool
  drain : Drain

inductive Note where
  | addChain (bufs : List DescBuf) | publish | shouldKick | kick
  | loadUsed | takeUsed | answerIrq | pollUsed
  | consume | storeEvent | sleep | answerKick | pollAvail
  | complete (i len : Nat) | announce (m : Nat) | checkUsed | interrupt
  deriving DecidableEq, Repr

namespace NotifySys
variable {n : Nat}

def start (q : SplitQueue n) : NotifySys n :=
  { sys := .start q, checked := 0, kickOwed := false, kick := false, event := 0,
    deviceIdle := false, usedChecked := 0, irqOwed := false, irq := false, drain := .load }

def wakeDriver : Drain → Drain
  | .idle => .load
  | d => d

/-- One step of the driver or of the device. Between two checks a side adds fewer entries than an
index can count. What neither may do changes nothing. -/
def step (s : NotifySys n) : Note → NotifySys n
  | .addChain bufs => { s with sys := s.sys.step (.addChain bufs) }
  | .publish =>
    if s.sys.sent + 1 < s.checked + 2 ^ 16 then { s with sys := s.sys.step .publish } else s
  | .shouldKick =>
    { s with
      kickOwed := s.kickOwed || s.sys.q.shouldKick (s.checked % 2 ^ 16), checked := s.sys.sent }
  | .kick => if s.kickOwed then { s with kickOwed := false, kick := true } else s
  | .loadUsed =>
    if s.drain = .load then { s with drain := if s.sys.q.pending = 0 then .idle else .take } else s
  | .takeUsed =>
    if s.drain = .take then { s with sys := s.sys.step .getUsed, drain := .load } else s
  | .answerIrq => if s.irq then { s with irq := false, drain := wakeDriver s.drain } else s
  | .pollUsed => { s with drain := wakeDriver s.drain }
  | .consume => if s.deviceIdle then s else { s with sys := s.sys.step .consume }
  | .storeEvent =>
    if s.deviceIdle then s
    else { s with sys := s.sys.step (.notify 0 s.sys.consumed), event := s.sys.consumed }
  | .sleep =>
    -- the event index is the device's place, and the avail index read now is the same
    if s.event = s.sys.consumed ∧
        s.sys.q.rd 2 s.sys.q.layout.availIdx = s.sys.consumed % 2 ^ 16 then
      { s with deviceIdle := true }
    else s
  | .answerKick => if s.kick then { s with kick := false, deviceIdle := false } else s
  | .pollAvail => { s with deviceIdle := false }
  | .complete i len => { s with sys := s.sys.step (.complete i len) }
  | .announce m =>
    if m < s.usedChecked + 2 ^ 16 then { s with sys := s.sys.step (.announce m) } else s
  | .checkUsed =>
    { s with
      irqOwed := s.irqOwed || needEvent (s.sys.q.rd 2 s.sys.q.layout.usedEvent)
        (s.sys.seen % 2 ^ 16) (s.usedChecked % 2 ^ 16),
      usedChecked := s.sys.seen }
  | .interrupt => if s.irqOwed then { s with irqOwed := false, irq := true } else s

def run (s : NotifySys n) (notes : List Note) : NotifySys n := notes.foldl step s

end NotifySys

variable {n : Nat} {s : QueueSys n} {xs : List Nat}

theorem needEvent_of_crossed {event new old : Nat} (h₁ : old ≤ event) (h₂ : event < new)
    (hfit : new < old + 2 ^ 16) :
    needEvent (event % 2 ^ 16) (new % 2 ^ 16) (old % 2 ^ 16) = true := by
  rw [needEvent, decide_eq_true_iff]
  unfold wrappingSub
  omega

/-- The event words of both sides. -/
structure Words (s : QueueSys n) (event : Nat) : Prop where
  eventIdx : s.q.eventIdx = true
  avail : s.q.at .availEvent = event % 2 ^ 16
  used : s.q.at .usedEvent = s.got.length % 2 ^ 16

namespace Words
variable {event : Nat}

theorem start (hn : RingSize n) {q : SplitQueue n} (hon : q.eventIdx = true) :
    Words (.start q) 0 := by
  obtain ⟨-, -, -, -, -, -, havail, hused⟩ := hn.init (q := q)
  exact ⟨q.init_eventIdx.trans hon, havail, hused⟩

variable (h : Words s event)
include h

theorem addChain (hi : Inv s xs) (hn : RingSize n) (bufs : List DescBuf) :
    Words (s.step (.addChain bufs)) event := by
  rw [QueueSys.step]
  split
  case isFalse => exact h
  rename_i hguard
  rcases hi.addChain_cases hn hguard.2 with ⟨-, hrun⟩ | ⟨ids, ys, q', -, -, -, hrun, hleaves, -⟩
  · rw [hrun]
    exact h
  · have hkeep : ∀ f, f.Valid n → f.isDesc = false → (∀ i, f ≠ .avail i) → q'.at f = s.q.at f := by
      refine fun f hf hd hne => hleaves.same f hf ?_
      rintro (⟨j, -, hfj⟩ | heq)
      · exact Field.not_ofDesc hd hfj
      · exact hne _ heq
    rw [hrun]
    exact ⟨hleaves.eventIdx.trans h.eventIdx,
      (hkeep .availEvent trivial rfl (fun _ he => by cases he)).trans h.avail,
      (hkeep .usedEvent trivial rfl (fun _ he => by cases he)).trans h.used⟩

theorem publish : Words (s.step .publish) event := by
  rw [QueueSys.step]
  split
  case isFalse => exact h
  refine ⟨h.eventIdx, ?_, ?_⟩
  · exact (SplitQueue.at_publish (f := .availEvent) trivial).trans h.avail
  · exact (SplitQueue.at_publish (f := .usedEvent) trivial).trans h.used

theorem getUsed (hi : Inv s xs) (hn : RingSize n) : Words (s.step .getUsed) event := by
  rw [QueueSys.step]
  by_cases hp : s.q.pending = 0
  · rw [SplitQueue.getUsed_none hp]
    exact h
  rw [hi.pending_iff hn] at hp
  obtain ⟨e, c, q', cs, ds, -, hrun, -, -, -, hleaves, -, hevent⟩ :=
    hi.getUsed_next hn (Nat.lt_of_le_of_ne hi.got_le hp)
  rw [hrun]
  refine ⟨hleaves.eventIdx.trans h.eventIdx, ?_, ?_⟩
  · refine (hleaves.same .availEvent trivial ?_).trans h.avail
    rintro (⟨j, -, hj | hj⟩ | hj) <;> cases hj
  · rw [hevent h.eventIdx, hi.lastUsed]
    simp only [List.length_append, List.length_singleton]
    omega

theorem consume : Words (s.step .consume) event := by
  rw [QueueSys.step]
  split
  · exact h
  · exact ⟨h.eventIdx, h.avail, h.used⟩

theorem complete (hi : Inv s xs) (hn : RingSize n) (i len : Nat) :
    Words (s.step (.complete i len)) event := by
  rw [QueueSys.step]
  split
  · exact h
  rename_i head hget
  have hlt := hi.taken_lt (List.mem_of_getElem? hget)
  have hle := hn.le
  have hat : ∀ f, f.Valid n → (∀ j, f ≠ .usedLen j) → (∀ j, f ≠ .usedId j) →
      ((s.q.wr 4 (s.q.layout.usedElem (s.done.length % 2 ^ 16)) head).wr 4
        (s.q.layout.usedElem (s.done.length % 2 ^ 16) + 4) (len % 2 ^ 32)).at f = s.q.at f := by
    intro f hf h₁ h₂
    rw [hn.at_writeUsed (by omega) (Nat.mod_lt _ (by omega)) hf, if_neg (h₁ _), if_neg (h₂ _)]
  exact ⟨h.eventIdx,
    (hat .availEvent trivial (fun _ he => by cases he) (fun _ he => by cases he)).trans h.avail,
    (hat .usedEvent trivial (fun _ he => by cases he) (fun _ he => by cases he)).trans h.used⟩

theorem announce (m : Nat) : Words (s.step (.announce m)) event := by
  rw [QueueSys.step]
  split
  case isFalse => exact h
  have hat : ∀ f, f.Valid n → f ≠ .usedIdx →
      (s.q.wr 2 s.q.layout.usedIdx (m % 2 ^ 16)).at f = s.q.at f := by
    intro f hf hne
    have ho : s.q.layout.usedIdx = Field.off n .usedIdx := rfl
    rw [SplitQueue.at_wr2 ho rfl hf trivial (Nat.mod_lt _ (by omega)), if_neg hne]
  exact ⟨h.eventIdx, (hat .availEvent trivial (fun he => by cases he)).trans h.avail,
    (hat .usedEvent trivial (fun he => by cases he)).trans h.used⟩

theorem notify (flags event' : Nat) : Words (s.step (.notify flags event')) event' := by
  have hu : s.q.layout.usedFlags = Field.off n .usedFlags := rfl
  have he : s.q.layout.availEvent = Field.off n .availEvent := rfl
  have hat : ∀ f, f.Valid n → ((s.q.wr 2 s.q.layout.usedFlags (flags % 2 ^ 16)).wr 2
      s.q.layout.availEvent (event' % 2 ^ 16)).at f = if f = .availEvent then event' % 2 ^ 16 else
        if f = .usedFlags then flags % 2 ^ 16 else s.q.at f := by
    intro f hf
    rw [SplitQueue.at_wr2 he rfl hf trivial (Nat.mod_lt _ (by omega)),
      SplitQueue.at_wr2 hu rfl hf trivial (Nat.mod_lt _ (by omega))]
  exact ⟨h.eventIdx, (hat .availEvent trivial).trans (if_pos rfl),
    (hat .usedEvent trivial).trans h.used⟩

theorem run (hi : Inv s xs) (hn : RingSize n) (ls : List Label) :
    ∃ event', Words (s.run ls) event' := by
  induction ls generalizing s xs event with
  | nil => exact ⟨event, h⟩
  | cons l ls ih =>
    obtain ⟨xs', hi'⟩ := hi.step hn l
    cases l with
    | addChain bufs => exact ih (h.addChain hi hn bufs) hi'
    | publish => exact ih h.publish hi'
    | getUsed => exact ih (h.getUsed hi hn) hi'
    | consume => exact ih h.consume hi'
    | complete i len => exact ih (h.complete hi hn i len) hi'
    | announce m => exact ih (h.announce m) hi'
    | notify flags event' => exact ih (h.notify flags event') hi'

end Words

namespace NotifySys

/-- The driver's side of the avail ring, and the device's end of it. -/
def availBell (s : NotifySys n) : Bell :=
  { posted := s.sys.sent, checked := s.checked, taken := s.sys.consumed, event := s.event,
    owed := s.kickOwed, pending := s.kick, idle := s.deviceIdle }

/-- The device's side of the used ring, and the driver's end of it. -/
def usedBell (s : NotifySys n) : Bell :=
  { posted := s.sys.seen, checked := s.usedChecked, taken := s.sys.got.length,
    event := s.sys.got.length, owed := s.irqOwed, pending := s.irq, idle := s.drain = .idle }

end NotifySys

/-- What holds of the queue and of both doorbells between any two steps. -/
structure NotifyInv (s : NotifySys n) (xs : List Nat) : Prop where
  queue : Inv s.sys xs
  words : Words s.sys s.event
  fits : s.sys.sent < s.checked + 2 ^ 16
  usedFits : s.sys.seen < s.usedChecked + 2 ^ 16
  /-- The driver has found an element, which nobody else takes. -/
  found : s.drain = .take → s.sys.got.length < s.sys.seen
  avail : s.availBell.Inv
  used : s.usedBell.Inv

namespace NotifyInv
variable {s : NotifySys n}

theorem start (hn : RingSize n) {q : SplitQueue n} (hon : q.eventIdx = true) :
    NotifyInv (.start q) (List.range n) where
  queue := Inv.start hn q
  words := Words.start hn hon
  fits := by
    change 0 < 0 + 2 ^ 16
    omega
  usedFits := by
    change 0 < 0 + 2 ^ 16
    omega
  found := nofun
  avail := ⟨Nat.le_refl 0, Nat.le_refl 0, nofun, nofun⟩
  used := ⟨Nat.le_refl 0, Nat.le_refl 0, nofun, nofun⟩

theorem wakeDriver (d : Drain) :
    NotifySys.wakeDriver d ≠ .idle ∧ (NotifySys.wakeDriver d = .take → d = .take) := by
  cases d with
  | load => exact ⟨nofun, nofun⟩
  | take => exact ⟨nofun, fun _ => rfl⟩
  | idle => exact ⟨nofun, nofun⟩

variable (h : NotifyInv s xs)
include h

theorem still {sys : QueueSys n} {xs' : List Nat} (hq : Inv sys xs') (hw : Words sys s.event)
    (hsent : sys.sent = s.sys.sent) (hconsumed : sys.consumed = s.sys.consumed)
    (hseen : sys.seen = s.sys.seen) (hgot : sys.got = s.sys.got) :
    NotifyInv { s with sys } xs' := by
  refine ⟨hq, hw, ?_, ?_, ?_, ?_, ?_⟩
  · rw [hsent]
    exact h.fits
  · rw [hseen]
    exact h.usedFits
  · rw [hseen, hgot]
    exact h.found
  · have := h.avail
    simp only [NotifySys.availBell, hsent, hconsumed] at this ⊢
    exact this
  · have := h.used
    simp only [NotifySys.usedBell, hseen, hgot] at this ⊢
    exact this

theorem shouldKick : NotifyInv (s.step .shouldKick) xs := by
  refine ⟨h.queue, h.words, Nat.lt_add_of_pos_right (Nat.two_pow_pos 16), h.usedFits, h.found,
    h.avail.step (.check _ (fun ho => ?_) fun h₁ h₂ => ?_), h.used⟩
  · have ho : s.kickOwed = true := ho
    change (s.kickOwed || _) = true
    rw [ho, Bool.true_or]
  · have hneed := needEvent_of_crossed h₁ h₂ h.fits
    have hkick : s.sys.q.shouldKick (s.checked % 2 ^ 16) = true := by
      have hevent : s.sys.q.rd 2 s.sys.q.layout.availEvent = s.event % 2 ^ 16 := h.words.avail
      have hidx : s.sys.q.rd 2 s.sys.q.layout.availIdx = s.sys.sent % 2 ^ 16 := h.queue.availIdx
      rw [SplitQueue.shouldKick, hevent, hidx]
      exact (if_pos h.words.eventIdx).trans hneed
    change (_ || s.sys.q.shouldKick (s.checked % 2 ^ 16)) = true
    rw [hkick, Bool.or_true]

theorem kick : NotifyInv (s.step .kick) xs := by
  rw [NotifySys.step]
  split
  · rename_i ho
    exact ⟨h.queue, h.words, h.fits, h.usedFits, h.found, h.avail.step (.ring ho), h.used⟩
  · exact h

theorem wake {irq : Bool} (hirq : irq = false ∨ irq = s.irq) :
    NotifyInv { s with irq, drain := NotifySys.wakeDriver s.drain } xs := by
  obtain ⟨hne, htake⟩ := wakeDriver s.drain
  refine ⟨h.queue, h.words, h.fits, h.usedFits, fun hd => h.found (htake hd), h.avail, ?_⟩
  have hidle : decide (NotifySys.wakeDriver s.drain = .idle) = false := decide_eq_false hne
  simp only [NotifySys.usedBell, hidle]
  rcases hirq with rfl | rfl
  · exact h.used.step .wake
  · exact h.used.step .poll

theorem checkUsed : NotifyInv (s.step .checkUsed) xs := by
  refine ⟨h.queue, h.words, h.fits, Nat.lt_add_of_pos_right (Nat.two_pow_pos 16), h.found, h.avail,
    h.used.step (.check _ (fun ho => ?_) fun h₁ h₂ => ?_)⟩
  · have ho : s.irqOwed = true := ho
    change (s.irqOwed || _) = true
    rw [ho, Bool.true_or]
  · have hneed := needEvent_of_crossed h₁ h₂ h.usedFits
    have hevent : s.sys.q.rd 2 s.sys.q.layout.usedEvent = s.sys.got.length % 2 ^ 16 := h.words.used
    change (_ || needEvent (s.sys.q.rd 2 s.sys.q.layout.usedEvent) _ _) = true
    rw [hevent]
    exact Bool.or_eq_true_iff.mpr (.inr hneed)

theorem interrupt : NotifyInv (s.step .interrupt) xs := by
  rw [NotifySys.step]
  split
  · rename_i ho
    exact ⟨h.queue, h.words, h.fits, h.usedFits, h.found, h.avail, h.used.step (.ring ho)⟩
  · exact h

variable (hn : RingSize n)
include hn

theorem addChain (bufs : List DescBuf) : ∃ xs', NotifyInv (s.step (.addChain bufs)) xs' := by
  obtain ⟨xs', hq⟩ := h.queue.addChain hn bufs
  have hw := h.words.addChain h.queue hn bufs
  have hsame : (s.sys.step (.addChain bufs)).sent = s.sys.sent ∧
      (s.sys.step (.addChain bufs)).consumed = s.sys.consumed ∧
      (s.sys.step (.addChain bufs)).seen = s.sys.seen ∧
      (s.sys.step (.addChain bufs)).got = s.sys.got := by
    rw [QueueSys.step]
    split
    · split <;> exact ⟨rfl, rfl, rfl, rfl⟩
    · exact ⟨rfl, rfl, rfl, rfl⟩
  exact ⟨xs', h.still hq hw hsame.1 hsame.2.1 hsame.2.2.1 hsame.2.2.2⟩

theorem publish : NotifyInv (s.step .publish) xs := by
  have hq := h.queue.publish hn
  have hw := h.words.publish
  rw [NotifySys.step]
  split
  case isFalse => exact h
  rename_i hfit
  rw [QueueSys.step] at hq hw ⊢
  split at hq
  · rename_i hadded
    rw [if_pos hadded] at hw ⊢
    exact ⟨hq, hw, hfit, h.usedFits, h.found, h.avail.step (.post _ (Nat.le_succ _)), h.used⟩
  · rename_i hadded
    rw [if_neg hadded]
    exact h

theorem loadUsed : NotifyInv (s.step .loadUsed) xs := by
  rw [NotifySys.step]
  split
  case isFalse => exact h
  rename_i hload
  by_cases hp : s.sys.q.pending = 0
  · rw [if_pos hp]
    have hall := (h.queue.pending_iff hn).mp hp
    exact ⟨h.queue, h.words, h.fits, h.usedFits, nofun, h.avail, h.used.step (.sleep rfl hall)⟩
  · rw [if_neg hp]
    rw [h.queue.pending_iff hn] at hp
    exact ⟨h.queue, h.words, h.fits, h.usedFits,
      fun _ => Nat.lt_of_le_of_ne h.queue.got_le hp, h.avail, h.used.step .poll⟩

theorem takeUsed : ∃ xs', NotifyInv (s.step .takeUsed) xs' := by
  rw [NotifySys.step]
  split
  case isFalse => exact ⟨xs, h⟩
  rename_i htake
  have hlt := h.found htake
  obtain ⟨xs', hq⟩ := h.queue.getUsed hn
  have hw := h.words.getUsed h.queue hn
  obtain ⟨e, c, q', cs, ds, -, hrun, -⟩ := h.queue.getUsed_next hn hlt
  rw [QueueSys.step, hrun] at hq hw ⊢
  refine ⟨xs', hq, hw, h.fits, h.usedFits, (fun he => by cases he), h.avail, ?_⟩
  have hidle : s.usedBell.idle = false := by
    simp only [NotifySys.usedBell, htake]
    rfl
  have hbell := (h.used.step (.take hidle hlt)).step (.arm hidle)
  have hlen : (s.sys.got ++ [e]).length = s.sys.got.length + 1 := List.length_append
  simp only [NotifySys.usedBell, htake] at hbell
  simp only [NotifySys.usedBell, hlen]
  exact hbell

theorem consume : NotifyInv (s.step .consume) xs := by
  have hq := h.queue.consume hn
  have hw := h.words.consume
  rw [NotifySys.step]
  split
  · exact h
  rename_i hidle
  rw [Bool.not_eq_true] at hidle
  rw [QueueSys.step] at hq hw ⊢
  split
  · exact h
  · rename_i hread
    rw [if_neg hread] at hq hw
    exact ⟨hq, hw, h.fits, h.usedFits, h.found, h.avail.step (.take hidle hq.consumed_le), h.used⟩

theorem storeEvent : NotifyInv (s.step .storeEvent) xs := by
  rw [NotifySys.step]
  split
  · exact h
  · rename_i hidle
    rw [Bool.not_eq_true] at hidle
    exact ⟨h.queue.notify hn 0 s.sys.consumed, h.words.notify 0 s.sys.consumed, h.fits, h.usedFits,
      h.found, h.avail.step (.arm hidle), h.used⟩

theorem sleep : NotifyInv (s.step .sleep) xs := by
  rw [NotifySys.step]
  split
  case isFalse => exact h
  rename_i hread
  have hidx : s.sys.q.rd 2 s.sys.q.layout.availIdx = s.sys.sent % 2 ^ 16 := h.queue.availIdx
  have hall : s.sys.consumed = s.sys.sent := by
    have hsize := h.queue.chains_le
    have hplaces := h.queue.places
    have hle := hn.le
    have hsent := h.queue.sent_le
    have hconsumed := h.queue.consumed_le
    have hsame := hread.2
    rw [hidx] at hsame
    omega
  exact ⟨h.queue, h.words, h.fits, h.usedFits, h.found, h.avail.step (.sleep hread.1 hall), h.used⟩

theorem announce (m : Nat) : NotifyInv (s.step (.announce m)) xs := by
  have hq := h.queue.announce hn m
  have hw := h.words.announce m
  rw [NotifySys.step]
  split
  case isFalse => exact h
  rename_i hfit
  rw [QueueSys.step] at hq hw ⊢
  split
  · rename_i hm
    rw [if_pos hm] at hq hw
    exact ⟨hq, hw, h.fits, hfit, fun hd => Nat.lt_of_lt_of_le (h.found hd) hm.1, h.avail,
      h.used.step (.post m hm.1)⟩
  · exact h

theorem complete (i len : Nat) : NotifyInv (s.step (.complete i len)) xs := by
  have hq := h.queue.complete hn i len
  have hw := h.words.complete h.queue hn i len
  have hsame : (s.sys.step (.complete i len)).sent = s.sys.sent ∧
      (s.sys.step (.complete i len)).consumed = s.sys.consumed ∧
      (s.sys.step (.complete i len)).seen = s.sys.seen ∧
      (s.sys.step (.complete i len)).got = s.sys.got := by
    rw [QueueSys.step]
    split <;> exact ⟨rfl, rfl, rfl, rfl⟩
  exact h.still hq hw hsame.1 hsame.2.1 hsame.2.2.1 hsame.2.2.2

theorem step (l : Note) : ∃ xs', NotifyInv (s.step l) xs' := by
  cases l with
  | addChain bufs => exact h.addChain hn bufs
  | publish => exact ⟨xs, h.publish hn⟩
  | shouldKick => exact ⟨xs, h.shouldKick⟩
  | kick => exact ⟨xs, h.kick⟩
  | loadUsed => exact ⟨xs, h.loadUsed hn⟩
  | takeUsed => exact h.takeUsed hn
  | answerIrq =>
    rw [NotifySys.step]
    split
    · exact ⟨xs, h.wake (.inl rfl)⟩
    · exact ⟨xs, h⟩
  | pollUsed => exact ⟨xs, h.wake (.inr rfl)⟩
  | consume => exact ⟨xs, h.consume hn⟩
  | storeEvent => exact ⟨xs, h.storeEvent hn⟩
  | sleep => exact ⟨xs, h.sleep hn⟩
  | answerKick =>
    rw [NotifySys.step]
    split
    · exact ⟨xs, h.queue, h.words, h.fits, h.usedFits, h.found, h.avail.step .wake, h.used⟩
    · exact ⟨xs, h⟩
  | pollAvail =>
    exact ⟨xs, h.queue, h.words, h.fits, h.usedFits, h.found, h.avail.step .poll, h.used⟩
  | complete i len => exact ⟨xs, h.complete hn i len⟩
  | announce m => exact ⟨xs, h.announce hn m⟩
  | checkUsed => exact ⟨xs, h.checkUsed⟩
  | interrupt => exact ⟨xs, h.interrupt⟩

theorem run (notes : List Note) : ∃ xs', NotifyInv (s.run notes) xs' := by
  induction notes generalizing s xs with
  | nil => exact ⟨xs, h⟩
  | cons l notes ih =>
    obtain ⟨xs', h'⟩ := h.step hn l
    exact ih h'

end NotifyInv

/-- A device that is idle with no kick pending has consumed every buffer that the driver has
published and checked after; a driver that is idle with no interrupt pending has read every used
entry that the device has announced and checked after. -/
structure Notified (s : NotifySys n) : Prop where
  device : s.deviceIdle = true → s.kick = false → s.kickOwed = false → s.checked = s.sys.sent →
    s.sys.consumed = s.sys.sent
  driver : s.drain = .idle → s.irq = false → s.irqOwed = false → s.usedChecked = s.sys.seen →
    s.sys.got.length = s.sys.seen

/-- No notification is lost, in any interleaving of the driver's and the device's accesses. -/
theorem no_lost_notification {k : Nat} (hk : k ≤ 15) (q : SplitQueue (2 ^ k))
    (hon : q.eventIdx = true) (notes : List Note) : Notified ((NotifySys.start q).run notes) := by
  have hn := RingSize.two_pow hk
  obtain ⟨xs, h⟩ := (NotifyInv.start hn hon).run hn notes
  exact ⟨h.avail.all_taken, fun hi => h.used.all_taken (decide_eq_true hi)⟩

/-- A queue of four descriptors with the event index on. -/
def fourSlots : SplitQueue (2 ^ 2) := ⟨Buf.zero, 0, 0, 0, true, 0⟩

/-- A buffer is published while the device sleeps; the kick wakes it, and it sleeps again when it
has consumed the buffer. -/
theorem no_lost_notification_woken :
    let s := (NotifySys.start fourSlots).run [.storeEvent, .sleep, .addChain [⟨4096, 16, 0⟩],
      .publish, .shouldKick, .kick, .answerKick, .consume, .storeEvent, .sleep]
    (s.deviceIdle = true ∧ s.kick = false ∧ s.kickOwed = false ∧ s.checked = s.sys.sent ∧
      s.sys.sent = 1) ∧ s.sys.consumed = s.sys.sent := by
  intro s
  have hs : s.deviceIdle = true ∧ s.kick = false ∧ s.kickOwed = false ∧ s.checked = s.sys.sent ∧
      s.sys.sent = 1 := by
    decide +kernel
  have hon : fourSlots.eventIdx = true := rfl
  exact ⟨hs,
    (no_lost_notification (by decide) fourSlots hon _).device hs.1 hs.2.1 hs.2.2.1 hs.2.2.2.1⟩

/-- Between `publish` and `should_kick`, and between the device's store of the used index and its
check, the other side is idle with nothing pending and an entry to take. -/
theorem unnotified_between_store_and_check :
    let s :=
      (NotifySys.start fourSlots).run [.storeEvent, .sleep, .addChain [⟨4096, 16, 0⟩], .publish]
    let t :=
      s.run [.shouldKick, .kick, .answerKick, .consume, .complete 0 16, .loadUsed, .announce 1]
    (s.deviceIdle = true ∧ s.kick = false ∧ s.sys.consumed < s.sys.sent) ∧
      (t.drain = .idle ∧ t.irq = false ∧ t.sys.got.length < t.sys.seen) := by
  decide +kernel

/-- How many heads there are, sent, consumed and taken, and how many elements done, seen and got. -/
def QueueSys.counts (s : QueueSys n) : List Nat :=
  [s.heads.length, s.sent, s.consumed, s.taken.length, s.done.length, s.seen, s.got.length]

theorem counts_eq {a b c d e f g : Nat} (h : s.counts = [a, b, c, d, e, f, g]) :
    s.heads.length = a ∧ s.sent = b ∧ s.consumed = c ∧ s.taken.length = d ∧ s.done.length = e ∧
      s.seen = f ∧ s.got.length = g := by
  simpa [QueueSys.counts] using h

/-- An empty queue that has had `k` buffers takes one more. -/
theorem Inv.counts_publish (h : Inv s xs) (hn : RingSize n) {k : Nat}
    (hk : s.counts = [k, k, k, 0, k, k, k]) :
    (s.run [.addChain [⟨4096, 16, 0⟩], .publish]).counts = [k + 1, k + 1, k, 0, k, k, k] := by
  obtain ⟨hheads, hsent, hconsumed, htaken, hdone, hseen, hgot⟩ := counts_eq hk
  have hplain : ∀ b ∈ [DescBuf.mk 4096 16 0], b.Plain := by decide
  have hempty : s.chains = [] := by
    rw [← List.length_eq_zero_iff, h.places]
    omega
  have hfree := h.parts.length_eq
  rw [hempty, List.flatMap_nil, List.append_nil, List.length_range] at hfree
  rw [QueueSys.run, List.foldl_cons, QueueSys.step, if_pos ⟨hsent.trans hheads.symm, hplain⟩]
  rcases h.addChain_cases hn hplain with ⟨hfew, -⟩ | ⟨ids, ys, q, -, -, -, hrun, -⟩
  · have hpos := hn.pos
    rw [List.length_singleton, hfree, maxChain] at hfew
    omega
  · rw [hrun, List.foldl_cons, QueueSys.step, if_pos (by simp [hsent, hheads])]
    simp [QueueSys.counts, *]

/-- The buffer comes back. -/
theorem Inv.counts_return (h : Inv s xs) (hn : RingSize n) {k : Nat}
    (hk : s.counts = [k + 1, k + 1, k, 0, k, k, k]) :
    (s.run [.consume, .complete 0 16, .announce (k + 1), .getUsed]).counts =
      [k + 1, k + 1, k + 1, 0, k + 1, k + 1, k + 1] := by
  obtain ⟨hheads, hsent, hconsumed, htaken, hdone, hseen, hgot⟩ := counts_eq hk
  have hread : s.q.rd 2 s.q.layout.availIdx ≠ s.consumed % 2 ^ 16 := by
    rw [SplitQueue.rd_availIdx, h.availIdx, hsent, hconsumed]
    omega
  obtain ⟨x, hx⟩ : ∃ x, s.step .consume = { s with consumed := k + 1, taken := [x] } := by
    rw [QueueSys.step, if_neg hread, hconsumed, List.length_eq_zero_iff.mp htaken]
    exact ⟨_, rfl⟩
  obtain ⟨xs', h'⟩ := h.run hn [.consume, .complete 0 16, .announce (k + 1)]
  simp only [QueueSys.run, List.foldl_cons, List.foldl_nil] at h' ⊢
  have hannounced : (((s.step .consume).step (.complete 0 16)).step (.announce (k + 1))).counts =
      [k + 1, k + 1, k + 1, 0, k + 1, k + 1, k] := by
    rw [hx]
    simp [QueueSys.step, QueueSys.counts, *]
  generalize ((s.step .consume).step (.complete 0 16)).step (.announce (k + 1)) = t at *
  obtain ⟨hheads, hsent, hconsumed, htaken, hdone, hseen, hgot⟩ := counts_eq hannounced
  obtain ⟨e, -, q, -, -, -, hget, -⟩ := h'.getUsed_next hn (by omega)
  rw [QueueSys.step, hget]
  simp [QueueSys.counts, *]

theorem Inv.exists_counts (h : Inv s xs) (hn : RingSize n) (hs : s.counts = [0, 0, 0, 0, 0, 0, 0])
    (k : Nat) : ∃ ls xs', Inv (s.run ls) xs' ∧ (s.run ls).counts = [k, k, k, 0, k, k, k] := by
  induction k with
  | zero => exact ⟨[], xs, h, hs⟩
  | succ k ih =>
    obtain ⟨ls, xs₁, h₁, hk⟩ := ih
    obtain ⟨xs₂, h₂⟩ := h₁.run hn [.addChain [⟨4096, 16, 0⟩], .publish]
    obtain ⟨xs₃, h₃⟩ := h₂.run hn [.consume, .complete 0 16, .announce (k + 1), .getUsed]
    refine ⟨ls ++ ([.addChain [⟨4096, 16, 0⟩], .publish] ++
      [.consume, .complete 0 16, .announce (k + 1), .getUsed]), xs₃, ?_⟩
    rw [QueueSys.run, List.foldl_append, List.foldl_append]
    exact ⟨h₃, h₂.counts_return hn (h₁.counts_publish hn hk)⟩

/-- `2 ^ 16` buffers published without a check. The device has stored its place as its event and
would sleep before the last of them; `should_kick` finds the avail index where it was at the start
and asks for no kick. -/
theorem unnotified_after_full_turn : ∃ ls : List Label,
    let s := (QueueSys.start fourSlots).run ls
    let t := s.run [.addChain [⟨4096, 16, 0⟩], .publish]
    (s.sent = 2 ^ 16 - 1 ∧ s.q.at .availIdx = s.consumed % 2 ^ 16 ∧
      s.q.at .availEvent = s.consumed % 2 ^ 16) ∧
      t.consumed < t.sent ∧ t.q.shouldKick 0 = false := by
  have hn : RingSize (2 ^ 2) := RingSize.two_pow (by decide)
  obtain ⟨ls, xs, h, hk⟩ := (Inv.start hn fourSlots).exists_counts hn rfl (2 ^ 16 - 1)
  obtain ⟨event, hw⟩ := (Words.start hn rfl).run (Inv.start hn fourSlots) hn ls
  refine ⟨ls ++ [.notify 0 (2 ^ 16 - 1)], ?_⟩
  have hrun : (QueueSys.start fourSlots).run (ls ++ [.notify 0 (2 ^ 16 - 1)]) =
      ((QueueSys.start fourSlots).run ls).step (.notify 0 (2 ^ 16 - 1)) := List.foldl_append
  rw [hrun]
  replace hw := hw.notify 0 (2 ^ 16 - 1)
  replace h := h.notify hn 0 (2 ^ 16 - 1)
  replace hk : (((QueueSys.start fourSlots).run ls).step (.notify 0 (2 ^ 16 - 1))).counts = _ := hk
  generalize ((QueueSys.start fourSlots).run ls).step (.notify 0 (2 ^ 16 - 1)) = s at *
  obtain ⟨-, hsent, hconsumed, -⟩ := counts_eq hk
  obtain ⟨-, hsent', hconsumed', -⟩ := counts_eq (h.counts_publish hn hk)
  obtain ⟨ys, h'⟩ := h.run hn [.addChain [⟨4096, 16, 0⟩], .publish]
  obtain ⟨event', hw'⟩ := hw.run h hn [.addChain [⟨4096, 16, 0⟩], .publish]
  refine ⟨⟨hsent, ?_, ?_⟩, ?_, ?_⟩
  · rw [h.availIdx, hsent, hconsumed]
  · rw [hw.avail, hconsumed]
  · rw [hsent', hconsumed']
    exact Nat.lt_succ_self _
  · rw [SplitQueue.shouldKick, if_pos hw'.eventIdx, SplitQueue.rd_availIdx, h'.availIdx, hsent']
    exact decide_eq_false (Nat.not_lt_zero _)

end VibeOS.Virtio
