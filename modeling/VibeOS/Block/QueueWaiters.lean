import VibeOS.Block.QueueDesk

/-!
Every accepted waiter is in one place on every run that draws each sequence number at most
once, and past that a waiter can be lost: a completion then finds an older entry of the
same number.
-/
namespace VibeOS.Block
open Queue

namespace Desk
variable {d : Desk}

theorem drawn_le_step (d : Desk) (a : DeskAct) : d.drawn ≤ (d.step a).drawn := by
  cases a with
  | submit req =>
    simp only [step, submit]
    split <;> exact Nat.le_add_right _ _
  | pick =>
    simp only [step, pick]
    split
    · exact Nat.le_add_right _ _
    · exact le_rfl
  | complete k =>
    simp only [step, complete]
    split
    · exact le_rfl
    · split <;> exact le_rfl
  | abort k =>
    simp only [step, abort]
    split <;> exact le_rfl
  | requeue k retries =>
    simp only [step, requeue]
    split
    · exact le_rfl
    · split <;> exact le_rfl
  | drain room => exact Nat.le_add_right _ _
  | fail => exact le_rfl

theorem cookies_ledger (d : Desk) : d.ledger.cookies = d.cookies :=
  bind_waiters d.accepted

theorem Matched.carried_eq (h : d.Matched) : d.ledger.carried = d.q.waiting := by
  have hsplit : inState .dispatched d.q.flying + inState .flushDue d.q.flying = d.q.flying := by
    have hnot : inState .flushDue d.q.flying =
        d.q.flying.filter fun f => ¬ f.state = .dispatched := by
      refine Multiset.filter_congr fun f _ => ?_
      cases f.state <;> simp
    rw [hnot]
    exact Multiset.filter_add_not _ _
  have hheld : ((d.held : Multiset Request).bind fun r => (r.waiters : Multiset Nat)) =
      (inState .dispatched d.q.flying).bind fun f => (f.waiters : Multiset Nat) := by
    rw [h.dispatched, Multiset.bind_map]
    rfl
  simp only [Ledger.carried, ledger, Queue.waiting]
  rw [hheld, Multiset.bind_map, add_assoc, ← Multiset.add_bind, hsplit]

structure Kept (d : Desk) : Prop where
  is_matched : d.Matched
  sound : d.ledger.Sound
  covered : d.q.nativeFua = false → d.cookies.Nodup →
    ∀ req ∈ d.accepted, req.fua = true → d.ledger.Covered req

theorem kept_init (nativeFua : Bool) : (init nativeFua).Kept := by
  refine ⟨matched_init nativeFua, ⟨?_, ?_⟩, ?_⟩
  · have hq : (init nativeFua).q.queued = 0 := Lib.filled_empty
    have hf : (init nativeFua).q.flying = 0 := Lib.filled_empty
    simp only [Ledger.carried, ledger, hq, hf]
    rfl
  · intro x hx
    cases hx
  · intro _ _ req hreq
    cases hreq

theorem Kept.step (h : d.Kept) (a : DeskAct) (hle : (d.step a).drawn ≤ 2 ^ 64) :
    (d.step a).Kept ∧ (d.step a).q.nativeFua = d.q.nativeFua := by
  obtain ⟨hm, hmove, hnative⟩ := step_refines h.is_matched a hle
  refine ⟨⟨hm, h.sound.move hmove, fun hn hnd req hreq hfua => ?_⟩, hnative⟩
  rw [hnative] at hn
  rw [hn] at hmove
  rw [← Multiset.coe_nodup, ← cookies_ledger] at hnd
  by_cases hold : req ∈ d.accepted
  · have hnd' : d.cookies.Nodup := by
      rw [← Multiset.coe_nodup, ← cookies_ledger]
      exact Multiset.nodup_of_le (Ledger.cookies_le_of_move hmove) hnd
    exact (h.covered hn hnd' req hold hfua).move hold hmove hnd
  · exact Ledger.covered_accepted h.sound hmove hreq hold hfua hnd

theorem kept_run (nativeFua : Bool) (acts : List DeskAct)
    (hle : (run nativeFua acts).drawn ≤ 2 ^ 64) :
    (run nativeFua acts).Kept ∧ (run nativeFua acts).q.nativeFua = nativeFua := by
  induction acts using List.reverseRecOn with
  | nil => exact ⟨kept_init nativeFua, rfl⟩
  | append_singleton acts a ih =>
    have hrun : run nativeFua (acts ++ [a]) = (run nativeFua acts).step a := by
      simp [run]
    rw [hrun] at hle ⊢
    obtain ⟨hkept, hnative⟩ := ih ((drawn_le_step _ a).trans hle)
    obtain ⟨hk, hn⟩ := hkept.step a hle
    exact ⟨hk, hn.trans hnative⟩

/-- Every accepted waiter is queued, in flight or handed back, as often as it was
accepted. -/
def OnePlace (d : Desk) : Prop :=
  (d.cookies : Multiset Nat) = d.q.waiting + d.handed

/-- A completion that reports a waiter of an accepted `Fua` write is that of a flush which
was picked after the write's own completion. -/
def ReportedByFlush (d : Desk) : Prop :=
  ∀ req ∈ d.accepted, req.fua = true → ∀ after before x,
    d.log = after ++ .completed x .report :: before →
      ∀ c ∈ req.waiters, c ∈ x.waiters → Ledger.Flushing before req x

theorem waiters_in_one_place (nativeFua : Bool) (acts : List DeskAct)
    (hle : (run nativeFua acts).drawn ≤ 2 ^ 64) :
    (run nativeFua acts).OnePlace ∧
      ((run nativeFua acts).cookies.Nodup → ∀ c ∈ (run nativeFua acts).cookies,
        (run nativeFua acts).q.waiting.count c + (run nativeFua acts).handed.count c = 1) ∧
      (nativeFua = false → (run nativeFua acts).cookies.Nodup →
        (run nativeFua acts).ReportedByFlush) := by
  obtain ⟨hkept, hnative⟩ := kept_run nativeFua acts hle
  have hone : (run nativeFua acts).OnePlace := by
    unfold OnePlace
    rw [← cookies_ledger, hkept.sound.conserved, hkept.is_matched.carried_eq]
    rfl
  refine ⟨hone, fun hnd c hc => ?_, fun hn hnd req hreq hfua => ?_⟩
  · rw [← Multiset.coe_count, ← Multiset.count_add, ← hone, Multiset.coe_count]
    exact List.count_eq_one_of_mem hnd hc
  · exact (hkept.covered (hnative.trans hn) hnd req hreq hfua).reported

/-- A `Fua` write of one sector on a queue without native `Fua`: the write, then its flush. -/
def fuaWrite : Request :=
  { Request.new .write 0 1 with waiters := [7], fua := true }

def fuaRun : List DeskAct :=
  [.submit fuaWrite, .pick, .complete 0, .pick, .complete 0]

theorem fua_write_reported_by_its_flush :
    (run false fuaRun).drawn ≤ 2 ^ 64 ∧ (run false fuaRun).handed = [7] ∧
      (run false fuaRun).OnePlace ∧ (run false fuaRun).ReportedByFlush := by
  have h := waiters_in_one_place false fuaRun (by decide +kernel)
  exact ⟨by decide +kernel, by decide +kernel, h.1, h.2.2 rfl (by decide +kernel)⟩

def readFor (c : Nat) : Request :=
  { Request.new .read 0 1 with waiters := [c] }

def idleFlush : Request := Request.new .flush 0 0

def place0 : Fin maxQueue := ⟨0, by decide⟩

def place1 : Fin maxQueue := ⟨1, by decide⟩

/-- The queue while the first read, numbered zero, is with the device. -/
def oneSent (k : Nat) : Queue :=
  { Queue.new with
    nextSeq := k
    lastLba := 1
    flights := Function.update (fun _ => none) place0 (some (flightOf (readFor 1) false)) }

def flushWaits (k : Nat) : Queue :=
  { oneSent ((k + 1) % 2 ^ 64) with
    slots := Function.update (fun _ => none) place0 (some { idleFlush with seq := k })
    n := 1 }

def flushGone (k : Nat) : Queue :=
  { oneSent ((k + 1) % 2 ^ 64) with
    flights := Function.update (oneSent 0).flights place1
      (some (flightOf { idleFlush with seq := k } false)) }

theorem submit_oneSent (k : Nat) : (oneSent k).submit idleFlush = (.ok (), flushWaits k) := by
  rfl

theorem pick_flushWaits (k : Nat) :
    (flushWaits k).pick = (some { idleFlush with seq := k }, flushGone k) := by
  have h : (flushWaits k).pick = (some { idleFlush with seq := k },
      { flushGone k with slots := Function.update (flushWaits k).slots place0 none }) := rfl
  rw [h]
  simp [flushGone, flushWaits, oneSent, Queue.new]

theorem complete_flushGone {k : Nat} (hk : k ≠ 0) :
    (flushGone k).complete k = (.report, oneSent ((k + 1) % 2 ^ 64)) := by
  have h01 : place1 ≠ place0 := by decide
  have h : (flushGone k).flightIndex k .dispatched = some place1 := by
    unfold flightIndex
    change List.find? _ (place0 :: place1 :: _) = _
    rw [List.find?_cons_of_neg, List.find?_cons_of_pos]
    · simp [flushGone, flightOf]
    · simp [flushGone, oneSent, flightOf, readFor, Request.new, h01.symm, hk.symm]
  unfold Queue.complete
  rw [h]
  simp [flushGone, flightOf, clearFlight, oneSent, Queue.new, h01]

/-- A read that stays with the device, then `n` flushes, each completed before the next is
submitted. -/
def flushesPast : Nat → List DeskAct
  | 0 => [.submit (readFor 1), .pick]
  | n + 1 => flushesPast n ++ [.submit idleFlush, .pick, .complete 0]

theorem desk_flushesPast (n : Nat) (hn : n < 2 ^ 64) :
    (run false (flushesPast n)).q = oneSent ((n + 1) % 2 ^ 64) ∧
      (run false (flushesPast n)).held = [readFor 1] ∧
      (run false (flushesPast n)).handed = [] ∧ (run false (flushesPast n)).cookies = [1] := by
  induction n with
  | zero =>
    refine ⟨?_, by decide +kernel, rfl, rfl⟩
    have h : (run false (flushesPast 0)).q =
        { oneSent 1 with
          slots := Function.update (Function.update (fun _ => none) place0 (some (readFor 1)))
            place0 none } := rfl
    rw [h]
    simp [oneSent, Queue.new]
  | succ n ih =>
    obtain ⟨hq, hheld, hhanded, hcookies⟩ := ih (by omega)
    rw [Nat.mod_eq_of_lt hn] at hq
    have hsplit : run false (flushesPast (n + 1)) =
        (((run false (flushesPast n)).submit idleFlush).pick).complete 0 := by
      simp [run, flushesPast, step]
    generalize run false (flushesPast n) = d at hq hheld hhanded hcookies hsplit
    have h₁ : d.submit idleFlush =
        { d with
          q := flushWaits (n + 1), drawn := d.drawn + drew d.q (flushWaits (n + 1))
          accepted := idleFlush :: d.accepted } := by
      simp only [submit, hq, submit_oneSent]
    rw [hsplit, h₁]
    simp only [pick, pick_flushWaits, complete, List.getElem?_cons_zero,
      complete_flushGone (Nat.succ_ne_zero n), List.eraseIdx_zero, List.tail_cons]
    refine ⟨trivial, hheld, by simp [hhanded, idleFlush, Request.new], ?_⟩
    simpa [cookies, idleFlush, Request.new] using hcookies

/-- With `2 ^ 64` numbers drawn since, a second read is numbered zero too; its completion
clears the first read's entry. The first waiter is then nowhere. -/
theorem waiter_lost_after_wrap :
    ∃ acts, (run false acts).cookies.Nodup ∧ 1 ∈ (run false acts).cookies ∧
      1 ∉ (run false acts).q.waiting ∧ 1 ∉ (run false acts).handed ∧
      2 ∈ (run false acts).q.waiting ∧ 2 ∈ (run false acts).handed := by
  obtain ⟨n, hn⟩ : ∃ n, n = 2 ^ 64 - 1 := ⟨_, rfl⟩
  obtain ⟨hq, hheld, hhanded, hcookies⟩ := desk_flushesPast n (by omega)
  have hwrap : (n + 1) % 2 ^ 64 = 0 := by omega
  rw [hwrap] at hq
  refine ⟨flushesPast n ++ [.submit (readFor 2), .pick, .complete 0], ?_⟩
  have hsplit : run false (flushesPast n ++ [.submit (readFor 2), .pick, .complete 0]) =
      (((run false (flushesPast n)).submit (readFor 2)).pick).complete 0 := by
    simp [run, step]
  rw [hsplit]
  generalize run false (flushesPast n) = d at hq hheld hhanded hcookies
  have hs : ((oneSent 0).submit (readFor 2)).1 = .ok () := by decide +kernel
  have hp : ((oneSent 0).submit (readFor 2)).2.pick.1 = some (readFor 2) := by decide +kernel
  have hc : (((oneSent 0).submit (readFor 2)).2.pick.2.complete 0).1 = .report := by
    decide +kernel
  have h1 : 1 ∉ (((oneSent 0).submit (readFor 2)).2.pick.2.complete 0).2.waiting := by
    decide +kernel
  have h2 : 2 ∈ (((oneSent 0).submit (readFor 2)).2.pick.2.complete 0).2.waiting := by
    decide +kernel
  generalize hq₁ : (oneSent 0).submit (readFor 2) = t₁ at hs hp hc h1 h2
  obtain ⟨_, q₁⟩ := t₁
  generalize hq₂ : q₁.pick = t₂ at hp hc h1 h2
  obtain ⟨_, q₂⟩ := t₂
  generalize hq₃ : q₂.complete 0 = t₃ at hc h1 h2
  obtain ⟨_, q₃⟩ := t₃
  simp only at hs hp hc h1 h2
  subst hs hp hc
  have hseq : (readFor 2).seq = 0 := rfl
  simp only [submit, hq, hq₁, pick, hq₂, complete, List.getElem?_cons_zero, hseq, hq₃]
  refine ⟨?_, ?_, h1, ?_, h2, ?_⟩
  · change (_ ++ d.cookies).Nodup
    rw [hcookies]
    decide
  · change 1 ∈ _ ++ d.cookies
    rw [hcookies]
    decide
  · rw [hhanded]
    decide
  · rw [hhanded]
    decide

end Desk
end VibeOS.Block
