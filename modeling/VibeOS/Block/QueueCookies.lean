import Mathlib.Data.Multiset.Bind
import VibeOS.Block.Queue

/-!
Where waiters are, in the abstract. A ledger says which requests are queued and which the
driver holds, which waiters a flush is owed to, what was accepted and what was handed
back. Its moves are what a queue is for: they carry each waiter from one place to another,
and report a `Fua` write that the queue emulates by the flush that follows it.
-/
namespace VibeOS.Block

inductive Event where
  | picked (r : Request)
  | completed (r : Request) (c : Completion)

/-- The log has its newest event first. -/
structure Ledger where
  queued : Multiset Request
  held : Multiset Request
  due : Multiset (List Nat)
  accepted : List Request
  handed : Multiset Nat
  log : List Event

/-- Requests that differ at most in their number and retries. -/
def Request.Same (r req : Request) : Prop :=
  r.bio = req.bio ∧ r.waiters = req.waiters ∧ r.fua = req.fua

inductive Move (emulated : Bool) : Ledger → Ledger → Prop
  | skip (L : Ledger) : Move emulated L L
  | accept {L : Ledger} {r req : Request} (hr : r.Same req) :
      Move emulated L { L with queued := r ::ₘ L.queued, accepted := req :: L.accepted }
  | join {L : Ledger} {dst r req : Request} {rest : Multiset Request}
      (hq : L.queued = dst ::ₘ rest)
      (hw : (r.waiters : Multiset Nat) = dst.waiters + req.waiters)
      (hreq : req.fua = false) (hdst : dst.fua = false) (hop : dst.bio.op ≠ .flush) :
      Move emulated L { L with queued := r ::ₘ rest, accepted := req :: L.accepted }
  | dispatch {L : Ledger} {r : Request} {rest : Multiset Request} (hq : L.queued = r ::ₘ rest) :
      Move emulated L
        { L with queued := rest, held := r ::ₘ L.held, log := .picked r :: L.log }
  | flush {L : Ledger} {r : Request} {rest : Multiset (List Nat)}
      (hd : L.due = r.waiters ::ₘ rest) (hop : r.bio.op = .flush) :
      Move emulated L { L with due := rest, held := r ::ₘ L.held, log := .picked r :: L.log }
  | report {L : Ledger} {r : Request} {rest : Multiset Request} (hh : L.held = r ::ₘ rest)
      (hf : (emulated && r.fua) = false) :
      Move emulated L
        { L with
          held := rest, handed := L.handed + r.waiters, log := .completed r .report :: L.log }
  | defer {L : Ledger} {r : Request} {rest : Multiset Request} (hh : L.held = r ::ₘ rest)
      (hf : (emulated && r.fua) = true) :
      Move emulated L
        { L with held := rest, due := r.waiters ::ₘ L.due, log := .completed r .deferred :: L.log }
  | fail {L : Ledger} {r : Request} {rest : Multiset Request} (hh : L.held = r ::ₘ rest) :
      Move emulated L { L with held := rest, handed := L.handed + r.waiters }
  | retry {L : Ledger} {r r' : Request} {rest : Multiset Request} (hh : L.held = r ::ₘ rest)
      (hr : r'.Same r) : Move emulated L { L with held := rest, queued := r' ::ₘ L.queued }
  | drain {L : Ledger} {rs queued : Multiset Request} {ws due : Multiset (List Nat)}
      (hq : L.queued = queued + rs) (hd : L.due = ws + due) :
      Move emulated L
        { L with
          queued, due
          handed := L.handed + (rs.bind fun r => ↑r.waiters) + ws.bind fun w => ↑w }

namespace Ledger
variable {L L' : Ledger} {emulated : Bool} {req : Request}

def cookies (L : Ledger) : Multiset Nat :=
  (L.accepted : Multiset Request).bind fun r => ↑r.waiters

def carried (L : Ledger) : Multiset Nat :=
  (L.queued.bind fun r => ↑r.waiters) + (L.held.bind fun r => ↑r.waiters) +
    L.due.bind fun w => ↑w

structure Sound (L : Ledger) : Prop where
  conserved : L.cookies = L.carried + L.handed
  handed_of_reported : ∀ {x}, .completed x .report ∈ L.log → ∀ c ∈ x.waiters, c ∈ L.handed

theorem cookies_cons (L : Ledger) (req : Request) (queued : Multiset Request) :
    cookies { L with queued, accepted := req :: L.accepted } = ↑req.waiters + L.cookies := by
  simp only [cookies, ← Multiset.cons_coe, Multiset.cons_bind]

theorem cookies_le_of_move (hm : Move emulated L L') : L.cookies ≤ L'.cookies := by
  cases hm with
  | accept | join =>
    rw [cookies_cons]
    exact Multiset.le_add_left _ _
  | skip | dispatch | flush | report | defer | fail | retry | drain => exact le_rfl

theorem conserved_move (hm : Move emulated L L') (h : L.cookies = L.carried + L.handed) :
    L'.cookies = L'.carried + L'.handed := by
  cases hm with
  | skip => exact h
  | accept hr =>
    rw [cookies_cons, h]
    simp only [carried, Multiset.cons_bind, hr.2.1]
    ac_rfl
  | join hq hw =>
    rw [cookies_cons, h]
    simp only [carried, hq, Multiset.cons_bind, hw]
    ac_rfl
  | dispatch hh | flush hh | report hh | fail hh | defer hh =>
    refine h.trans ?_
    simp only [carried, hh, Multiset.cons_bind]
    ac_rfl
  | retry hh hr =>
    refine h.trans ?_
    simp only [carried, hh, Multiset.cons_bind, hr.2.1]
    ac_rfl
  | drain hq hd =>
    refine h.trans ?_
    simp only [carried, hq, hd, Multiset.add_bind]
    ac_rfl

theorem Sound.move (h : L.Sound) (hm : Move emulated L L') : L'.Sound := by
  refine ⟨conserved_move hm h.conserved, ?_⟩
  cases hm with
  | skip | accept | join | retry => exact h.handed_of_reported
  | dispatch | flush | defer =>
    intro x hx
    exact h.handed_of_reported (by simpa using hx)
  | report hh hf =>
    intro x hx c hc
    rcases List.mem_cons.mp hx with he | hx
    · cases he
      exact Multiset.mem_add.mpr (.inr hc)
    · exact Multiset.mem_add.mpr (.inl (h.handed_of_reported hx c hc))
  | fail =>
    intro x hx c hc
    exact Multiset.mem_add.mpr (.inl (h.handed_of_reported hx c hc))
  | drain =>
    intro x hx c hc
    exact Multiset.mem_add.mpr (.inl (Multiset.mem_add.mpr (.inl (h.handed_of_reported hx c hc))))

/-- `x` is the write `req` was accepted as, queued or dispatched. -/
def IsWrite (req x : Request) : Prop :=
  x.fua = true ∧ x.bio = req.bio ∧ x.waiters = req.waiters

/-- The device has completed `req`'s write, and the queue has put its report off. -/
def Written (log : List Event) (req : Request) : Prop :=
  ∃ w, .completed w .deferred ∈ log ∧ IsWrite req w

/-- `x` is a flush picked after `req`'s write was completed. -/
def Flushing (log : List Event) (req x : Request) : Prop :=
  x.bio.op = .flush ∧ ∃ after before, log = after ++ before ∧ .picked x ∈ after ∧ Written before req

theorem Written.mono {log log' : List Event} (h : Written log req) (hsub : log ⊆ log') :
    Written log' req := by
  obtain ⟨w, hw, hreq⟩ := h
  exact ⟨w, hsub hw, hreq⟩

theorem Flushing.cons {log : List Event} {x : Request} (h : Flushing log req x) (e : Event) :
    Flushing (e :: log) req x := by
  obtain ⟨hop, after, before, rfl, hp, hw⟩ := h
  exact ⟨hop, e :: after, before, rfl, List.mem_cons_of_mem _ hp, hw⟩

theorem Flushing.written {log : List Event} {x : Request} (h : Flushing log req x) :
    Written log req := by
  obtain ⟨-, after, before, rfl, -, hw⟩ := h
  exact hw.mono (List.subset_append_right _ _)

/-- Every place of a waiter of the `Fua` write `req`: the write itself or, once the write
has been completed, the flush that follows it. -/
structure Covered (L : Ledger) (req : Request) : Prop where
  queued : ∀ x ∈ L.queued, ∀ c ∈ req.waiters, c ∈ x.waiters →
    IsWrite req x ∨ x.bio.op = .flush ∧ Written L.log req
  held : ∀ x ∈ L.held, ∀ c ∈ req.waiters, c ∈ x.waiters → IsWrite req x ∨ Flushing L.log req x
  due : ∀ w ∈ L.due, ∀ c ∈ req.waiters, c ∈ w → Written L.log req
  reported : ∀ after before x, L.log = after ++ .completed x .report :: before →
    ∀ c ∈ req.waiters, c ∈ x.waiters → Flushing before req x

theorem covered_of_fresh (h : L.Sound) (hnew : ∀ c ∈ req.waiters, c ∉ L.cookies) :
    L.Covered req := by
  have absent : ∀ c ∈ req.waiters, c ∉ L.carried ∧ c ∉ L.handed := by
    intro c hc
    have hn := hnew c hc
    rw [h.conserved, Multiset.mem_add, not_or] at hn
    exact hn
  refine ⟨fun x hx c hc hcx => ?_, fun x hx c hc hcx => ?_, fun w hw c hc hcw => ?_,
    fun after before x he c hc hcx => ?_⟩
  · refine absurd ?_ (absent c hc).1
    exact Multiset.mem_add.mpr (.inl (Multiset.mem_add.mpr (.inl
      (Multiset.mem_bind.mpr ⟨x, hx, hcx⟩))))
  · refine absurd ?_ (absent c hc).1
    exact Multiset.mem_add.mpr (.inl (Multiset.mem_add.mpr (.inr
      (Multiset.mem_bind.mpr ⟨x, hx, hcx⟩))))
  · refine absurd ?_ (absent c hc).1
    exact Multiset.mem_add.mpr (.inr (Multiset.mem_bind.mpr ⟨w, hw, hcw⟩))
  · exact absurd (h.handed_of_reported (by simp [he]) c hcx) (absent c hc).2

theorem reported_cons {log after before : List Event} {e : Event} {x : Request}
    (h : e :: log = after ++ .completed x .report :: before) :
    (e = .completed x .report ∧ before = log) ∨
      ∃ after', log = after' ++ .completed x .report :: before := by
  cases after with
  | nil =>
    cases h
    exact .inl ⟨rfl, rfl⟩
  | cons e' after' =>
    cases h
    exact .inr ⟨after', rfl⟩

theorem Covered.log_cons (h : L.Covered req) {e : Event} {queued held : Multiset Request}
    {due : Multiset (List Nat)} {handed : Multiset Nat} (he : ∀ x, e ≠ .completed x .report)
    (hq : ∀ x ∈ queued, x ∈ L.queued)
    (hh : ∀ x ∈ held, x ∈ L.held ∨ ∀ c ∈ req.waiters, c ∈ x.waiters →
      IsWrite req x ∨ Flushing (e :: L.log) req x)
    (hd : ∀ w ∈ due, w ∈ L.due ∨ ∀ c ∈ req.waiters, c ∈ w → Written (e :: L.log) req) :
    Covered { L with queued, held, due, handed, log := e :: L.log } req := by
  refine ⟨fun x hx c hc hcx => ?_, fun x hx c hc hcx => ?_, fun w hw c hc hcw => ?_,
    fun after before x hl c hc hcx => ?_⟩
  · exact (h.queued x (hq x hx) c hc hcx).imp id fun hf =>
      ⟨hf.1, hf.2.mono (List.subset_cons_self _ _)⟩
  · rcases hh x hx with hx | hx
    · exact (h.held x hx c hc hcx).imp id fun hf => hf.cons e
    · exact hx c hc hcx
  · rcases hd w hw with hw | hw
    · exact (h.due w hw c hc hcw).mono (List.subset_cons_self _ _)
    · exact hw c hc hcw
  · rcases reported_cons hl with ⟨rfl, -⟩ | ⟨after', hl⟩
    · exact absurd rfl (he x)
    · exact h.reported after' before x hl c hc hcx

/-- A move keeps the waiters of an accepted `Fua` write where they belong, as long as no
other request has them. -/
theorem Covered.move (h : L.Covered req) (hreq : req ∈ L.accepted) (hm : Move true L L')
    (hnd : L'.cookies.Nodup) : L'.Covered req := by
  have mem_cookies : ∀ c ∈ req.waiters, c ∈ L.cookies := fun c hc =>
    Multiset.mem_bind.mpr ⟨req, hreq, hc⟩
  cases hm with
  | skip => exact h
  | accept hr =>
    rw [cookies_cons, Multiset.nodup_add] at hnd
    refine ⟨fun x hx c hc hcx => ?_, h.held, h.due, h.reported⟩
    rcases Multiset.mem_cons.mp hx with rfl | hx
    · rw [hr.2.1] at hcx
      exact absurd (mem_cookies c hc) (Multiset.disjoint_left.mp hnd.2.2 hcx)
    · exact h.queued x hx c hc hcx
  | @join dst r req' rest hq hw _ hdst hop =>
    rw [cookies_cons, Multiset.nodup_add] at hnd
    refine ⟨fun x hx c hc hcx => ?_, h.held, h.due, h.reported⟩
    rcases Multiset.mem_cons.mp hx with rfl | hx
    · have hcm : c ∈ dst.waiters ∨ c ∈ req'.waiters := by
        have : c ∈ (x.waiters : Multiset Nat) := hcx
        rw [hw] at this
        exact Multiset.mem_add.mp this
      rcases hcm with hcd | hcr
      · rcases h.queued dst (hq ▸ Multiset.mem_cons_self _ _) c hc hcd with hx | hx
        · exact absurd hx.1 (by simp [hdst])
        · exact absurd hx.1 hop
      · exact absurd (mem_cookies c hc) (Multiset.disjoint_left.mp hnd.2.2 hcr)
    · exact h.queued x (hq ▸ Multiset.mem_cons_of_mem hx) c hc hcx
  | @dispatch r rest hq =>
    refine h.log_cons (by simp) (fun x hx => hq ▸ Multiset.mem_cons_of_mem hx) (fun x hx => ?_)
      fun w hw => .inl hw
    rcases Multiset.mem_cons.mp hx with rfl | hx
    · refine .inr fun c hc hcx => ?_
      exact (h.queued x (hq ▸ Multiset.mem_cons_self _ _) c hc hcx).imp id fun hf =>
        ⟨hf.1, [.picked x], L.log, rfl, List.mem_singleton.mpr rfl, hf.2⟩
    · exact .inl hx
  | @flush r rest hd hop =>
    refine h.log_cons (by simp) (fun x hx => hx) (fun x hx => ?_)
      fun w hw => .inl (hd ▸ Multiset.mem_cons_of_mem hw)
    rcases Multiset.mem_cons.mp hx with rfl | hx
    · refine .inr fun c hc hcx => .inr ?_
      exact ⟨hop, [.picked x], L.log, rfl, List.mem_singleton.mpr rfl,
        h.due x.waiters (hd ▸ Multiset.mem_cons_self _ _) c hc hcx⟩
    · exact .inl hx
  | @report r rest hh hf =>
    refine ⟨fun x hx c hc hcx => ?_, fun x hx c hc hcx => ?_, fun w hw c hc hcw => ?_,
      fun after before x hl c hc hcx => ?_⟩
    · exact (h.queued x hx c hc hcx).imp id fun hf =>
        ⟨hf.1, hf.2.mono (List.subset_cons_self _ _)⟩
    · exact (h.held x (hh ▸ Multiset.mem_cons_of_mem hx) c hc hcx).imp id fun hf => hf.cons _
    · exact (h.due w hw c hc hcw).mono (List.subset_cons_self _ _)
    · rcases reported_cons hl with ⟨he, rfl⟩ | ⟨after', hl⟩
      · cases he
        rcases h.held r (hh ▸ Multiset.mem_cons_self _ _) c hc hcx with hx | hx
        · exact absurd hx.1 (by simpa using hf)
        · exact hx
      · exact h.reported after' before x hl c hc hcx
  | @defer r rest hh hf =>
    refine h.log_cons (by simp) (fun x hx => hx)
      (fun x hx => .inl (hh ▸ Multiset.mem_cons_of_mem hx)) fun w hw => ?_
    rcases Multiset.mem_cons.mp hw with rfl | hw
    · refine .inr fun c hc hcx => ?_
      rcases h.held r (hh ▸ Multiset.mem_cons_self _ _) c hc hcx with hx | hx
      · exact ⟨r, List.mem_cons_self, hx⟩
      · exact hx.written.mono (List.subset_cons_self _ _)
    · exact .inl hw
  | fail hh =>
    exact ⟨h.queued, fun x hx => h.held x (hh ▸ Multiset.mem_cons_of_mem hx), h.due, h.reported⟩
  | @retry r r' rest hh hr =>
    refine ⟨fun x hx c hc hcx => ?_, fun x hx => h.held x (hh ▸ Multiset.mem_cons_of_mem hx),
      h.due, h.reported⟩
    rcases Multiset.mem_cons.mp hx with rfl | hx
    · obtain ⟨hbio, hw, hfua⟩ := hr
      rcases h.held r (hh ▸ Multiset.mem_cons_self _ _) c hc (hw ▸ hcx) with hx | hx
      · exact .inl ⟨hfua.trans hx.1, hbio.trans hx.2.1, hw.trans hx.2.2⟩
      · exact .inr ⟨hbio ▸ hx.1, hx.written⟩
    · exact h.queued x hx c hc hcx
  | drain hq hd =>
    exact ⟨fun x hx => h.queued x (hq ▸ Multiset.mem_add.mpr (.inl hx)), h.held,
      fun w hw => h.due w (hd ▸ Multiset.mem_add.mpr (.inr hw)), h.reported⟩

theorem covered_accepted (h : L.Sound) (hm : Move true L L') (hnew : req ∈ L'.accepted)
    (hold : req ∉ L.accepted) (hfua : req.fua = true) (hnd : L'.cookies.Nodup) :
    L'.Covered req := by
  cases hm with
  | accept hr =>
    obtain rfl : req = _ := (List.mem_cons.mp hnew).resolve_right hold
    rw [cookies_cons, Multiset.nodup_add] at hnd
    have hc : L.Covered req := covered_of_fresh h fun c hc =>
      Multiset.disjoint_left.mp hnd.2.2 hc
    refine ⟨fun x hx c hcr hcx => ?_, hc.held, hc.due, hc.reported⟩
    rcases Multiset.mem_cons.mp hx with rfl | hx
    · exact .inl ⟨hr.2.2.trans hfua, hr.1, hr.2.1⟩
    · exact hc.queued x hx c hcr hcx
  | join _ _ hf =>
    obtain rfl : req = _ := (List.mem_cons.mp hnew).resolve_right hold
    exact absurd hfua (by simp [hf])
  | skip | dispatch | flush | report | defer | fail | retry | drain => exact absurd hnew hold

end Ledger
end VibeOS.Block
