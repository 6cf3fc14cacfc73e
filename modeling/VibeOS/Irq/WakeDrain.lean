import VibeOS.Irq.WakeInbox

/-!
The invariant of the wake inbox in every interleaving. The set bits are the posted slots; a settled
slot's word is flagged in the summary or still ahead of the running drain, which every overdue
slot's word is. So no drain returns while a slot is overdue.
-/
namespace VibeOS.Irq
open VibeOS.Lib

namespace InboxSys
variable {P : Type} {W : Nat} {S : InboxSys P W} {s w : Nat} {bits : BitVec 64}
  {l : List (InboxEvent P)}

theorem report_mem_reports :
    (.report s : InboxEvent P) ∈ reports w bits ↔ s / 64 = w ∧ bits.getLsbD (s % 64) = true := by
  simp only [reports, List.mem_reverse, List.mem_map, mem_setBits, InboxEvent.report.injEq]
  constructor
  · rintro ⟨b, hb, rfl⟩
    have := BitVec.lt_of_getLsbD hb
    rw [show (w * 64 + b) / 64 = w by omega, show (w * 64 + b) % 64 = b by omega]
    exact ⟨rfl, hb⟩
  · rintro ⟨rfl, hb⟩
    exact ⟨s % 64, hb, by omega⟩

theorem eq_report_of_mem {e : InboxEvent P} (h : e ∈ reports w bits) : ∃ s, e = .report s := by
  simp only [reports, List.mem_reverse, List.mem_map] at h
  obtain ⟨b, -, rfl⟩ := h
  exact ⟨_, rfl⟩

theorem nodup_reports : (reports w bits : List (InboxEvent P)).Nodup := by
  refine List.nodup_reverse.mpr ((nodup_setBits bits).map fun a b hab => ?_)
  exact Nat.add_left_cancel (InboxEvent.report.inj hab)

theorem since_reports {good : InboxEvent P → List (InboxEvent P) → Prop} {l' : List (InboxEvent P)}
    (hgood : ∀ s l, ¬ good (.report s) l) (hl : ∀ e ∈ l', e ∈ reports w bits) :
    Since good (.report s) (l' ++ l) ↔ .report s ∉ l' ∧ Since good (.report s) l := by
  refine since_append fun e he l => ?_
  obtain ⟨s, rfl⟩ := eq_report_of_mem (hl e he)
  exact hgood s l

/-- The summary bit of a word is set, or the drain that took it has the word before it. -/
def Flagged (S : InboxSys P W) (w : Nat) : Prop :=
  S.inbox.summary.getLsbD w = true ∨ ∃ d, S.drain = some d ∧ d.summary.getLsbD w = true

structure Inv (S : InboxSys P W) : Prop where
  fits : ∀ p slot, S.pushes p = some slot → slot / 64 < W
  queued : ∀ s, S.inbox.Queued s ↔ Posted s S.log
  posted : ∀ s, Posted s S.log → S.Flagged (s / 64) ∨ ∃ p slot, S.pushes p = some slot ∧
    slot / 64 = s / 64
  settled : ∀ s, Settled s S.log → S.Flagged (s / 64)
  overdue : ∀ s, Overdue s S.log → ∃ d, S.drain = some d ∧ d.summary.getLsbD (s / 64) = true
  honest : Each Honest S.log

theorem Inv.init : Inv (InboxSys.init : InboxSys P W) := by
  refine ⟨nofun, fun s => ⟨fun ⟨h, hb⟩ => ?_, nofun⟩, nofun, nofun, nofun, trivial⟩
  simp [InboxSys.init, WakeInbox.new] at hb

variable [DecidableEq P] {p : P} {slot : Nat}

theorem Inv.push (h : Inv S) (hp : S.pushes p = none) : Inv (S.push p slot) := by
  unfold InboxSys.push
  split
  · rename_i hslot
    refine ⟨fun q t hq => ?_, fun s => ?_, fun s hs => ?_, fun s hs => ?_, fun s hs => ?_, trivial,
      h.honest⟩
    · by_cases hqp : q = p
      · subst hqp
        cases (Function.update_self ..).symm.trans hq
        exact hslot
      · exact h.fits q t ((Function.update_of_ne hqp ..).symm.trans hq)
    · rw [WakeInbox.queued_orWord, posted_set, h.queued]
    · rcases (posted_set p slot).mp hs with rfl | hs
      · exact .inr ⟨p, slot, Function.update_self .., rfl⟩
      · refine (h.posted s hs).imp_right fun ⟨q, t, hq, ht⟩ => ⟨q, t, ?_, ht⟩
        refine (Function.update_of_ne ?_ ..).trans hq
        rintro rfl
        rw [hp] at hq
        cases hq
    · exact h.settled s ((settled_set p slot).mp hs)
    · exact h.overdue s ((overdue_set p slot).mp hs)
  · exact h

theorem Inv.flag (hW : W ≤ 64) (h : Inv S) (hp : S.pushes p = some slot) : Inv (S.flag p slot) := by
  have hslot : slot / 64 < 64 := Nat.lt_of_lt_of_le (h.fits p slot hp) hW
  have hkept : ∀ {w}, S.Flagged w → (S.flag p slot).Flagged w :=
    Or.imp_left fun hw => (WakeInbox.summary_orSummary hslot _).mpr (.inr hw)
  have hself : ∀ {w}, slot / 64 = w → (S.flag p slot).Flagged w :=
    fun hw => .inl ((WakeInbox.summary_orSummary hslot _).mpr (.inl hw.symm))
  refine ⟨fun q t hq => ?_, fun s => ?_, fun s hs => ?_, fun s hs => ?_, fun s hs => ?_, trivial,
    h.honest⟩
  · by_cases hqp : q = p
    · subst hqp
      exact absurd ((Function.update_self ..).symm.trans hq) nofun
    · exact h.fits q t ((Function.update_of_ne hqp ..).symm.trans hq)
  · exact (h.queued s).trans (posted_flag p slot).symm
  · rcases h.posted s ((posted_flag p slot).mp hs) with hw | ⟨q, t, hq, ht⟩
    · exact .inl (hkept hw)
    · by_cases hqp : q = p
      · subst hqp
        rw [hp] at hq
        cases hq
        exact .inl (hself ht)
      · exact .inr ⟨q, t, (Function.update_of_ne hqp ..).trans hq, ht⟩
  · rcases (settled_flag p slot).mp hs with ⟨rfl, -⟩ | hs
    · exact hself rfl
    · exact hkept (h.settled s hs)
  · exact h.overdue s ((overdue_flag p slot).mp hs)

omit [DecidableEq P] in
theorem Inv.finish {d : Drain} (h : Inv S) (hd : S.drain = some d) (hzero : d.summary = 0) :
    Inv { S with drain := none, log := .finish d.any :: S.log } := by
  have hclear : ∀ w, d.summary.getLsbD w = false := by
    intro w
    rw [hzero]
    exact BitVec.getLsbD_zero
  have hsummary : ∀ {w}, S.Flagged w → S.inbox.summary.getLsbD w = true := by
    rintro w (hw | ⟨d', hd', hw⟩)
    · exact hw
    · rw [hd] at hd'
      cases hd'
      rw [hclear] at hw
      cases hw
  have hlate : ∀ s, ¬ Overdue s S.log := by
    intro s hs
    obtain ⟨d', hd', hw⟩ := h.overdue s hs
    rw [hd] at hd'
    cases hd'
    rw [hclear] at hw
    cases hw
  refine ⟨h.fits, fun s => ?_, fun s hs => ?_, fun s hs => ?_, fun s hs => ?_, hlate, h.honest⟩
  · exact (h.queued s).trans (posted_finish _).symm
  · exact (h.posted s ((posted_finish _).mp hs)).imp_left fun hw => .inl (hsummary hw)
  · exact .inl (hsummary (h.settled s ((settled_finish _).mp hs)))
  · exact absurd ((overdue_finish _).mp hs) (hlate s)

omit [DecidableEq P] in
theorem Flagged.turn {S' : InboxSys P W} {d d' : Drain} {v : Nat} (h : S.Flagged v)
    (hd : S.drain = some d) (hne : d.summary ≠ 0) (hsum : S'.inbox.summary = S.inbox.summary)
    (hd' : S'.drain = some d') (hrest : d'.summary = d.summary &&& (d.summary - 1))
    (hv : v ≠ d.summary.ctz.toNat) : S'.Flagged v := by
  rcases h with hw | ⟨d₀, hd₀, hw⟩
  · exact .inl (hsum ▸ hw)
  · rw [hd] at hd₀
    cases hd₀
    refine .inr ⟨d', hd', ?_⟩
    rw [hrest, getLsbD_and_pred hne, hw, decide_eq_true hv]
    rfl

omit [DecidableEq P] in
theorem Inv.report_mem (h : Inv S) (word : Fin W) (s : Nat) :
    .report s ∈ (reports word (S.inbox.words word) : List (InboxEvent P)) ↔
      s / 64 = word ∧ Posted s S.log := by
  rw [report_mem_reports]
  refine and_congr_right fun hsw => ?_
  have hlt : s / 64 < W := hsw ▸ word.isLt
  have hcell : (⟨s / 64, hlt⟩ : Fin W) = word := Fin.ext hsw
  rw [← h.queued]
  exact ⟨fun hbit => ⟨hlt, hcell ▸ hbit⟩, fun ⟨_, hbit⟩ => hcell ▸ hbit⟩

omit [DecidableEq P] in
theorem Inv.swap {d : Drain} {word : Fin W} (h : Inv S) (hd : S.drain = some d)
    (hne : d.summary ≠ 0) (hval : d.summary.ctz.toNat = word) (any : Bool) :
    Inv { S with
      inbox := S.inbox.clearWord word
      drain := some ⟨d.summary &&& (d.summary - 1), any⟩
      log := reports word (S.inbox.words word) ++ S.log } := by
  have hposted : ∀ s, Posted s (reports word (S.inbox.words word) ++ S.log) ↔
      s / 64 ≠ word ∧ Posted s S.log := by
    intro s
    refine (since_reports (fun _ _ => nofun) fun _ he => he).trans ?_
    rw [h.report_mem]
    exact ⟨fun ⟨hno, hs⟩ => ⟨fun hsw => hno ⟨hsw, hs⟩, hs⟩, fun ⟨hsw, hs⟩ =>
      ⟨fun hr => hsw hr.1, hs⟩⟩
  have hkept : ∀ {s : Nat}, S.Flagged (s / 64) → s / 64 ≠ word →
      Flagged { S with
        inbox := S.inbox.clearWord word
        drain := some ⟨d.summary &&& (d.summary - 1), any⟩
        log := reports word (S.inbox.words word) ++ S.log } (s / 64) :=
    fun hf hsw => hf.turn hd hne rfl rfl rfl (hval ▸ hsw)
  refine ⟨h.fits, fun s => ?_, fun s hs => ?_, fun s hs => ?_, fun s hs => ?_, ?_⟩
  · rw [WakeInbox.queued_clearWord, h.queued, hposted]
  · obtain ⟨hsw, hs⟩ := (hposted s).mp hs
    exact (h.posted s hs).imp_left fun hf => hkept hf hsw
  · have hsw := ((hposted s).mp hs.posted).1
    exact hkept (h.settled s ((since_reports (fun _ _ => nofun) fun _ he => he).mp hs).2) hsw
  · have hsw := ((hposted s).mp hs.settled.posted).1
    obtain ⟨d₀, hd₀, hbit⟩ :=
      h.overdue s ((since_reports (fun _ _ => nofun) fun _ he => he).mp hs).2
    rw [hd] at hd₀
    cases hd₀
    refine ⟨_, rfl, ?_⟩
    rw [getLsbD_and_pred hne, hbit, decide_eq_true (hval ▸ hsw)]
    rfl
  · refine h.honest.append_left fun l₁ e l₂ hl => ?_
    have hsub : ∀ x ∈ e :: l₂, x ∈ (reports word (S.inbox.words word) : List (InboxEvent P)) :=
      fun x hx => hl ▸ List.mem_append_right _ hx
    obtain ⟨s, rfl⟩ := eq_report_of_mem (hsub e List.mem_cons_self)
    have hs := ((h.report_mem word s).mp (hsub _ List.mem_cons_self)).2
    have hnd : (reports word (S.inbox.words word) : List (InboxEvent P)).Nodup := nodup_reports
    rw [hl] at hnd
    refine (since_reports (fun _ _ => nofun) fun x hx => hsub x (List.mem_cons_of_mem _ hx)).mpr
      ⟨?_, hs⟩
    exact (List.nodup_cons.mp (List.nodup_append.mp hnd).2.1).1

omit [DecidableEq P] in
theorem Inv.scan {d : Drain} (h : Inv S) (hd : S.drain = some d) : Inv (S.scan d) := by
  unfold InboxSys.scan
  split
  · rename_i hzero
    exact h.finish hd hzero
  · rename_i hne
    simp only
    split
    · exact h.swap hd hne rfl _
    · -- no word has this flag
      rename_i hw
      have hword : ∀ s, Posted s S.log → s / 64 ≠ d.summary.ctz.toNat := by
        intro s hs he
        obtain ⟨hlt, -⟩ := (h.queued s).mpr hs
        exact hw (he ▸ hlt)
      refine ⟨h.fits, h.queued, fun s hs => ?_, fun s hs => ?_, fun s hs => ?_, h.honest⟩
      · exact (h.posted s hs).imp_left fun hf => hf.turn hd hne rfl rfl rfl (hword s hs)
      · exact (h.settled s hs).turn hd hne rfl rfl rfl (hword s hs.posted)
      · obtain ⟨d₀, hd₀, hbit⟩ := h.overdue s hs
        rw [hd] at hd₀
        cases hd₀
        refine ⟨_, rfl, ?_⟩
        rw [getLsbD_and_pred hne, hbit, decide_eq_true (hword s hs.settled.posted)]
        rfl

omit [DecidableEq P] in
theorem Inv.start (h : Inv S) (hd : S.drain = none) :
    Inv { S with
      inbox := { S.inbox with summary := 0 }
      drain := some ⟨S.inbox.summary, false⟩
      log := .start :: S.log } := by
  have hmoved : ∀ {w}, S.Flagged w → S.inbox.summary.getLsbD w = true := by
    rintro w (hw | ⟨d, hd', -⟩)
    · exact hw
    · rw [hd] at hd'
      cases hd'
  refine ⟨h.fits, fun s => ?_, fun s hs => ?_, fun s hs => ?_, fun s hs => ?_, trivial, h.honest⟩
  · exact (h.queued s).trans posted_start.symm
  · exact (h.posted s (posted_start.mp hs)).imp_left fun hf => .inr ⟨_, rfl, hmoved hf⟩
  · exact .inr ⟨_, rfl, hmoved (h.settled s (settled_start.mp hs))⟩
  · exact ⟨_, rfl, hmoved (h.settled s (overdue_start.mp hs))⟩

theorem Inv.step (hW : W ≤ 64) (h : Inv S) (a : InboxAct P) : Inv (S.step a) := by
  cases a with
  | push p slot =>
    simp only [InboxSys.step]
    split
    · rename_i hp
      exact h.push hp
    · exact h
  | flag p =>
    simp only [InboxSys.step]
    split
    · exact h
    · rename_i slot hp
      exact h.flag hW hp
  | drain =>
    simp only [InboxSys.step]
    split
    · rename_i hd
      exact h.start hd
    · exact h
  | scan =>
    simp only [InboxSys.step]
    split
    · exact h
    · rename_i d hd
      exact h.scan hd

theorem inv_run (hW : W ≤ 64) (acts : List (InboxAct P)) : Inv (run W acts) := by
  suffices h : ∀ S : InboxSys P W, Inv S → Inv (acts.foldl InboxSys.step S) from h _ .init
  induction acts with
  | nil => exact fun S hS => hS
  | cons a acts ih => exact fun S hS => ih _ (hS.step hW a)

def turns (S : InboxSys P W) : Nat :=
  match S.drain with
  | none => 0
  | some d => (setBits d.summary).length + 1

theorem turns_step (S : InboxSys P W) (a : InboxAct P) (hd : S.drain ≠ none) :
    ∃ l, (S.step a).log = l ++ S.log ∧
      ((∃ any, .finish any ∈ l) ∨
        (S.step a).drain ≠ none ∧ (S.step a).turns + (if a.isScan then 1 else 0) = S.turns) := by
  obtain ⟨d, hd⟩ := Option.ne_none_iff_exists'.mp hd
  cases a with
  | push p slot =>
    simp only [InboxSys.step]
    split
    · unfold InboxSys.push
      split
      · exact ⟨[_], rfl, .inr ⟨by simp [hd], rfl⟩⟩
      · exact ⟨[], rfl, .inr ⟨by simp [hd], rfl⟩⟩
    · exact ⟨[], rfl, .inr ⟨by simp [hd], rfl⟩⟩
  | flag p =>
    simp only [InboxSys.step]
    split
    · exact ⟨[], rfl, .inr ⟨by simp [hd], rfl⟩⟩
    · exact ⟨[_], rfl, .inr ⟨by simp [InboxSys.flag, hd], rfl⟩⟩
  | drain =>
    simp only [InboxSys.step, hd]
    exact ⟨[], rfl, .inr ⟨(fun he => by cases he), rfl⟩⟩
  | scan =>
    simp only [InboxSys.step, hd]
    unfold InboxSys.scan
    split
    · exact ⟨[_], rfl, .inl ⟨d.any, List.mem_singleton_self _⟩⟩
    · rename_i hne
      have hturns : S.turns = (setBits (d.summary &&& (d.summary - 1))).length + 1 + 1 := by
        rw [turns, hd]
        simp only
        rw [setBits, if_neg hne, List.length_cons]
      simp only
      split
      · exact ⟨_, rfl, .inr ⟨(fun he => by cases he), hturns.symm⟩⟩
      · exact ⟨[], rfl, .inr ⟨(fun he => by cases he), hturns.symm⟩⟩

theorem log_step (S : InboxSys P W) (a : InboxAct P) : ∃ l, (S.step a).log = l ++ S.log := by
  by_cases hd : S.drain = none
  · cases a with
    | push p slot =>
      simp only [InboxSys.step]
      split
      · unfold InboxSys.push
        split
        · exact ⟨[_], rfl⟩
        · exact ⟨[], rfl⟩
      · exact ⟨[], rfl⟩
    | flag p =>
      simp only [InboxSys.step]
      split
      · exact ⟨[], rfl⟩
      · exact ⟨[_], rfl⟩
    | drain =>
      simp only [InboxSys.step, hd]
      exact ⟨[_], rfl⟩
    | scan =>
      simp only [InboxSys.step, hd]
      exact ⟨[], rfl⟩
  · obtain ⟨l, hl, -⟩ := turns_step S a hd
    exact ⟨l, hl⟩

theorem log_foldl (acts : List (InboxAct P)) (S : InboxSys P W) :
    ∃ l, (acts.foldl InboxSys.step S).log = l ++ S.log := by
  induction acts generalizing S with
  | nil => exact ⟨[], rfl⟩
  | cons a acts ih =>
    obtain ⟨l₁, h₁⟩ := log_step S a
    obtain ⟨l₂, h₂⟩ := ih (S.step a)
    exact ⟨l₂ ++ l₁, by rw [List.foldl_cons, h₂, h₁, List.append_assoc]⟩

theorem drain_ends (acts : List (InboxAct P)) (S : InboxSys P W) (hd : S.drain ≠ none)
    (hmany : S.turns ≤ acts.countP InboxAct.isScan) :
    ∃ l any, (acts.foldl InboxSys.step S).log = l ++ S.log ∧ .finish any ∈ l := by
  induction acts generalizing S with
  | nil =>
    obtain ⟨d, hd⟩ := Option.ne_none_iff_exists'.mp hd
    rw [turns, hd] at hmany
    exact absurd hmany (Nat.not_succ_le_zero _)
  | cons a acts ih =>
    obtain ⟨l₁, h₁, hnext⟩ := turns_step S a hd
    rw [List.foldl_cons]
    rcases hnext with ⟨any, hfin⟩ | ⟨hd', hturns⟩
    · obtain ⟨l₂, h₂⟩ := log_foldl acts (S.step a)
      refine ⟨l₂ ++ l₁, any, ?_, List.mem_append_right _ hfin⟩
      rw [h₂, h₁, List.append_assoc]
    · rw [List.countP_cons] at hmany
      obtain ⟨l₂, any, h₂, hfin⟩ := ih (S.step a) hd' (by omega)
      refine ⟨l₂ ++ l₁, any, ?_, List.mem_append_left _ hfin⟩
      rw [h₂, h₁, List.append_assoc]

omit [DecidableEq P] in
theorem turns_le (S : InboxSys P W) : S.turns ≤ 65 := by
  unfold turns
  split
  · exact Nat.zero_le _
  · exact Nat.succ_le_succ (length_setBits_le _)

/-- Once a push has completed, the next drain to start and return leaves it reported; no slot is
reported but for a push since its last report; at rest every set bit is flagged; and a drain returns
after at most 65 steps of its own. -/
theorem inbox_loses_nothing (hW : W ≤ 64) (acts : List (InboxAct P)) :
    (∀ p s any l₁ l₂ l₃ l₄ l₅, (run W acts).log =
        l₁ ++ .finish any :: (l₂ ++ .start :: (l₃ ++ .flag p s :: (l₄ ++ .set p s :: l₅))) →
      .report s ∈ l₂ ∨ .report s ∈ l₃ ∨ .report s ∈ l₄) ∧
    (∀ s l₁ l₂, (run W acts).log = l₁ ++ .report s :: l₂ →
      ∃ p l₃ l₄, l₂ = l₃ ++ .set p s :: l₄ ∧ .report s ∉ l₃) ∧
    ((∀ p, (run W acts).pushes p = none) → (run W acts).drain = none →
      ∀ (w : Fin W) (b : Nat), ((run W acts).inbox.words w).getLsbD b = true →
        (run W acts).inbox.summary.getLsbD w = true) ∧
    ∀ acts' : List (InboxAct P), (run W acts).drain ≠ none → 65 ≤ acts'.countP InboxAct.isScan →
      ∃ l any, (run W (acts ++ acts')).log = l ++ (run W acts).log ∧ .finish any ∈ l := by
  have hinv := inv_run hW acts
  refine ⟨fun p s any l₁ l₂ l₃ l₄ l₅ hlog => ?_, fun s l₁ l₂ hlog => ?_, fun hp hd w b hb => ?_,
    fun acts' hd hmany => ?_⟩
  · have hhonest := hinv.honest
    rw [hlog] at hhonest
    by_contra hno
    simp only [not_or] at hno
    obtain ⟨h₂, h₃, h₄⟩ := hno
    have hposted : Posted s (l₄ ++ .set p s :: l₅) := since_iff.mpr ⟨l₄, _, l₅, rfl, h₄, p, rfl⟩
    have hsettled : Settled s (l₃ ++ .flag p s :: (l₄ ++ .set p s :: l₅)) :=
      since_iff.mpr ⟨l₃, _, _, rfl, h₃, ⟨p, rfl⟩, hposted⟩
    exact hhonest.at s (since_iff.mpr ⟨l₂, _, _, rfl, h₂, rfl, hsettled⟩)
  · have hhonest := hinv.honest
    rw [hlog] at hhonest
    obtain ⟨l₃, e, l₄, hl, hno, p, rfl⟩ := since_iff.mp hhonest.at
    exact ⟨p, l₃, l₄, hl, hno⟩
  · have hb64 := BitVec.lt_of_getLsbD hb
    have hdiv : (w * 64 + b) / 64 = w := by omega
    have hmod : (w * 64 + b) % 64 = b := by omega
    have hlt : (w * 64 + b) / 64 < W := by
      rw [hdiv]
      exact w.isLt
    have hqueued : (run W acts).inbox.Queued (w * 64 + b) := by
      refine ⟨hlt, ?_⟩
      have hcell : (⟨(w * 64 + b) / 64, hlt⟩ : Fin W) = w := Fin.ext hdiv
      rw [hcell, hmod]
      exact hb
    rcases hinv.posted _ ((hinv.queued _).mp hqueued) with (hw | ⟨d, hd', -⟩) | ⟨p, slot, hslot, -⟩
    · rwa [hdiv] at hw
    · rw [hd] at hd'
      cases hd'
    · rw [hp] at hslot
      cases hslot
  · rw [run, List.foldl_append]
    exact drain_ends acts' _ hd (Nat.le_trans (turns_le _) hmany)

end InboxSys

/-- Two pushes of slot 3 race a drain of one word, which finds the bit of both. -/
theorem InboxSys.inbox_loses_nothing_race :
    let acts : List (InboxAct Bool) :=
      [.push true 3, .flag true, .drain, .push false 3, .scan, .flag false, .scan]
    (run 1 acts).log = [.finish true, .flag false 3, .report 3, .set false 3, .start, .flag true 3,
      .set true 3] ∧
    (.report 3 ∈ [InboxEvent.flag false 3, .report 3, .set false 3] ∨
      .report 3 ∈ ([] : List (InboxEvent Bool)) ∨ .report 3 ∈ ([] : List (InboxEvent Bool))) := by
  intro acts
  have hlog : (run 1 acts).log =
      [.finish true, .flag false 3, .report 3, .set false 3, .start, .flag true 3,
        .set true 3] := by
    decide +kernel
  exact ⟨hlog, (inbox_loses_nothing (by decide) acts).1 true 3 true [] _ [] [] [] hlog⟩

end VibeOS.Irq
