import VibeOS.Time.ClockInvariant

/-!
The readers' accesses keep the invariant of the clock. An attempt that finds the sequence as it was,
and before the sequence can have come round, had no bump inside. The sequence is a 64-bit number: an
attempt during which it comes round takes words of two writes, so a run is one in which no attempt
lasts that long.
-/
namespace VibeOS.Time

variable {R : Type} {counter : ClocksourceId → Option Counter} {S S' : ClockSys R} {r : R}

section Accesses
variable [DecidableEq R]

theorem Inv.setReader {x : Reader} {raws : List (RawRead R)} (h : Inv counter S)
    (hloaded : Loaded { (S.setReader r x).tick with raws := raws } r x x.pc)
    (htries : x.pc.tries = true → x.bumped ≤ S.bumps.length ∧ x.done ≤ x.bumped / 2 ∧
      x.first ≤ S.time ∧ (x.bumped ≠ S.bumps.length → ∃ b ∈ S.bumps, x.first < b))
    (hcalled : x.pc ≠ .idle → x.done ≤ S.done)
    (hbehind : x.pc.tries = true → ∀ g ∈ S.rets, g.reader = r → g.bumped ≤ x.bumped)
    (hraws : ∀ e ∈ S.raws, e ∈ raws) :
    Inv counter { (S.setReader r x).tick with raws := raws } where
  seq := h.seq
  writer := h.writer
  loaded r' := by
    by_cases hr : r' = r
    · subst hr
      simpa [ClockSys.setReader, ClockSys.tick] using hloaded
    · have hsame : ((S.setReader r x).tick.readers r') = S.readers r' :=
        Function.update_of_ne hr ..
      change Loaded _ r' ((S.setReader r x).tick.readers r') ((S.setReader r x).tick.readers r').pc
      rw [hsame]
      exact (h.loaded r').mono le_rfl (fun ht => (h.tries r' ht).1) (fun _ _ => rfl) hraws
        (Nat.le_succ _)
  tries r' ht := by
    by_cases hr : r' = r
    · subst hr
      simp only [ClockSys.setReader, ClockSys.tick, Function.update_self] at ht ⊢
      obtain ⟨h1, h2, h3, h4⟩ := htries ht
      exact ⟨h1, h2, Nat.lt_succ_of_le h3, h4⟩
    · simp only [ClockSys.setReader, ClockSys.tick, Function.update_of_ne hr] at ht ⊢
      obtain ⟨h1, h2, h3, h4⟩ := h.tries r' ht
      exact ⟨h1, h2, Nat.lt_succ_of_lt h3, h4⟩
  called r' ht := by
    by_cases hr : r' = r
    · subst hr
      simp only [ClockSys.setReader, ClockSys.tick, Function.update_self] at ht ⊢
      exact hcalled ht
    · simp only [ClockSys.setReader, ClockSys.tick, Function.update_of_ne hr] at ht ⊢
      exact h.called r' ht
  past b hb := Nat.lt_succ_of_lt (h.past b hb)
  behind g hg := by
    refine ⟨(h.behind g hg).1, fun ht => ?_⟩
    by_cases hr : g.reader = r
    · simp only [ClockSys.setReader, ClockSys.tick, hr, Function.update_self] at ht ⊢
      exact hbehind ht g hg hr
    · simp only [ClockSys.setReader, ClockSys.tick, Function.update_of_ne hr] at ht ⊢
      exact (h.behind g hg).2 ht
  published := h.published.mono rfl rfl le_rfl (fun _ _ => rfl) hraws fun _ hb => hb

omit [DecidableEq R] in
theorem Inv.copy_eq (h : Inv counter S) {n : Nat} (hn : n = S.bumps.length) :
    S.clock.copy (UInt64.ofNat n) = encode (writeAt S.writes (n / 2)) := by
  rw [hn]
  exact h.writer.named

theorem Inv.goto (h : Inv counter S) {pc : ReaderPc} {raws : List (RawRead R)}
    (ht : (S.readers r).pc.tries = true) (hp : pc ≠ .idle)
    (hraws : ∀ e ∈ S.raws, e ∈ raws)
    (hloaded : Loaded { (S.goto r pc).tick with raws := raws } r (S.readers r) pc) :
    Inv counter { (S.goto r pc).tick with raws := raws } := by
  obtain ⟨h1, h2, h3, h4⟩ := h.tries r ht
  have hc : (S.readers r).pc ≠ .idle := by
    intro hi
    rw [hi] at ht
    cases ht
  refine h.setReader ?_ (fun _ => ⟨h1, h2, h3.le, h4⟩) (fun _ => h.called r hc) ?_ hraws
  · cases pc <;> exact hloaded
  · intro _ g hg hgr
    have := (h.behind g hg).2
    rw [hgr] at this
    exact this ht

theorem Inv.seq1 (h : Inv counter S) (hpc : (S.readers r).pc = .seq1) :
    Inv counter (S.setReader r { S.readers r with
      pc := .load .id S.clock.seq .zero, first := S.time, bumped := S.bumps.length }).tick := by
  have hdone : (S.readers r).done ≤ S.done := h.called r (by rw [hpc]; nofun)
  refine h.setReader ⟨h.seq, fun _ => trivial⟩ (fun _ => ?_) (fun _ => hdone) ?_ fun _ he => he
  · exact ⟨le_rfl, hdone.trans h.writer.bumps.1, le_rfl, fun hne => absurd rfl hne⟩
  · exact fun _ g hg _ => (h.behind g hg).1

theorem Inv.call (h : Inv counter S) (mode : Mode) :
    Inv counter (S.setReader r { S.readers r with mode, pc := .seq1, done := S.done }).tick :=
  h.setReader trivial (fun ht => by cases ht) (fun _ => le_rfl) (fun ht => by cases ht) fun _ he =>
    he

variable {s1 : UInt64} {v : Payload} {raw : Option UInt64}

theorem Inv.retry (h : Inv counter S) (hpc : (S.readers r).pc = .seq2 s1 v raw)
    (hne : s1 ≠ S.clock.seq) :
    Inv counter { (S.goto r .seq1).tick with
      retries := { reader := r, first := (S.readers r).first, last := S.time } :: S.retries } := by
  have hl := h.loaded r
  rw [hpc] at hl
  obtain ⟨h1, h2, h3, h4⟩ := h.tries r (by rw [hpc]; rfl)
  have hbumped : (S.readers r).bumped ≠ S.bumps.length := by
    intro heq
    rw [hl.1, heq, h.seq] at hne
    exact hne rfl
  have hkeep : Inv counter (S.goto r .seq1).tick :=
    h.setReader trivial (fun ht => by cases ht)
      (fun _ => h.called r (by rw [hpc]; nofun)) (fun ht => by cases ht) fun _ he => he
  obtain ⟨b, hb, hlt⟩ := h4 hbumped
  have hp := hkeep.published
  exact { hkeep with
    published := { hp with
      retried := by
        intro a ha
        rcases List.mem_cons.mp ha with rfl | ha
        · exact ⟨b, hb, hlt, h.past b hb⟩
        · exact hp.retried a ha } }

omit [DecidableEq R] in
theorem Inv.answers (h : Inv counter S) (hpc : (S.readers r).pc = .seq2 s1 v raw)
    (heq : (S.readers r).bumped = S.bumps.length) :
    Answers counter S (writeAt S.writes ((S.readers r).bumped / 2))
      { reader := r, out := ClockSys.output counter (S.readers r).mode v raw,
        done := (S.readers r).done, first := (S.readers r).first, last := S.time,
        bumped := (S.readers r).bumped } := by
  have hl := h.loaded r
  rw [hpc] at hl
  obtain ⟨-, hv, hraw⟩ := hl
  have hdec : decode v = writeAt S.writes ((S.readers r).bumped / 2) := by
    rw [hv heq, decode_encode]
  generalize writeAt S.writes ((S.readers r).bumped / 2) = w at hdec ⊢
  unfold Answers ClockSys.output
  cases hm : (S.readers r).mode with
  | read => exact hdec
  | now =>
    cases w with
    | none => simp [hdec]
    | some s =>
      obtain ⟨e, he, h1, h2, h3, h4, h5⟩ := hraw hm s hdec
      refine ⟨e, he, h2, h3, h4, h5, ?_⟩
      simp [hdec, h1]

theorem Inv.ret (h : Inv counter S) (hpc : (S.readers r).pc = .seq2 s1 v raw)
    (hseq : s1 = S.clock.seq) (hprompt : S.bumps.length - (S.readers r).bumped < 2 ^ 64) :
    Inv counter { (S.goto r .idle).tick with
      rets := { reader := r, out := ClockSys.output counter (S.readers r).mode v raw,
                done := (S.readers r).done, first := (S.readers r).first, last := S.time,
                bumped := (S.readers r).bumped } :: S.rets } := by
  have htries : (S.readers r).pc.tries = true := by rw [hpc]; rfl
  obtain ⟨h1, h2, h3, -⟩ := h.tries r htries
  have hl := h.loaded r
  rw [hpc] at hl
  -- Two equal sequence numbers fewer than 2^64 bumps apart have none between them.
  have heq : (S.readers r).bumped = S.bumps.length := by
    have hmod : UInt64.ofNat (S.readers r).bumped = UInt64.ofNat S.bumps.length := by
      rw [← hl.1, hseq, h.seq]
    rw [← UInt64.toNat_inj, UInt64.toNat_ofNat', UInt64.toNat_ofNat'] at hmod
    omega
  have hans := h.answers hpc heq
  have hkeep : Inv counter (S.goto r .idle).tick :=
    h.setReader trivial (fun ht => by cases ht) (fun hi => absurd rfl hi) (fun ht => by cases ht)
      fun _ he => he
  have hp := hkeep.published
  have hreal : (S.readers r).bumped / 2 ≤ S.writes.length := by
    rw [heq]
    exact h.writer.bumps.2
  refine { hkeep with behind := ?_, published := ⟨?_, ?_, ?_, ?_, ?_, hp.retried⟩ }
  · intro g hg
    rcases List.mem_cons.mp hg with rfl | hg
    · refine ⟨h1, fun ht => ?_⟩
      simp [ClockSys.goto, ClockSys.setReader, ClockSys.tick, ReaderPc.tries] at ht
    · exact hkeep.behind g hg
  · intro g hg
    rcases List.mem_cons.mp hg with rfl | hg
    · exact hreal
    · exact hp.real g hg
  · intro g hg
    rcases List.mem_cons.mp hg with rfl | hg
    · exact hans.mono fun _ he => he
    · exact (hp.answers g hg).mono fun _ he => he
  · intro g hg
    rcases List.mem_cons.mp hg with rfl | hg
    · exact h2
    · exact hp.fresh g hg
  · intro g hg hnone
    rcases List.mem_cons.mp hg with rfl | hg
    · -- A write that is there is not the number 0.
      unfold Answers at hans
      rw [hnone] at hans
      have hzero : (S.readers r).bumped / 2 = 0 := by
        cases hk : (S.readers r).bumped / 2 with
        | zero => rfl
        | succ k =>
          rw [hk] at hans hreal
          have := List.getElem?_eq_none_iff.mp hans.symm
          omega
      exact Nat.le_zero.mp (hzero ▸ h2)
    · exact hp.unwritten g hg hnone
  · refine List.pairwise_cons.mpr ⟨fun g hg hr => ?_, hp.order⟩
    have := (h.behind g hg).2
    rw [← hr] at this
    exact Nat.div_le_div_right (this htries)

def ReaderPc.rechecks : ReaderPc → Bool
  | .seq2 _ _ _ => true
  | _ => false

/-- An attempt's second load of the sequence comes before the sequence can have come round. -/
def Prompt (S : ClockSys R) : Act R → Bool
  | .reader r _ => !(S.readers r).pc.rechecks || S.bumps.length - (S.readers r).bumped < 2 ^ 64
  | _ => true

theorem Inv.readerStep (h : Inv counter S) {raw : UInt64}
    (hprompt : Prompt S (.reader r raw) = true) (hs : S.readerStep counter r raw = some S') :
    Inv counter S'.tick := by
  have hl := h.loaded r
  unfold ClockSys.readerStep at hs
  dsimp only at hs
  cases hpc : (S.readers r).pc with
  | idle =>
    rw [hpc] at hs
    cases hs
  | seq1 =>
    rw [hpc] at hs
    cases hs
    exact h.seq1 hpc
  | load w s1 v =>
    have ht : (S.readers r).pc.tries = true := by rw [hpc]; rfl
    rw [hpc] at hs hl
    obtain ⟨rfl, hv⟩ := hl
    cases w with
    | id =>
      cases hs
      refine h.goto ht (by nofun) (fun _ he => he) ⟨rfl, fun heq => ?_⟩
      rw [h.copy_eq heq]
      rfl
    | cycles =>
      cases hs
      refine h.goto ht (by nofun) (fun _ he => he) ⟨rfl, fun heq => ?_⟩
      rw [h.copy_eq heq]
      exact (hv heq).cycles
    | ns =>
      have hwhole : (S.readers r).bumped = S.bumps.length →
          v.set .ns (S.clock.copy (UInt64.ofNat (S.readers r).bumped)).ns =
            encode (writeAt S.writes ((S.readers r).bumped / 2)) := by
        intro heq
        rw [h.copy_eq heq]
        exact (hv heq).whole
      dsimp only at hs
      split at hs
      · rename_i s hm hdec
        cases hs
        exact h.goto ht (by nofun) (fun _ he => he) ⟨rfl, hm, hdec, hwhole⟩
      · rename_i hno
        cases hs
        refine h.goto ht (by nofun) (fun _ he => he) ⟨rfl, hwhole, fun hm s hs => ?_⟩
        exact absurd hs (hno s hm)
  | raw s1 v s =>
    have ht : (S.readers r).pc.tries = true := by rw [hpc]; rfl
    rw [hpc] at hs hl
    obtain ⟨rfl, hm, hdec, hv⟩ := hl
    cases hs
    refine h.goto ht (by nofun) (fun _ he => List.mem_cons_of_mem _ he)
      ⟨rfl, hv, fun _ s' hs' => ?_⟩
    rw [hdec] at hs'
    cases hs'
    exact ⟨_, List.mem_cons_self, rfl, rfl, rfl, (h.tries r ht).2.2.1, Nat.lt_succ_self _⟩
  | seq2 s1 v raw' =>
    rw [hpc] at hs
    dsimp only at hs
    split at hs
    · rename_i hseq
      cases hs
      refine h.ret hpc hseq ?_
      simpa [Prompt, hpc, ReaderPc.rechecks] using hprompt
    · rename_i hne
      cases hs
      exact h.retry hpc hne

end Accesses

theorem inv_init : Inv counter (ClockSys.init : ClockSys R) where
  seq := rfl
  writer := ⟨rfl, rfl, rfl, rfl⟩
  loaded _ := trivial
  tries _ ht := by cases ht
  called _ hc := absurd rfl hc
  past _ hb := by cases hb
  behind _ hg := by cases hg
  published := ⟨nofun, nofun, nofun, nofun, .nil, nofun⟩

section Runs

variable [DecidableEq R]

theorem Inv.step (h : Inv counter S) {a : Act R} (hprompt : Prompt S a = true)
    (hs : S.step counter a = some S') : Inv counter S' := by
  cases a with
  | write s =>
    simp only [ClockSys.step] at hs
    split at hs
    · rename_i hidle
      cases hs
      exact h.write hidle s
    · cases hs
  | writer =>
    obtain ⟨S₁, hs₁, rfl⟩ := Option.map_eq_some_iff.mp hs
    exact h.writerStep hs₁
  | call r mode =>
    simp only [ClockSys.step] at hs
    split at hs
    · cases hs
      exact h.call mode
    · cases hs
  | reader r raw =>
    obtain ⟨S₁, hs₁, rfl⟩ := Option.map_eq_some_iff.mp hs
    exact h.readerStep hprompt hs₁

/-- The states an interleaving of the writer's and the readers' accesses can come to, each step
meeting `ok`. -/
inductive Reach (counter : ClocksourceId → Option Counter) (ok : ClockSys R → Act R → Bool) :
    ClockSys R → Prop
  | init : Reach counter ok .init
  | step {S S' : ClockSys R} {a : Act R} : Reach counter ok S → ok S a = true →
      S.step counter a = some S' → Reach counter ok S'

theorem Reach.inv (h : Reach counter Prompt S) : Inv counter S := by
  induction h with
  | init => exact inv_init
  | step _ hok hs ih => exact ih.step hok hs

/-- Every call returns what one write published, no older than the writes complete when it
began nor than what the same reader got before, and only a bump makes an attempt repeat. -/
theorem clock_published (h : Reach counter Prompt S) : ∃ which, Published counter S which :=
  ⟨_, h.inv.published⟩

/-- The accesses of `acts` one after the other, each meeting `ok`. -/
def ClockSys.play (counter : ClocksourceId → Option Counter) (ok : ClockSys R → Act R → Bool) :
    List (Act R) → ClockSys R → Option (ClockSys R)
  | [], S => some S
  | a :: acts, S => if ok S a then (S.step counter a).bind (play counter ok acts) else none

theorem Reach.play {ok : ClockSys R → Act R → Bool} {acts : List (Act R)} (h : Reach counter ok S)
    (hs : S.play counter ok acts = some S') : Reach counter ok S' := by
  induction acts generalizing S with
  | nil =>
    cases hs
    exact h
  | cons a acts ih =>
    unfold ClockSys.play at hs
    split at hs
    · rename_i hok
      obtain ⟨S₁, hs₁, hs⟩ := Option.bind_eq_some_iff.mp hs
      exact ih (.step h hok hs₁) hs
    · cases hs

variable (counter)

/-- The accesses of a whole write. -/
theorem play_write (hidle : S.writer = .idle) (s : Snapshot) : ∃ S',
    S.play counter (fun _ _ => true) (.write s :: List.replicate 8 .writer) = some S' ∧
      S'.writer = .idle ∧ S'.readers = S.readers ∧ S'.rets = S.rets ∧ S'.writes = S.writes ++ [s] ∧
      S'.clock = { seq := S.clock.seq + 1 + 1, copy0 := s.words, copy1 := s.words } := by
  simp only [List.replicate, ClockSys.play, ClockSys.step, hidle, if_true, Option.bind_some,
    ClockSys.writerStep, Option.map_some]
  exact ⟨_, rfl, rfl, rfl, rfl, rfl, rfl⟩

/-- A call of `read` up to its third word. -/
theorem play_call (hidle : (S.readers r).pc = .idle) : ∃ S',
    S.play counter (fun _ _ => true) (.call r .read :: List.replicate 3 (.reader r 0)) = some S' ∧
      S'.writer = S.writer ∧ S'.rets = S.rets ∧ S'.writes = S.writes ∧ S'.clock = S.clock ∧
      (S'.readers r).mode = .read ∧
      (S'.readers r).pc = .load .ns S.clock.seq
        { (S.clock.copy S.clock.seq) with ns := 0 } := by
  simp only [List.replicate, ClockSys.play, ClockSys.step, hidle, if_true, Option.bind_some,
    ClockSys.readerStep, ClockSys.setReader, ClockSys.goto, ClockSys.tick, Function.update_self,
    Option.map_some]
  refine ⟨_, rfl, rfl, rfl, rfl, rfl, ?_⟩
  simp [Payload.set, Payload.zero]

/-- The third word and the end of the call, with the sequence as it was at the start. -/
theorem play_return {v : Payload} (hmode : (S.readers r).mode = .read)
    (hpc : (S.readers r).pc = .load .ns S.clock.seq v) : ∃ S' g,
    S.play counter (fun _ _ => true) (List.replicate 2 (.reader r 0)) = some S' ∧
      S'.writes = S.writes ∧ S'.rets = g :: S.rets ∧
      g.out = .snap (decode { v with ns := (S.clock.copy S.clock.seq).ns }) := by
  simp only [List.replicate, ClockSys.play, ClockSys.step, hmode, hpc, if_true, Option.bind_some,
    ClockSys.readerStep, ClockSys.setReader, ClockSys.goto, ClockSys.tick, Function.update_self,
    Option.map_some]
  exact ⟨_, _, rfl, rfl, rfl, rfl⟩

variable {counter}

theorem Reach.write (h : Reach counter (fun _ _ => true) S) (hidle : S.writer = .idle)
    (s : Snapshot) : ∃ S', Reach counter (fun _ _ => true) S' ∧ S'.writer = .idle ∧
      S'.readers = S.readers ∧ S'.rets = S.rets ∧ S'.writes = S.writes ++ [s] ∧
      S'.clock = { seq := S.clock.seq + 1 + 1, copy0 := s.words, copy1 := s.words } := by
  obtain ⟨S', hplay, hS'⟩ := play_write counter hidle s
  exact ⟨S', h.play hplay, hS'⟩

theorem Reach.writes (h : Reach counter (fun _ _ => true) S) (hidle : S.writer = .idle)
    (s : Snapshot) (n : Nat) : ∃ S', Reach counter (fun _ _ => true) S' ∧ S'.writer = .idle ∧
      S'.readers = S.readers ∧ S'.rets = S.rets ∧
      S'.writes = S.writes ++ List.replicate (n + 1) s ∧
      S'.clock = { seq := S.clock.seq + UInt64.ofNat (2 * (n + 1)), copy0 := s.words,
                   copy1 := s.words } := by
  induction n with
  | zero =>
    obtain ⟨S', h', h1, h2, h3, h4, h5⟩ := h.write hidle s
    exact ⟨S', h', h1, h2, h3, h4, by rw [h5, UInt64.add_assoc]; rfl⟩
  | succ n ih =>
    obtain ⟨S₁, h₁, h1, h2, h3, h4, h5⟩ := ih
    obtain ⟨S', h', h1', h2', h3', h4', h5'⟩ := h₁.write h1 s
    refine ⟨S', h', h1', h2'.trans h2, h3'.trans h3, ?_, ?_⟩
    · rw [h4', h4, List.append_assoc, ← List.replicate_succ']
    · rw [h5', h5, Nat.mul_succ 2 (n + 1), UInt64.ofNat_add, ← UInt64.add_assoc,
        UInt64.add_assoc _ 1 1]
      rfl

end Runs

/-- A reader that calls once during the second write and gets the first. -/
theorem clock_published_duringWrite : ∃ S : ClockSys Unit, Reach (fun _ => none) Prompt S ∧
    S.rets.map (fun g => (g.out, g.done)) = [(.snap (some ⟨.tsc, 5, 7⟩), 1)] ∧
    ∃ which, Published (fun _ => none) S which := by
  have hrun : ((ClockSys.init : ClockSys Unit).play (fun _ => none) Prompt
      (.write ⟨.tsc, 5, 7⟩ :: List.replicate 8 .writer ++
        .write ⟨.hpet, 6, 8⟩ :: .writer :: .call () .read ::
        List.replicate 5 (.reader () 0))).isSome := by
    decide +kernel
  obtain ⟨S, hS⟩ := Option.isSome_iff_exists.mp hrun
  have hreach : Reach (fun _ => none) Prompt S := Reach.init.play hS
  refine ⟨S, hreach, ?_, clock_published hreach⟩
  have hout : ((ClockSys.init : ClockSys Unit).play (fun _ => none) Prompt
      (.write ⟨.tsc, 5, 7⟩ :: List.replicate 8 .writer ++
        .write ⟨.hpet, 6, 8⟩ :: .writer :: .call () .read ::
          List.replicate 5 (.reader () 0))).map (fun S => S.rets.map fun g => (g.out, g.done)) =
      some [(.snap (some ⟨.tsc, 5, 7⟩), 1)] := by
    decide +kernel
  rw [hS] at hout
  exact Option.some.inj hout

section Mix

private def early : Snapshot := { id := .tsc, cycles := 0, ns := 0 }

private def late : Snapshot := { id := .hpet, cycles := 0, ns := 1 }

private abbrev Free (S : ClockSys Unit) : Prop := Reach (fun _ => none) (fun _ _ => true) S

/-- A reader has loaded two words of the first write. -/
private theorem reach_twoWords : ∃ S, Free S ∧ S.writer = .idle ∧ S.writes = [early] ∧
    S.clock.seq = 2 ∧ (S.readers ()).mode = .read ∧
    (S.readers ()).pc = .load .ns 2 { id := 1, cycles := 0, ns := 0 } := by
  obtain ⟨S, h, hi, hr, -, hw, hc⟩ := (Reach.init : Free .init).write rfl early
  have hseq : S.clock.seq = 2 := by rw [hc]; rfl
  obtain ⟨S', hplay, hi', -, hw', hc', hmode, hpc⟩ :=
    play_call (fun _ => none) (r := ()) (by rw [hr]; rfl : (S.readers ()).pc = .idle)
  rw [hseq, hc] at hpc
  exact ⟨S', h.play hplay, hi'.trans hi, hw'.trans hw, hc' ▸ hseq, hmode, hpc⟩

/-- It goes on once the sequence has come round, and takes the third word of another write. -/
theorem clock_mixes : ∃ S : ClockSys Unit, Reach (fun _ => none) (fun _ _ => true) S ∧
    ∃ g ∈ S.rets, ∃ v, g.out = .snap (some v) ∧ v ∉ S.writes := by
  obtain ⟨S₁, h₁, hi₁, hw₁, hs₁, hm₁, hp₁⟩ := reach_twoWords
  obtain ⟨n, hn⟩ : ∃ n, 2 * (n + 1) = 2 ^ 64 := ⟨2 ^ 63 - 1, by norm_num⟩
  obtain ⟨S, h, -, hr, -, hw, hc⟩ := h₁.writes hi₁ late n
  have hseq : S.clock.seq = 2 := by
    rw [hc, hs₁, hn]
    decide
  obtain ⟨S', g, hplay, hw', hg, hout⟩ := play_return (fun _ => none) (r := ())
    (hr ▸ hm₁ : (S.readers ()).mode = .read) (hseq ▸ hr ▸ hp₁)
  rw [hseq, hc] at hout
  refine ⟨S', h.play hplay, g, hg ▸ List.mem_cons_self, ⟨.tsc, 0, 1⟩, hout, ?_⟩
  rw [hw', hw, hw₁, List.mem_append, List.mem_replicate, List.mem_singleton]
  simp [early, late]

end Mix

end VibeOS.Time
