import Mathlib.Data.Nat.Basic
import Mathlib.Order.Basic
import Mathlib.Tactic.NormNum.Pow
import VibeOS.Time.TickClock

/-!
What the readers of the clock get. The copy the sequence names holds the last write whose copy
is complete, and nobody stores to it while the sequence stays; so an attempt whose two loads of
the sequence have no bump between them takes the words of one snapshot. The writer's accesses keep
that: a bump ends every attempt under way, and a store goes to the copy no attempt reads.
-/
namespace VibeOS.Time

variable {R : Type}

/-- The write number `k`, none for 0. -/
def writeAt (writes : List Snapshot) (k : Nat) : Option Snapshot :=
  match k with
  | 0 => none
  | k + 1 => writes[k]?

def encode : Option Snapshot → Payload
  | none => .zero
  | some s => s.words

theorem decode_encode (s : Option Snapshot) : decode (encode s) = s := by
  cases s with
  | none => rfl
  | some s => simp [decode, encode, Snapshot.words, ClocksourceId.fromU64_toU64]

theorem writeAt_append {writes : List Snapshot} {k : Nat} (h : k ≤ writes.length) (s : Snapshot) :
    writeAt (writes ++ [s]) k = writeAt writes k := by
  cases k with
  | zero => rfl
  | succ k => exact List.getElem?_append_left h

/-- The words of `p` before `w` are those of `q`. -/
def Payload.UpTo (w : Word) (p q : Payload) : Prop :=
  match w with
  | .id => True
  | .cycles => p.id = q.id
  | .ns => p.id = q.id ∧ p.cycles = q.cycles

/-- The writer's place against the bumps and the copies. -/
def WriterAt (S : ClockSys R) : Prop :=
  match S.writer with
  | .idle =>
    S.bumps.length = 2 * S.done ∧ S.writes.length = S.done ∧
    S.clock.copy0 = encode (writeAt S.writes S.done) ∧
    S.clock.copy1 = encode (writeAt S.writes S.done)
  | .bump false s =>
    S.bumps.length = 2 * S.done ∧ S.writes.length = S.done + 1 ∧
    writeAt S.writes (S.done + 1) = some s ∧
    S.clock.copy0 = encode (writeAt S.writes S.done) ∧
    S.clock.copy1 = encode (writeAt S.writes S.done)
  | .store false w s =>
    S.bumps.length = 2 * S.done + 1 ∧ S.writes.length = S.done + 1 ∧
    writeAt S.writes (S.done + 1) = some s ∧ S.clock.copy0.UpTo w s.words ∧
    S.clock.copy1 = encode (writeAt S.writes S.done)
  | .bump true s =>
    S.bumps.length = 2 * S.done + 1 ∧ S.writes.length = S.done + 1 ∧
    writeAt S.writes (S.done + 1) = some s ∧ S.clock.copy0 = s.words ∧
    S.clock.copy1 = encode (writeAt S.writes S.done)
  | .store true w s =>
    S.bumps.length = 2 * S.done + 2 ∧ S.writes.length = S.done + 1 ∧
    writeAt S.writes (S.done + 1) = some s ∧ S.clock.copy0 = s.words ∧
    S.clock.copy1.UpTo w s.words

/-- The words a reader has loaded in its attempt are those of one snapshot, when no bump has
come since. -/
def Loaded (S : ClockSys R) (r : R) (x : Reader) : ReaderPc → Prop
  | .idle | .seq1 => True
  | .load w s1 v =>
    s1 = UInt64.ofNat x.bumped ∧
    (x.bumped = S.bumps.length → v.UpTo w (encode (writeAt S.writes (x.bumped / 2))))
  | .raw s1 v s =>
    s1 = UInt64.ofNat x.bumped ∧ x.mode = .now ∧ decode v = some s ∧
    (x.bumped = S.bumps.length → v = encode (writeAt S.writes (x.bumped / 2)))
  | .seq2 s1 v raw =>
    s1 = UInt64.ofNat x.bumped ∧
    (x.bumped = S.bumps.length → v = encode (writeAt S.writes (x.bumped / 2))) ∧
    (x.mode = .now → ∀ s, decode v = some s → ∃ e ∈ S.raws, raw = some e.value ∧
      e.reader = r ∧ e.id = s.id ∧ x.first < e.time ∧ e.time < S.time)

/-- The reader is inside an attempt. -/
def ReaderPc.tries : ReaderPc → Bool
  | .idle | .seq1 => false
  | _ => true

/-- What a call may return when it shows the write `w`. -/
def Answers (counter : ClocksourceId → Option Counter) (S : ClockSys R) (w : Option Snapshot)
    (g : Ret R) : Prop :=
  match g.out with
  | .snap v => v = w
  | .ns x =>
    match w with
    | none => x = 0
    | some s => ∃ e ∈ S.raws, e.reader = g.reader ∧ e.id = s.id ∧ g.first < e.time ∧
        e.time < g.last ∧ x = (counter s.id).elim s.ns fun c => nsAt s c e.value

/-- `which` names, for each call that returned, the write it shows: no older than the writes
that were complete when the call began, nor than the one the same reader got before. -/
structure Published (counter : ClocksourceId → Option Counter) (S : ClockSys R)
    (which : Ret R → Nat) : Prop where
  real : ∀ g ∈ S.rets, which g ≤ S.writes.length
  answers : ∀ g ∈ S.rets, Answers counter S (writeAt S.writes (which g)) g
  fresh : ∀ g ∈ S.rets, g.done ≤ which g
  unwritten : ∀ g ∈ S.rets, g.out = .snap none → g.done = 0
  order : S.rets.Pairwise fun g g' => g.reader = g'.reader → which g' ≤ which g
  retried : ∀ a ∈ S.retries, ∃ b ∈ S.bumps, a.first < b ∧ b < a.last

structure Inv (counter : ClocksourceId → Option Counter) (S : ClockSys R) : Prop where
  seq : S.clock.seq = UInt64.ofNat S.bumps.length
  writer : WriterAt S
  loaded : ∀ r, Loaded S r (S.readers r) (S.readers r).pc
  tries : ∀ r, (S.readers r).pc.tries = true → (S.readers r).bumped ≤ S.bumps.length ∧
    (S.readers r).done ≤ (S.readers r).bumped / 2 ∧ (S.readers r).first < S.time ∧
    ((S.readers r).bumped ≠ S.bumps.length → ∃ b ∈ S.bumps, (S.readers r).first < b)
  called : ∀ r, (S.readers r).pc ≠ .idle → (S.readers r).done ≤ S.done
  past : ∀ b ∈ S.bumps, b < S.time
  behind : ∀ g ∈ S.rets, g.bumped ≤ S.bumps.length ∧
    ((S.readers g.reader).pc.tries = true → g.bumped ≤ (S.readers g.reader).bumped)
  published : Published counter S fun g => g.bumped / 2

theorem and_one_eq_zero (n : Nat) : UInt64.ofNat n &&& 1 = 0 ↔ n % 2 = 0 := by
  rw [← UInt64.toNat_inj, UInt64.toNat_and, UInt64.toNat_ofNat', UInt64.toNat_one,
    UInt64.toNat_zero, Nat.and_one_is_mod]
  omega

theorem WriterAt.bumps {S : ClockSys R} (h : WriterAt S) :
    S.done ≤ S.bumps.length / 2 ∧ S.bumps.length / 2 ≤ S.writes.length := by
  unfold WriterAt at h
  split at h <;> omega

theorem WriterAt.named {S : ClockSys R} (h : WriterAt S) :
    S.clock.copy (UInt64.ofNat S.bumps.length) =
      encode (writeAt S.writes (S.bumps.length / 2)) := by
  unfold WriterAt at h
  unfold TickClock.copy
  simp only [and_one_eq_zero]
  split at h
  · rw [if_pos (by omega), h.2.2.1, show S.bumps.length / 2 = S.done by omega]
  · rw [if_pos (by omega), h.2.2.2.1, show S.bumps.length / 2 = S.done by omega]
  · rw [if_neg (by omega), h.2.2.2.2, show S.bumps.length / 2 = S.done by omega]
  · rw [if_neg (by omega), h.2.2.2.2, show S.bumps.length / 2 = S.done by omega]
  · rw [if_pos (by omega), h.2.2.2.1, show S.bumps.length / 2 = S.done + 1 by omega, h.2.2.1]
    rfl

variable {counter : ClocksourceId → Option Counter} {S S' : ClockSys R} {r : R}

theorem Loaded.mono {x : Reader} {pc : ReaderPc} (h : Loaded S r x pc)
    (hlen : S.bumps.length ≤ S'.bumps.length)
    (htry : pc.tries = true → x.bumped ≤ S.bumps.length)
    (hw : ∀ k, k ≤ S.bumps.length / 2 → writeAt S'.writes k = writeAt S.writes k)
    (hraws : ∀ e ∈ S.raws, e ∈ S'.raws) (ht : S.time ≤ S'.time) : Loaded S' r x pc := by
  have hsame : pc.tries = true → x.bumped = S'.bumps.length → x.bumped = S.bumps.length ∧
      writeAt S'.writes (x.bumped / 2) = writeAt S.writes (x.bumped / 2) := by
    intro hp heq
    have hle := htry hp
    exact ⟨by omega, hw _ (by omega)⟩
  cases pc with
  | idle => trivial
  | seq1 => trivial
  | load w s1 v =>
    refine ⟨h.1, fun heq => ?_⟩
    obtain ⟨h1, h2⟩ := hsame rfl heq
    rw [h2]
    exact h.2 h1
  | raw s1 v s =>
    refine ⟨h.1, h.2.1, h.2.2.1, fun heq => ?_⟩
    obtain ⟨h1, h2⟩ := hsame rfl heq
    rw [h2]
    exact h.2.2.2 h1
  | seq2 s1 v raw =>
    refine ⟨h.1, fun heq => ?_, fun hm s hs => ?_⟩
    · obtain ⟨h1, h2⟩ := hsame rfl heq
      rw [h2]
      exact h.2.1 h1
    · obtain ⟨e, he, h1, h2, h3, h4, h5⟩ := h.2.2 hm s hs
      exact ⟨e, hraws e he, h1, h2, h3, h4, Nat.lt_of_lt_of_le h5 ht⟩

theorem Answers.mono {w : Option Snapshot} {g : Ret R} (h : Answers counter S w g)
    (hraws : ∀ e ∈ S.raws, e ∈ S'.raws) : Answers counter S' w g := by
  unfold Answers at *
  cases hg : g.out with
  | snap v =>
    rw [hg] at h
    exact h
  | ns x =>
    rw [hg] at h
    cases w with
    | none => exact h
    | some s =>
      obtain ⟨e, he, hrest⟩ := h
      exact ⟨e, hraws e he, hrest⟩

theorem Published.mono {which : Ret R → Nat} (h : Published counter S which)
    (hrets : S'.rets = S.rets) (hretries : S'.retries = S.retries)
    (hlen : S.writes.length ≤ S'.writes.length)
    (hw : ∀ k, k ≤ S.writes.length → writeAt S'.writes k = writeAt S.writes k)
    (hraws : ∀ e ∈ S.raws, e ∈ S'.raws) (hbumps : ∀ b ∈ S.bumps, b ∈ S'.bumps) :
    Published counter S' which where
  real g hg := by
    rw [hrets] at hg
    exact (h.real g hg).trans hlen
  answers g hg := by
    rw [hrets] at hg
    rw [hw _ (h.real g hg)]
    exact (h.answers g hg).mono hraws
  fresh g hg := by
    rw [hrets] at hg
    exact h.fresh g hg
  unwritten g hg := by
    rw [hrets] at hg
    exact h.unwritten g hg
  order := by
    rw [hrets]
    exact h.order
  retried a ha := by
    rw [hretries] at ha
    obtain ⟨b, hb, hlt⟩ := h.retried a ha
    exact ⟨b, hbumps b hb, hlt⟩

/-- A step of the writer, which may bump the sequence. -/
theorem Inv.writerMoves (h : Inv counter S) (hseq : S'.clock.seq = UInt64.ofNat S'.bumps.length)
    (hbumps : S'.bumps = S.bumps ∨ S'.bumps = S.time :: S.bumps) (hwriter : WriterAt S')
    (hreaders : S'.readers = S.readers) (hlen : S.writes.length ≤ S'.writes.length)
    (hw : ∀ k, k ≤ S.writes.length → writeAt S'.writes k = writeAt S.writes k)
    (hdone : S.done ≤ S'.done) (hraws : S'.raws = S.raws) (hrets : S'.rets = S.rets)
    (hretries : S'.retries = S.retries) (htime : S'.time = S.time + 1) : Inv counter S' := by
  have hmem : ∀ b ∈ S.bumps, b ∈ S'.bumps := by
    rcases hbumps with hb | hb <;> simp +contextual [hb]
  have hle : S.bumps.length ≤ S'.bumps.length := by
    rcases hbumps with hb | hb <;> simp [hb]
  refine ⟨hseq, hwriter, fun r => ?_, fun r ht => ?_, fun r hr => ?_, fun b hb => ?_,
    fun g hg => ?_, h.published.mono hrets hretries hlen hw (fun e he => by rwa [hraws]) hmem⟩
  · rw [hreaders]
    exact (h.loaded r).mono hle (fun ht => (h.tries r ht).1)
      (fun k hk => hw k (hk.trans h.writer.bumps.2)) (fun e he => by rwa [hraws]) (by omega)
  · rw [hreaders] at ht ⊢
    obtain ⟨h1, h2, h3, h4⟩ := h.tries r ht
    refine ⟨h1.trans hle, h2, by omega, ?_⟩
    rcases hbumps with hb | hb <;> rw [hb]
    · exact h4
    · exact fun _ => ⟨S.time, List.mem_cons_self, h3⟩
  · rw [hreaders] at hr ⊢
    exact (h.called r hr).trans hdone
  · have hb : b ∈ S.bumps ∨ b = S.time := by
      rcases hbumps with hb' | hb' <;> simp_all [or_comm]
    rcases hb with hb | rfl
    · have := h.past b hb
      omega
    · omega
  · rw [hrets] at hg
    rw [hreaders]
    exact ⟨(h.behind g hg).1.trans hle, (h.behind g hg).2⟩

theorem Payload.UpTo.whole {p q : Payload} (h : p.UpTo .ns q) : p.set .ns (q.get .ns) = q := by
  obtain ⟨h1, h2⟩ := h
  cases p
  cases q
  simp_all [Payload.set, Payload.get]

theorem Payload.UpTo.cycles {p q : Payload} (h : p.UpTo .cycles q) :
    (p.set .cycles (q.get .cycles)).UpTo .ns q :=
  ⟨h, rfl⟩

theorem Inv.writerStep (h : Inv counter S) (hs : S.writerStep = some S') :
    Inv counter S'.tick := by
  have hw := h.writer
  unfold WriterAt at hw
  unfold ClockSys.writerStep at hs
  cases hpc : S.writer with
  | idle =>
    rw [hpc] at hs
    cases hs
  | bump second s =>
    rw [hpc] at hs hw
    cases hs
    have hseq : S.clock.seq + 1 = UInt64.ofNat (S.time :: S.bumps).length := by
      rw [h.seq, List.length_cons, UInt64.ofNat_add]
      rfl
    cases second with
    | false =>
      obtain ⟨h1, h2, h3, h4, h5⟩ := hw
      refine h.writerMoves hseq (.inr rfl) ?_ rfl le_rfl (fun _ _ => rfl) le_rfl rfl rfl rfl rfl
      exact ⟨by simp [ClockSys.tick, ClockSys.bump, h1], h2, h3, trivial, h5⟩
    | true =>
      obtain ⟨h1, h2, h3, h4, h5⟩ := hw
      refine h.writerMoves hseq (.inr rfl) ?_ rfl le_rfl (fun _ _ => rfl) le_rfl rfl rfl rfl rfl
      exact ⟨by simp [ClockSys.tick, ClockSys.bump, h1], h2, h3, h4, trivial⟩
  | store second w s =>
    rw [hpc] at hs hw
    cases second with
    | false =>
      obtain ⟨h1, h2, h3, h4, h5⟩ := hw
      cases w <;> cases hs <;>
        refine h.writerMoves h.seq (.inl rfl) ?_ rfl le_rfl (fun _ _ => rfl) le_rfl rfl rfl rfl rfl
      · exact ⟨h1, h2, h3, rfl, h5⟩
      · exact ⟨h1, h2, h3, h4.cycles, h5⟩
      · exact ⟨h1, h2, h3, h4.whole, h5⟩
    | true =>
      obtain ⟨h1, h2, h3, h4, h5⟩ := hw
      cases w <;> cases hs <;>
        refine h.writerMoves h.seq (.inl rfl) ?_ rfl le_rfl (fun _ _ => rfl) ?_ rfl rfl rfl rfl
      · exact ⟨h1, h2, h3, h4, rfl⟩
      · exact le_rfl
      · exact ⟨h1, h2, h3, h4, h5.cycles⟩
      · exact le_rfl
      · have henc : s.words = encode (writeAt S.writes (S.done + 1)) := by rw [h3]; rfl
        exact ⟨by change S.bumps.length = 2 * (S.done + 1); omega, h2, h4.trans henc,
          h5.whole.trans henc⟩
      · exact Nat.le_succ _

theorem Inv.write (h : Inv counter S) (hidle : S.writer = .idle) (s : Snapshot) :
    Inv counter
      { S with writer := .bump false s, writes := S.writes ++ [s], time := S.time + 1 } := by
  have hw := h.writer
  unfold WriterAt at hw
  rw [hidle] at hw
  obtain ⟨h1, h2, h3, h4⟩ := hw
  have hkeep : ∀ k, k ≤ S.writes.length → writeAt (S.writes ++ [s]) k = writeAt S.writes k :=
    fun k hk => writeAt_append hk s
  refine h.writerMoves h.seq (.inl rfl) ?_ rfl (by simp) hkeep le_rfl rfl rfl rfl rfl
  refine ⟨h1, by simp [h2], ?_, ?_, ?_⟩
  · change (S.writes ++ [s])[S.done]? = some s
    rw [← h2, List.getElem?_concat_length]
  · change S.clock.copy0 = encode (writeAt (S.writes ++ [s]) S.done)
    rw [hkeep _ h2.ge, h3]
  · change S.clock.copy1 = encode (writeAt (S.writes ++ [s]) S.done)
    rw [hkeep _ h2.ge, h4]

end VibeOS.Time
