import Mathlib.Data.List.Basic
import VibeOS.Log.TraceRing

/-!
What the ring holds at every point of every interleaving. A slot has the last record pushed to it,
whole, unless the push that rewrites it has cleared its `seq` and not yet stored it. So while a slot
has the `seq` of a position its fields are those of that record, and a reader that found that `seq`
twice loaded them in between.
-/
namespace VibeOS.Log
namespace TraceSys
variable {R : Type} {N : Nat} {S : TraceSys R N}

theorem recordAt_append (e : TraceEntry) {q : Nat} (h : q < S.pushed.length) :
    { S with pushed := S.pushed ++ [e] }.recordAt q = S.recordAt q := by
  unfold recordAt
  rw [List.getElem?_append_left h]

theorem recordAt_last (e : TraceEntry) :
    { S with pushed := S.pushed ++ [e] }.recordAt S.pushed.length =
      some (e.record (.ofNat S.pushed.length)) := by
  unfold recordAt
  rw [List.getElem?_concat_length]
  rfl

theorem recordAt_some {q : Nat} {x : RecordData} (h : S.recordAt q = some x) :
    q < S.pushed.length ∧ x.seq = .ofNat q + 1 ∧ (TraceEvent.fromU32 x.event).isSome = true := by
  obtain ⟨e, he, rfl⟩ := Option.map_eq_some_iff.mp h
  refine ⟨(List.getElem?_eq_some_iff.mp he).1, rfl, ?_⟩
  change (TraceEvent.fromU32 e.event.asU32).isSome = true
  rw [TraceEvent.fromU32_asU32]
  rfl

/-- The push in progress has cleared the `seq` of its slot and not stored it. -/
def Torn (S : TraceSys R N) (p : Pushing N) : Prop :=
  S.pusher = some p ∧ p.pc ≠ .head

/-- The data a reader has, while the slot still has the `seq` it found, is that of the record. -/
structure Reads (S : TraceSys R N) (g : Reading N) : Prop where
  slot : g.slot.val = g.pos.toNat % N
  data : g.data.seq = g.pos + 1 → g.data.seq ≠ 0 →
    (∀ p, S.Torn p → p.pos ≠ g.pos) ∧ ∃ x, S.recordAt g.pos.toNat = some x ∧
      ((S.ring.slots g.slot).seq = g.data.seq → x.fill g.data g.todo = x)

structure Inv (S : TraceSys R N) : Prop where
  head : S.pusher = none → S.ring.head.toNat = S.pushed.length
  pushing : ∀ p, S.pusher = some p → S.ring.head = p.pos ∧ p.pos.toNat + 1 = S.pushed.length ∧
    p.slot.val = p.pos.toNat % N ∧ S.recordAt p.pos.toNat = some p.whole
  torn : ∀ p, S.Torn p → (S.ring.slots p.slot).seq = 0
  todo : ∀ p todo, S.pusher = some p → p.pc = .fields todo →
    p.whole.fill { S.ring.slots p.slot with seq := p.pos + 1 } todo = p.whole
  slots : ∀ i : Fin N, (∀ p, S.Torn p → p.slot ≠ i) →
    (S.pushed.length ≤ i ∧ (S.ring.slots i).seq = 0) ∨
      ∃ q < S.pushed.length, S.pushed.length ≤ q + N ∧ q % N = i ∧
        S.recordAt q = some (S.ring.slots i)
  readers : ∀ r g, S.readers r = some g → S.Reads g
  returned : ∀ y ∈ S.returned, S.recordAt y.1.toNat = some y.2

theorem Inv.init : Inv (TraceSys.init : TraceSys R N) := by
  refine ⟨fun _ => rfl, nofun, fun p hp => ?_, nofun, fun i _ => .inl ⟨Nat.zero_le _, rfl⟩,
    nofun, nofun⟩
  cases hp.1

theorem eq_of_mod_eq {q q' : Nat} (h : q % N = q' % N) (h₁ : q' < q + N) (h₂ : q < q' + N) :
    q = q' := by
  rcases Nat.le_total q q' with hle | hle
  · have hz := Nat.sub_mod_eq_zero_of_mod_eq h.symm
    rw [Nat.mod_eq_of_lt (by omega)] at hz
    omega
  · have hz := Nat.sub_mod_eq_zero_of_mod_eq h
    rw [Nat.mod_eq_of_lt (by omega)] at hz
    omega

theorem ofNat_toNat_eq {q : Nat} {pos : UInt64} (hq : q < 2 ^ 64)
    (h : (UInt64.ofNat q) + 1 = pos + 1) :
    q = pos.toNat := by
  have hpos : UInt64.ofNat q = pos := by simpa using h
  rw [← hpos, UInt64.toNat_ofNat_of_lt' hq]

theorem validAt_recordAt {q : Nat} {x : RecordData} (h : S.recordAt q = some x)
    (hq : q + 1 < 2 ^ 64) :
    validAt (.ofNat q) x = true := by
  obtain ⟨-, hseq, hevent⟩ := recordAt_some h
  have hlt : q < 2 ^ 64 := by omega
  have hne : (UInt64.ofNat q) + 1 ≠ 0 := by
    intro he
    have := congrArg UInt64.toNat he
    rw [UInt64.toNat_add, UInt64.toNat_ofNat_of_lt' hlt] at this
    change (q + 1) % 2 ^ 64 = 0 at this
    omega
  simp [validAt, hseq, hevent, hne]

/-- What `ordered` finds at a position of a memory image. -/
def imageAt (S : TraceSys R N) (q : Nat) : Option RecordData :=
  match (List.ofFn S.ring.slots)[q % N]? with
  | some r => if validAt (.ofNat q) r then some r else none
  | none => none

theorem imageAt_of_pos (hN : 0 < N) (q : Nat) :
    S.imageAt q = if validAt (.ofNat q) (S.ring.slots ⟨q % N, Nat.mod_lt q hN⟩) then
      some (S.ring.slots ⟨q % N, Nat.mod_lt q hN⟩) else none := by
  unfold imageAt
  rw [List.getElem?_ofFn, dif_pos (Nat.mod_lt q hN)]

/-- The positions a ring of `N` slots keeps when `head` is the next one. -/
def window (N head : Nat) : List Nat :=
  List.range' (head - N) (head - (head - N))

theorem mem_window {head q : Nat} : q ∈ window N head ↔ q < head ∧ head ≤ q + N := by
  rw [window, List.mem_range'_1]
  omega

theorem ordered_image (S : TraceSys R N) :
    ordered S.ring.head (List.ofFn S.ring.slots) =
      (window N S.ring.head.toNat).filterMap S.imageAt := by
  unfold ordered window
  simp only [List.length_ofFn]
  rfl

/-- A step that leaves the slot of a reader alone, or gives it another `seq`, and forgets no
record. -/
theorem Reads.step {S' : TraceSys R N} {g : Reading N} (h : S.Reads g)
    (hrec : ∀ {q x}, S.recordAt q = some x → S'.recordAt q = some x)
    (htorn : ∀ p, S'.Torn p → p.pos.toNat < S.pushed.length → ∃ p', S.Torn p' ∧ p'.pos = p.pos)
    (hslot : S'.ring.slots g.slot = S.ring.slots g.slot ∨
      (S'.ring.slots g.slot).seq = 0 ∨
      ∃ p, S.Torn p ∧ (S'.ring.slots g.slot).seq = p.pos + 1) : S'.Reads g := by
  refine ⟨h.slot, fun hseq hne => ?_⟩
  obtain ⟨hsealed, x, hx, hdata⟩ := h.data hseq hne
  refine ⟨fun p hp he => ?_, x, hrec hx, fun hs => ?_⟩
  · obtain ⟨p', hp', hpos⟩ := htorn p hp (he ▸ (recordAt_some hx).1)
    exact hsealed p' hp' (hpos.trans he)
  · rcases hslot with hslot | hslot | ⟨p, hp, hslot⟩
    · exact hdata (hslot ▸ hs)
    · exact absurd (hs.symm.trans hslot) hne
    · refine absurd ?_ (hsealed p hp)
      have := hslot.symm.trans (hs.trans hseq)
      simpa using this

section
variable {p : Pushing N} (h : Inv S)
include h

theorem Inv.push {e : TraceEntry} (hp : S.pusher = none) : Inv (S.push e) := by
  unfold TraceSys.push
  split
  · rename_i hN
    have hhead := h.head hp
    have hof : UInt64.ofNat S.pushed.length = S.ring.head := by
      rw [← hhead, UInt64.ofNat_toNat]
    have hold : ∀ {q x}, S.recordAt q = some x →
        { S with pushed := S.pushed ++ [e] }.recordAt q = some x :=
      fun hx => (recordAt_append e (recordAt_some hx).1).trans hx
    have hnone : ∀ p, ¬ S.Torn p := by
      intro p hp'
      rw [Torn, hp] at hp'
      cases hp'.1
    refine ⟨nofun, fun p hp' => ?_, fun p hp' => ?_, fun p todo hp' hpc => ?_, fun i hi => ?_,
      fun r g hg => ?_, fun y hy => hold (h.returned y hy)⟩
    · cases hp'
      refine ⟨rfl, ?_, rfl, ?_⟩
      · simp only [List.length_append, List.length_singleton, hhead]
      · have hlast := recordAt_last (S := S) e
        rw [hof, ← hhead] at hlast
        exact hlast
    · cases hp'.1
      simp
    · cases hp'
      cases hpc
      exact RecordData.fill_all rfl
    · have hne := hi _ ⟨rfl, nofun⟩
      simp only [TraceRing.setSlot_ne _ hne.symm, List.length_append, List.length_singleton]
      have hval : S.pushed.length % N ≠ i := by
        intro he
        rw [← hhead] at he
        exact hne (Fin.ext he)
      have hlt := i.isLt
      rcases h.slots i fun p hp' =>
        absurd hp' (hnone p) with ⟨hle, hzero⟩ | ⟨q, hq, hwin, hmod, hrec⟩
      · refine .inl ⟨Nat.lt_of_le_of_ne hle fun he => hval ?_, hzero⟩
        rw [he]
        exact Nat.mod_eq_of_lt hlt
      · refine .inr ⟨q, Nat.lt_succ_of_lt hq, Nat.lt_of_le_of_ne hwin fun he => hval ?_, hmod,
          hold hrec⟩
        rw [he, Nat.add_mod_right, hmod]
    · refine (h.readers r g hg).step hold (fun p hp' hlt => ?_) ?_
      · cases hp'.1
        change S.ring.head.toNat < _ at hlt
        omega
      · by_cases hgs : g.slot = ⟨S.ring.head.toNat % N, Nat.mod_lt _ hN⟩
        · exact .inr (.inl (by simp [hgs]))
        · exact .inl (TraceRing.setSlot_ne _ hgs _)
  · exact h

theorem Inv.storeField {f : TraceField} {todo : List TraceField} (hp : S.pusher = some p)
    (hpc : p.pc = .fields (f :: todo)) :
    Inv { S with
      ring := S.ring.setSlot p.slot (p.whole.copy (S.ring.slots p.slot) f)
      pusher := some { p with pc := .fields todo } } := by
  have htorn : S.Torn p := ⟨hp, hpc ▸ nofun⟩
  obtain ⟨hhead, hlen, hslot, hwhole⟩ := h.pushing p hp
  refine ⟨nofun, fun p' hp' => ?_, fun p' hp' => ?_, fun p' todo' hp' hpc' => ?_, fun i hi => ?_,
    fun r g hg => ?_, h.returned⟩
  · cases hp'
    exact ⟨hhead, hlen, hslot, hwhole⟩
  · cases hp'.1
    simp [h.torn p htorn]
  · cases hp'
    cases hpc'
    have hfill := h.todo p _ hp hpc
    simp only [TraceRing.setSlot_self, RecordData.copy_seq]
    exact hfill
  · have hne : p.slot ≠ i := hi { p with pc := .fields todo } ⟨rfl, nofun⟩
    simp only [TraceRing.setSlot_ne _ hne.symm]
    refine h.slots i fun p' hp' => ?_
    rw [Torn, hp] at hp'
    cases hp'.1
    exact hne
  · refine (h.readers r g hg).step id (fun p' hp' _ => ?_) ?_
    · cases hp'.1
      exact ⟨p, htorn, rfl⟩
    · by_cases hgs : g.slot = p.slot
      · exact .inr (.inl (by simp [hgs, h.torn p htorn]))
      · exact .inl (TraceRing.setSlot_ne _ hgs _)

theorem Inv.storeSeq (hp : S.pusher = some p) (hpc : p.pc = .fields []) :
    Inv { S with
      ring := S.ring.setSlot p.slot { S.ring.slots p.slot with seq := p.pos + 1 }
      pusher := some { p with pc := .head } } := by
  have htorn : S.Torn p := ⟨hp, hpc ▸ nofun⟩
  obtain ⟨hhead, hlen, hslot, hwhole⟩ := h.pushing p hp
  have hnone : ∀ p', ¬ Torn { S with
      ring := S.ring.setSlot p.slot { S.ring.slots p.slot with seq := p.pos + 1 }
      pusher := some { p with pc := .head } } p' := by
    rintro p' ⟨hp', hpc'⟩
    cases hp'
    exact hpc' rfl
  refine ⟨nofun, fun p' hp' => ?_, fun p' hp' => absurd hp' (hnone p'), fun p' todo' hp' hpc' => ?_,
    fun i _ => ?_, fun r g hg => ?_, h.returned⟩
  · cases hp'
    exact ⟨hhead, hlen, hslot, hwhole⟩
  · cases hp'
    cases hpc'
  · by_cases hi : i = p.slot
    · subst hi
      simp only [TraceRing.setSlot_self]
      refine .inr ⟨p.pos.toNat, by omega, by have := p.slot.isLt; omega, hslot.symm, ?_⟩
      exact hwhole.trans (congrArg some (h.todo p [] hp hpc).symm)
    · simp only [TraceRing.setSlot_ne _ hi]
      refine h.slots i fun p' hp' => ?_
      rw [Torn, hp] at hp'
      cases hp'.1
      exact Ne.symm hi
  · refine (h.readers r g hg).step id (fun p' hp' _ => absurd hp' (hnone p')) ?_
    by_cases hgs : g.slot = p.slot
    · exact .inr (.inr ⟨p, htorn, by simp [hgs]⟩)
    · exact .inl (TraceRing.setSlot_ne _ hgs _)

theorem Inv.slot_recordAt {i : Fin N} {q : Nat} (htorn : ∀ p, S.Torn p → p.slot ≠ i)
    (hi : q % N = i) (hq : q < S.pushed.length) (hwin : S.pushed.length ≤ q + N) :
    S.recordAt q = some (S.ring.slots i) := by
  rcases h.slots i htorn with ⟨hle, -⟩ | ⟨q', hq', hwin', hmod, hrec⟩
  · have := Nat.mod_le q N
    omega
  · have heq : q' = q := eq_of_mod_eq (hmod.trans hi.symm) (by omega) (by omega)
    rw [← heq]
    exact hrec

theorem Inv.head_le : S.ring.head.toNat ≤ S.pushed.length := by
  cases hp : S.pusher with
  | none => exact Nat.le_of_eq (h.head hp)
  | some p =>
    obtain ⟨hhead, hlen, -⟩ := h.pushing p hp
    rw [hhead]
    omega

variable (hfew : S.pushed.length < 2 ^ 64)
include hfew

theorem Inv.whole_of_seq {i : Fin N} {pos : UInt64} (hi : i.val = pos.toNat % N)
    (hseq : (S.ring.slots i).seq = pos + 1) (hne : pos + 1 ≠ 0) :
    S.recordAt pos.toNat = some (S.ring.slots i) ∧ ∀ p, S.Torn p → p.pos ≠ pos := by
  have hslot : ∀ p, S.Torn p → p.slot ≠ i := by
    rintro p hp rfl
    exact hne (hseq.symm.trans (h.torn p hp))
  constructor
  · rcases h.slots i hslot with ⟨-, hzero⟩ | ⟨q, hq, -, -, hrec⟩
    · exact absurd (hseq.symm.trans hzero) hne
    · have hpos : q = pos.toNat :=
        ofNat_toNat_eq (Nat.lt_trans hq hfew) ((recordAt_some hrec).2.1.symm.trans hseq)
      rw [← hpos]
      exact hrec
  · rintro p hp rfl
    exact hslot p hp (Fin.ext ((h.pushing p hp.1).2.2.1.trans hi.symm))

theorem Inv.storeHead (hp : S.pusher = some p) (hpc : p.pc = .head) :
    Inv { S with ring := { S.ring with head := p.pos + 1 }, pusher := none } := by
  obtain ⟨-, hlen, -, -⟩ := h.pushing p hp
  have hnone : ∀ p', ¬ Torn { S with
      ring := { S.ring with head := p.pos + 1 }, pusher := none } p' := by
    rintro p' ⟨hp', -⟩
    cases hp'
  refine ⟨fun _ => ?_, nofun, fun p' hp' => absurd hp' (hnone p'), nofun, fun i _ => ?_,
    fun r g hg => ?_, h.returned⟩
  · change (p.pos + 1).toNat = _
    rw [UInt64.toNat_add, ← hlen]
    exact Nat.mod_eq_of_lt (hlen ▸ hfew)
  · refine h.slots i fun p' hp' => ?_
    rw [Torn, hp] at hp'
    cases hp'.1
    exact absurd hpc hp'.2
  · exact (h.readers r g hg).step id (fun p' hp' _ => absurd hp' (hnone p')) (.inl rfl)

theorem Inv.store (hp : S.pusher = some p) : Inv (S.store p) := by
  unfold TraceSys.store
  split
  · rename_i hpc
    exact h.storeField hp hpc
  · rename_i hpc
    exact h.storeSeq hp hpc
  · rename_i hpc
    exact h.storeHead hfew hp hpc

theorem Inv.imageAt_eq {q : Nat} (hq : q < S.ring.head.toNat) (hwin : S.ring.head.toNat ≤ q + N)
    (hpusher : ∀ p, S.pusher = some p → p.slot.val ≠ q % N) : S.imageAt q = S.recordAt q := by
  have hN : 0 < N := by omega
  have hrec : S.recordAt q = some (S.ring.slots ⟨q % N, Nat.mod_lt q hN⟩) := by
    cases hp : S.pusher with
    | none =>
      have hlen := h.head hp
      refine h.slot_recordAt (fun p hp' he => ?_) rfl (by omega) (by omega)
      exact hpusher p hp'.1 (congrArg Fin.val he)
    | some p =>
      obtain ⟨hhead, hlen, hslot, -⟩ := h.pushing p hp
      rw [hhead] at hq hwin
      refine h.slot_recordAt (fun p' hp' he => ?_) rfl (by omega) ?_
      · exact hpusher p' hp'.1 (congrArg Fin.val he)
      · -- the slot the push rewrites is that of the position before the window
        have hne : p.pos.toNat ≠ q + N := by
          intro he
          refine hpusher p hp (hslot.trans ?_)
          rw [he, Nat.add_mod_right]
        omega
  have hlt : q + 1 < 2 ^ 64 := by
    have := (recordAt_some hrec).1
    omega
  rw [imageAt_of_pos hN, hrec, if_pos (validAt_recordAt hrec hlt)]

theorem Inv.imageAt_none (hp : S.pusher = some p) (hle : N ≤ S.ring.head.toNat) (hN : 0 < N) :
    S.imageAt (S.ring.head.toNat - N) = none := by
  obtain ⟨hhead, hlen, hslot, hwhole⟩ := h.pushing p hp
  rw [hhead] at hle ⊢
  have hsame : (⟨(p.pos.toNat - N) % N, Nat.mod_lt _ hN⟩ : Fin N) = p.slot := by
    refine Fin.ext (Eq.trans ?_ hslot.symm)
    change (p.pos.toNat - N) % N = p.pos.toNat % N
    rw [← Nat.add_mod_right (p.pos.toNat - N) N, Nat.sub_add_cancel hle]
  have hseq : (S.ring.slots p.slot).seq = 0 ∨ (S.ring.slots p.slot).seq = p.pos + 1 := by
    by_cases hpc : p.pc = .head
    · right
      have htorn : ∀ p', S.Torn p' → p'.slot ≠ p.slot := by
        intro p' hp'
        rw [Torn, hp] at hp'
        cases hp'.1
        exact absurd hpc hp'.2
      have hrec := h.slot_recordAt htorn hslot.symm (by omega) (by omega)
      rw [(recordAt_some hrec).2.1, UInt64.ofNat_toNat]
    · exact .inl (h.torn p ⟨hp, hpc⟩)
  rw [imageAt_of_pos hN, hsame, if_neg]
  simp only [validAt, Bool.and_eq_true, bne_iff_ne, beq_iff_eq, not_and]
  rintro ⟨hne, hpos⟩
  rcases hseq with hz | hz
  · exact absurd hz hne
  · have hlt : p.pos.toNat - N < 2 ^ 64 := by omega
    have := ofNat_toNat_eq hlt (hpos.symm.trans hz)
    omega

theorem Inv.ordered_eq :
    ∃ n ≤ 1, (n = 1 → ∃ p, S.pusher = some p ∧ N ≤ S.ring.head.toNat ∧
        p.slot.val = (S.ring.head.toNat - N) % N) ∧
      ordered S.ring.head (List.ofFn S.ring.slots) =
        ((window N S.ring.head.toNat).filterMap S.recordAt).drop n := by
  rw [ordered_image]
  by_cases hcut : 0 < N ∧ N ≤ S.ring.head.toNat ∧ ∃ p, S.pusher = some p
  · obtain ⟨hN, hle, p, hp⟩ := hcut
    obtain ⟨hhead, hlen, hslot, -⟩ := h.pushing p hp
    have hmod : p.slot.val = (S.ring.head.toNat - N) % N := by
      rw [hslot, hhead, ← Nat.add_mod_right (p.pos.toNat - N) N, Nat.sub_add_cancel (hhead ▸ hle)]
    have hwindow : window N S.ring.head.toNat =
        (S.ring.head.toNat - N) :: List.range' (S.ring.head.toNat - N + 1) (N - 1) := by
      rw [window, Nat.sub_sub_self hle, ← List.range'_succ, Nat.sub_add_cancel hN]
    obtain ⟨x, hx⟩ : ∃ x, S.recordAt (S.ring.head.toNat - N) = some x := by
      have hlt : S.ring.head.toNat - N < S.pushed.length := by
        have := h.head_le
        omega
      unfold recordAt
      rw [List.getElem?_eq_getElem hlt]
      exact ⟨_, rfl⟩
    refine ⟨1, Nat.le_refl _, fun _ => ⟨p, hp, hle, hmod⟩, ?_⟩
    rw [hwindow, List.filterMap_cons_none (h.imageAt_none hfew hp hle hN),
      List.filterMap_cons_some hx, List.drop_one, List.tail_cons]
    refine List.filterMap_congr fun q hq => ?_
    rw [List.mem_range'_1] at hq
    refine h.imageAt_eq hfew (by omega) (by omega) fun p' hp' he => ?_
    cases hp.symm.trans hp'
    have : q = S.ring.head.toNat - N :=
      eq_of_mod_eq (N := N) (by rw [← he, hmod]) (by omega) (by omega)
    omega
  · refine ⟨0, Nat.zero_le _, nofun, ?_⟩
    rw [List.drop_zero]
    refine List.filterMap_congr fun q hq => ?_
    obtain ⟨hlt, hwin⟩ := mem_window.mp hq
    refine h.imageAt_eq hfew hlt hwin fun p hp he => hcut ⟨by omega, ?_, p, hp⟩
    obtain ⟨hhead, hlen, hslot, -⟩ := h.pushing p hp
    rw [hhead] at hlt hwin ⊢
    by_contra hno
    rw [hslot, Nat.mod_eq_of_lt (by omega), Nat.mod_eq_of_lt (by omega)] at he
    omega

end

variable [DecidableEq R] {r : R}

theorem Inv.setReader {g : Option (Reading N)} (h : Inv S) (hg : ∀ g', g = some g' → S.Reads g') :
    Inv (S.setReader r g) := by
  refine ⟨h.head, h.pushing, h.torn, h.todo, h.slots, fun r' g' hr' => ?_, h.returned⟩
  have hreads : S.Reads g' := by
    change Function.update S.readers r g r' = some g' at hr'
    by_cases hr : r' = r
    · subst hr
      rw [Function.update_self] at hr'
      exact hg g' hr'
    · rw [Function.update_of_ne hr] at hr'
      exact h.readers r' g' hr'
  exact ⟨hreads.slot, hreads.data⟩

theorem Inv.get {pos : UInt64} (h : Inv S) (hfew : S.pushed.length < 2 ^ 64) :
    Inv (S.get r pos) := by
  unfold TraceSys.get
  split
  · refine h.setReader fun g hg => ?_
    cases hg
    refine ⟨rfl, fun hseq hne => ?_⟩
    obtain ⟨hrec, hsealed⟩ := h.whole_of_seq hfew rfl hseq (hseq ▸ hne)
    exact ⟨hsealed, _, hrec, fun _ => RecordData.fill_all rfl⟩
  · exact h

theorem Inv.load {g : Reading N} (h : Inv S) (hfew : S.pushed.length < 2 ^ 64)
    (hg : S.readers r = some g) : Inv (S.load r g) := by
  have hreads := h.readers r g hg
  unfold TraceSys.load
  split
  · rename_i f todo htodo
    refine h.setReader fun g' hg' => ?_
    cases hg'
    refine ⟨hreads.slot, fun hseq hne => ?_⟩
    simp only [RecordData.seq_copy] at hseq hne ⊢
    obtain ⟨hsealed, x, hx, hdata⟩ := hreads.data hseq hne
    refine ⟨hsealed, x, hx, fun hs => ?_⟩
    have hfill := hdata hs
    obtain ⟨hrec, -⟩ := h.whole_of_seq hfew hreads.slot (hs.trans hseq) (hseq ▸ hne)
    have hslot : S.ring.slots g.slot = x := Option.some.inj (hrec.symm.trans hx)
    rw [hslot]
    rw [htodo] at hfill
    exact hfill
  · rename_i htodo
    split
    · rename_i hvalid
      obtain ⟨hs, hvalid⟩ := hvalid
      simp only [validAt, Bool.and_eq_true, bne_iff_ne, beq_iff_eq] at hvalid
      obtain ⟨⟨hne, hseq⟩, -⟩ := hvalid
      obtain ⟨-, x, hx, hdata⟩ := hreads.data hseq hne
      have hfill := hdata hs
      rw [htodo] at hfill
      have hret : Inv { S with returned := (g.pos, g.data) :: S.returned } := by
        refine ⟨h.head, h.pushing, h.torn, h.todo, h.slots, fun r' g' hr' => ?_, fun y hy => ?_⟩
        · exact ⟨(h.readers r' g' hr').slot, (h.readers r' g' hr').data⟩
        · rcases List.mem_cons.mp hy with rfl | hy
          · exact hx.trans (congrArg some hfill.symm)
          · exact h.returned y hy
      exact hret.setReader nofun
    · exact h.setReader nofun

theorem Inv.step (h : Inv S) (a : TraceAct R) (hfew : S.pushed.length < 2 ^ 64) :
    Inv (S.step a) := by
  cases a with
  | push e =>
    simp only [TraceSys.step]
    split
    · rename_i hp
      exact h.push hp
    · exact h
  | store =>
    simp only [TraceSys.step]
    split
    · exact h
    · rename_i p hp
      exact h.store hfew hp
  | get r pos =>
    simp only [TraceSys.step]
    split
    · exact h.get hfew
    · exact h
  | load r =>
    simp only [TraceSys.step]
    split
    · exact h
    · rename_i g hg
      exact h.load hfew hg

theorem length_pushed_step (S : TraceSys R N) (a : TraceAct R) :
    S.pushed.length ≤ (S.step a).pushed.length := by
  cases a with
  | push e =>
    simp only [TraceSys.step]
    split
    · unfold TraceSys.push
      split <;> simp
    · exact Nat.le_refl _
  | store =>
    simp only [TraceSys.step]
    split
    · exact Nat.le_refl _
    · unfold TraceSys.store
      split <;> exact Nat.le_refl _
  | get r pos =>
    simp only [TraceSys.step]
    split
    · unfold TraceSys.get
      split <;> exact Nat.le_refl _
    · exact Nat.le_refl _
  | load r =>
    simp only [TraceSys.step]
    split
    · exact Nat.le_refl _
    · unfold TraceSys.load
      split
      · exact Nat.le_refl _
      · split <;> exact Nat.le_refl _

theorem length_pushed_foldl (acts : List (TraceAct R)) (S : TraceSys R N) :
    S.pushed.length ≤ (acts.foldl TraceSys.step S).pushed.length := by
  induction acts generalizing S with
  | nil => exact Nat.le_refl _
  | cons a acts ih => exact Nat.le_trans (length_pushed_step S a) (ih _)

theorem inv_run (acts : List (TraceAct R)) (hfew : (run N acts).pushed.length < 2 ^ 64) :
    Inv (run N acts) := by
  suffices h : ∀ S : TraceSys R N, Inv S → (acts.foldl TraceSys.step S).pushed.length < 2 ^ 64 →
      Inv (acts.foldl TraceSys.step S) from h _ .init hfew
  clear hfew
  induction acts with
  | nil => exact fun S hS _ => hS
  | cons a acts ih =>
    intro S hS hfew
    exact ih _ (hS.step a (Nat.lt_of_le_of_lt (length_pushed_foldl (a :: acts) S) hfew)) hfew

/-- A `get` returns only the record pushed at its position; and a memory image, taken between any
two steps, gives the records of the window, oldest first and whole, but for at most the oldest when
a push has begun to rewrite its slot. -/
theorem trace_records_whole (acts : List (TraceAct R))
    (hfew : (run N acts).pushed.length < 2 ^ 64) :
    (∀ pos r, (pos, r) ∈ (run N acts).returned →
      ∃ e, (run N acts).pushed[pos.toNat]? = some e ∧ r = e.record pos) ∧
    (∀ q ∈ window N (run N acts).ring.head.toNat, ((run N acts).recordAt q).isSome = true) ∧
    ∃ n ≤ 1, (n = 1 → ∃ p, (run N acts).pusher = some p ∧ N ≤ (run N acts).ring.head.toNat ∧
        p.slot.val = ((run N acts).ring.head.toNat - N) % N) ∧
      ordered (run N acts).ring.head (List.ofFn (run N acts).ring.slots) =
        ((window N (run N acts).ring.head.toNat).filterMap (run N acts).recordAt).drop n := by
  have hinv := inv_run acts hfew
  refine ⟨fun pos r hr => ?_, fun q hq => ?_, hinv.ordered_eq hfew⟩
  · obtain ⟨e, he, hrec⟩ := Option.map_eq_some_iff.mp (hinv.returned _ hr)
    rw [UInt64.ofNat_toNat] at hrec
    exact ⟨e, he, hrec.symm⟩
  · have hlt := Nat.lt_of_lt_of_le (mem_window.mp hq).1 hinv.head_le
    unfold recordAt
    rw [List.getElem?_eq_getElem hlt]
    rfl

end TraceSys

/-- A ring of two slots, the third push stopped after it cleared its slot, and a reader that got the
second record. -/
theorem TraceSys.trace_records_whole_torn :
    let e : TraceEntry := ⟨0, .wake, 7, 8, 9⟩
    let acts : List (TraceAct Unit) :=
      .push e :: List.replicate 7 .store ++ .push e :: List.replicate 7 .store ++
        .push e :: .store :: .get () 1 :: List.replicate 6 (.load ())
    (1, e.record 1) ∈ (run 2 acts).returned ∧ (∃ e, (run 2 acts).pushed[1]? = some e) ∧
      ordered (run 2 acts).ring.head (List.ofFn (run 2 acts).ring.slots) = [e.record 1] := by
  intro e acts
  have hmem : (1, e.record 1) ∈ (run 2 acts).returned := by decide +kernel
  obtain ⟨e', he', -⟩ := (trace_records_whole acts (by decide +kernel)).1 1 _ hmem
  exact ⟨hmem, ⟨e', he'⟩, by decide +kernel⟩

end VibeOS.Log
