import Mathlib.Algebra.Order.Ring.Nat
import Mathlib.Data.Nat.ModEq
import Mathlib.Logic.Relation
import VibeOS.Time.TickClock

/-!
The writer's side of the clock: reads of a counter of any width are added up to a count of whole
cycles, and time is that count scaled once. A source counts cycles without end and a read shows
its low bits; a line follows one clock through its reads, the readings others make of what it
publishes, and its switches from source to source. Rounding never adds up along a line.
-/
namespace VibeOS.Time

/-- The scale of a counter running at `hz`: 32 fractional bits of nanoseconds per cycle. -/
def Scale.fromHz (hz : UInt64) : Option Scale :=
  if hz = 0 then none
  else
    let mult := (1000000000 <<< 32) / hz.toNat
    if mult < 2 ^ 64 ∧ mult ≠ 0 then some ⟨UInt64.ofNat mult, 32⟩ else none

def Counter.new (id : ClocksourceId) (hz : UInt64) (width : Nat) : Option Counter :=
  if 1 ≤ width ∧ width ≤ 64 then (Scale.fromHz hz).map fun scale => ⟨id, scale, width⟩ else none

structure ClockWriter where
  counter : Counter
  lastRaw : UInt64
  ext : UInt64
  ns0 : UInt64
  deriving DecidableEq, Repr

namespace ClockWriter

def new (c : Counter) (raw ns : UInt64) : ClockWriter :=
  ⟨c, raw &&& c.mask, 0, ns⟩

def snapshot (w : ClockWriter) : Snapshot :=
  ⟨w.counter.id, w.lastRaw, saturatingAdd w.ns0 (w.counter.scale.toNs w.ext)⟩

def advance (w : ClockWriter) (raw : UInt64) : ClockWriter × Snapshot :=
  let w' := { w with
    ext := saturatingAdd w.ext (w.counter.delta raw w.lastRaw)
    lastRaw := raw &&& w.counter.mask }
  (w', w'.snapshot)

/-- Move to counter `dst`, which read `rawNew` when the old one read `rawOld`. -/
def switch (w : ClockWriter) (dst : Counter) (rawOld rawNew : UInt64) : ClockWriter × Snapshot :=
  let w' : ClockWriter :=
    { ns0 := nsAt w.snapshot w.counter rawOld, counter := dst, ext := 0,
      lastRaw := rawNew &&& dst.mask }
  (w', w'.snapshot)

end ClockWriter

theorem Counter.of_new {id : ClocksourceId} {hz : UInt64} {width : Nat} {c : Counter}
    (h : Counter.new id hz width = some c) : (1 ≤ c.width ∧ c.width ≤ 64) ∧ c.scale.shift = 32 := by
  unfold Counter.new at h
  split at h
  · rename_i hw
    obtain ⟨scale, hs, rfl⟩ := Option.map_eq_some_iff.mp h
    refine ⟨hw, ?_⟩
    unfold Scale.fromHz at hs
    split at hs
    · cases hs
    · dsimp only at hs
      split at hs
      · cases hs
        rfl
      · cases hs
  · cases h

theorem toNat_clampU64 {v : Nat} (h : v < 2 ^ 64) : (clampU64 v).toNat = v := by
  rw [clampU64, if_pos h]
  exact Nat.mod_eq_of_lt h

theorem toNat_saturatingAdd {a b : UInt64} (h : a.toNat + b.toNat < 2 ^ 64) :
    (saturatingAdd a b).toNat = a.toNat + b.toNat :=
  toNat_clampU64 h

theorem Scale.toNat_toNs {s : Scale} (hs : s.shift = 32) {c : UInt64}
    (h : c.toNat * s.mult.toNat / 2 ^ 32 < 2 ^ 64) :
    (s.toNs c).toNat = c.toNat * s.mult.toNat / 2 ^ 32 := by
  unfold Scale.toNs
  rw [hs, if_pos (by decide), Nat.shiftRight_eq_div_pow]
  exact toNat_clampU64 h

@[simp] theorem Scale.toNs_zero (s : Scale) : s.toNs 0 = 0 := by
  simp [Scale.toNs, clampU64]

@[simp] theorem saturatingAdd_zero (a : UInt64) : saturatingAdd a 0 = a := by
  simp [saturatingAdd, clampU64, a.toNat_lt]

theorem Counter.toNat_and_mask (c : Counter) (hw : 1 ≤ c.width ∧ c.width ≤ 64) (x : UInt64) :
    (x &&& c.mask).toNat = x.toNat % 2 ^ c.width := by
  have hmask : c.mask.toNat = 2 ^ c.width - 1 := by
    unfold Counter.mask
    split
    · obtain h : c.width = 64 := by omega
      rw [h]
      rfl
    · rename_i hlt
      have hpow : 2 ^ c.width < 2 ^ 64 := Nat.pow_lt_pow_right (by decide) (by omega)
      have hpos : 1 ≤ 2 ^ c.width := Nat.one_le_two_pow
      have hone : ((1 : UInt64) <<< UInt64.ofNat c.width).toNat = 2 ^ c.width := by
        have hbits : (UInt64.ofNat c.width).toNat % 64 = c.width := by
          rw [UInt64.toNat_ofNat']
          omega
        rw [UInt64.toNat_shiftLeft, hbits, Nat.shiftLeft_eq]
        change 1 * 2 ^ c.width % 2 ^ 64 = 2 ^ c.width
        rw [Nat.one_mul, Nat.mod_eq_of_lt hpow]
      rw [UInt64.toNat_sub_of_le _ _ (by rw [UInt64.le_iff_toNat_le, hone]; exact hpos), hone]
      rfl
  rw [UInt64.toNat_and, hmask, Nat.and_two_pow_sub_one_eq_mod]

/-- The distance of two reads is that of the counts whose low bits they show, once it is less
than a wrap. -/
theorem Counter.toNat_delta (c : Counter) (hw : 1 ≤ c.width ∧ c.width ≤ 64) {now base : UInt64}
    {m n : Nat} (hnow : now.toNat % 2 ^ c.width = n % 2 ^ c.width)
    (hbase : base.toNat % 2 ^ c.width = m % 2 ^ c.width) (hmn : m ≤ n) (hlt : n - m < 2 ^ c.width) :
    (c.delta now base).toNat = n - m := by
  have hdvd : 2 ^ c.width ∣ 2 ^ 64 := Nat.pow_dvd_pow 2 hw.2
  unfold Counter.delta
  rw [c.toNat_and_mask hw, UInt64.toNat_sub, Nat.mod_mod_of_dvd _ hdvd]
  have hb := base.toNat_lt
  have hcongr : (2 ^ 64 - base.toNat + now.toNat) + m ≡ (n - m) + m [MOD 2 ^ c.width] := by
    have h1 : (2 ^ 64 - base.toNat + now.toNat) + m ≡ (2 ^ 64 - base.toNat + now.toNat) + base.toNat
        [MOD 2 ^ c.width] := Nat.ModEq.add_left _ (Eq.symm hbase)
    have h2 : (2 ^ 64 - base.toNat + now.toNat) + base.toNat = 2 ^ 64 + now.toNat := by omega
    have h3 : 2 ^ 64 + now.toNat ≡ 0 + n [MOD 2 ^ c.width] :=
      Nat.ModEq.add ((Nat.modEq_zero_iff_dvd).mpr hdvd) hnow
    rw [h2] at h1
    rw [Nat.sub_add_cancel hmn]
    exact h1.trans (by rwa [Nat.zero_add] at h3)
  have hmod := Nat.ModEq.add_right_cancel' m hcongr
  exact Eq.trans hmod (Nat.mod_eq_of_lt hlt)

/-- A counter as it runs: the cycles it has counted by each instant. -/
structure Source where
  counter : Counter
  made : ∃ id hz width, Counter.new id hz width = some counter
  count : Nat → Nat
  mono : Monotone count

namespace Source

/-- A raw read at instant `t` shows the low bits of the count; the others are anything. -/
def Reads (S : Source) (t : Nat) (raw : UInt64) : Prop :=
  raw.toNat % 2 ^ S.counter.width = S.count t % 2 ^ S.counter.width
  deriving Decidable

/-- Instant `τ` is less than a wrap of the counter after `σ`. -/
def Within (S : Source) (σ τ : Nat) : Prop :=
  σ ≤ τ ∧ S.count τ - S.count σ < 2 ^ S.counter.width
  deriving Decidable

/-- The time at an instant, when it was `ns0` at `base`: all cycles since, scaled once. -/
def exact (S : Source) (base ns0 t : Nat) : Nat :=
  ns0 + (S.count t - S.count base) * S.counter.scale.mult.toNat / 2 ^ 32

variable {S : Source} {base ns0 σ τ : Nat}

theorem width (S : Source) : 1 ≤ S.counter.width ∧ S.counter.width ≤ 64 := by
  obtain ⟨id, hz, width, h⟩ := S.made
  exact (Counter.of_new h).1

theorem shift (S : Source) : S.counter.scale.shift = 32 := by
  obtain ⟨id, hz, width, h⟩ := S.made
  exact (Counter.of_new h).2

theorem exact_mono (h : σ ≤ τ) : S.exact base ns0 σ ≤ S.exact base ns0 τ := by
  have hcount := S.mono h
  unfold exact
  refine Nat.add_le_add_left (Nat.div_le_div_right (Nat.mul_le_mul_right _ ?_)) _
  omega

theorem nsAt_near {s : Snapshot} {raw : UInt64} (hbase : base ≤ σ)
    (hcycles : s.cycles.toNat % 2 ^ S.counter.width = S.count σ % 2 ^ S.counter.width)
    (hns : s.ns.toNat = S.exact base ns0 σ) (hw : S.Within σ τ) (hr : S.Reads τ raw)
    (hfits : S.exact base ns0 τ < 2 ^ 64) :
    S.exact base ns0 τ ≤ (nsAt s S.counter raw).toNat + 1 ∧
      (nsAt s S.counter raw).toNat ≤ S.exact base ns0 τ ∧
      s.ns.toNat ≤ (nsAt s S.counter raw).toNat := by
  have hστ := S.mono hw.1
  have hbσ := S.mono hbase
  have hdelta := S.counter.toNat_delta S.width hr hcycles hστ hw.2
  set m := S.counter.scale.mult.toNat with hm
  have hsplit : (S.count τ - S.count base) * m = (S.count σ - S.count base) * m +
      (S.count τ - S.count σ) * m := by
    rw [← Nat.add_mul]
    congr 1
    omega
  unfold exact at hns hfits ⊢
  rw [← hm] at hns hfits ⊢
  rw [hsplit] at hfits ⊢
  generalize (S.count σ - S.count base) * m = a at hns hfits ⊢
  have hpart : (S.count τ - S.count σ) * m / 2 ^ 32 < 2 ^ 64 := by
    generalize (S.count τ - S.count σ) * m = b at hfits
    omega
  have hto : (S.counter.scale.toNs (S.counter.delta raw s.cycles)).toNat =
      (S.count τ - S.count σ) * m / 2 ^ 32 := by
    rw [Scale.toNat_toNs S.shift, hdelta]
    rwa [hdelta]
  generalize (S.count τ - S.count σ) * m = b at hfits hpart hto ⊢
  have hsum : (nsAt s S.counter raw).toNat = ns0 + a / 2 ^ 32 + b / 2 ^ 32 := by
    unfold nsAt
    rw [toNat_saturatingAdd (by rw [hns, hto]; omega), hns, hto]
  rw [hsum, hns]
  omega

end Source

/-- One clock followed through time: its writer, the source it runs on since `base`, what it has
published on that source and every reading made so far, the latest first. -/
structure Line where
  writer : ClockWriter
  source : Source
  base : Nat
  ns0 : Nat
  last : Nat
  now : Nat
  published : List (Nat × Snapshot)
  readings : List (Nat × Nat)

namespace Line

/-- The exact time on the present source. -/
def exact (L : Line) (t : Nat) : Nat :=
  L.source.exact L.base L.ns0 t

/-- A clock started on `S` at instant `t`. -/
def start (S : Source) (t : Nat) (raw ns : UInt64) : Line where
  writer := .new S.counter raw ns
  source := S
  base := t
  ns0 := ns.toNat
  last := t
  now := t
  published := [(t, (ClockWriter.new S.counter raw ns).snapshot)]
  readings := []

/-- The writer advances or switches, or someone reads a published snapshot's time, while nothing
saturates. -/
inductive Step (L : Line) : Line → Prop where
  | advance {t : Nat} {raw : UInt64} (hnow : L.now ≤ t) (hw : L.source.Within L.last t)
      (hr : L.source.Reads t raw) (hext : L.source.count t - L.source.count L.base < 2 ^ 64)
      (hfits : L.exact t < 2 ^ 64) :
      Step L { L with
        writer := (L.writer.advance raw).1
        last := t
        now := t
        published := (t, (L.writer.advance raw).2) :: L.published }
  | read {p : Nat × Snapshot} {t : Nat} {raw : UInt64} (hp : p ∈ L.published) (hnow : L.now ≤ t)
      (hw : L.source.Within p.1 t) (hr : L.source.Reads t raw) (hfits : L.exact t < 2 ^ 64) :
      Step L { L with
        now := t
        readings := (t, (nsAt p.2 L.source.counter raw).toNat) :: L.readings }
  | switch (dst : Source) {t : Nat} {rawOld rawNew : UInt64} (hnow : L.now ≤ t)
      (hw : L.source.Within L.last t) (hr : L.source.Reads t rawOld) (hto : dst.Reads t rawNew)
      (hfits : L.exact t < 2 ^ 64) :
      Step L
        { writer := (L.writer.switch dst.counter rawOld rawNew).1
          source := dst
          base := t
          ns0 := (nsAt L.writer.snapshot L.writer.counter rawOld).toNat
          last := t
          now := t
          published := [(t, (L.writer.switch dst.counter rawOld rawNew).2)]
          readings := L.readings }

/-- What holds along a line. A reading of an earlier source is at most one above the time at
which the present source was taken. -/
structure Inv (L : Line) : Prop where
  counter : L.writer.counter = L.source.counter
  raw : L.writer.lastRaw.toNat % 2 ^ L.source.counter.width =
    L.source.count L.last % 2 ^ L.source.counter.width
  ext : L.writer.ext.toNat = L.source.count L.last - L.source.count L.base
  ns0 : L.writer.ns0.toNat = L.ns0
  order : L.base ≤ L.last ∧ L.last ≤ L.now
  fits : L.exact L.last < 2 ^ 64
  published : ∀ p ∈ L.published, L.base ≤ p.1 ∧ p.1 ≤ L.last ∧
    p.2.cycles.toNat % 2 ^ L.source.counter.width =
    L.source.count p.1 % 2 ^ L.source.counter.width ∧
    p.2.ns.toNat = L.exact p.1
  readings : ∀ r ∈ L.readings, r.1 ≤ L.now ∧ (L.base ≤ r.1 ∧ r.2 ≤ L.exact r.1 ∨ r.2 ≤ L.ns0 + 1)
  steady : L.readings.Pairwise fun r r' => r'.1 ≤ r.1 ∧ r'.2 ≤ r.2 + 1

variable {L L' : Line}

theorem exact_base (L : Line) : L.exact L.base = L.ns0 := by
  simp [exact, Source.exact]

theorem le_exact (L : Line) (t : Nat) : L.ns0 ≤ L.exact t :=
  Nat.le_add_right _ _

theorem Inv.snapshot (h : Inv L) : L.writer.snapshot.ns.toNat = L.exact L.last := by
  have hfits := h.fits
  unfold exact Source.exact at hfits ⊢
  rw [← h.ext, ← h.ns0, ← h.counter] at hfits ⊢
  have hto :=
    Scale.toNat_toNs (s := L.writer.counter.scale) (by rw [h.counter]; exact L.source.shift)
    (c := L.writer.ext) (by omega)
  change (saturatingAdd _ _).toNat = _
  rw [toNat_saturatingAdd (by rw [hto]; exact hfits), hto]

variable {t : Nat} {raw : UInt64}

theorem Inv.start (S : Source) (ns : UInt64) (hr : S.Reads t raw) :
    Inv (Line.start S t raw ns) := by
  have hraw : (raw &&& S.counter.mask).toNat % 2 ^ S.counter.width =
      S.count t % 2 ^ S.counter.width := by
    rw [S.counter.toNat_and_mask S.width, Nat.mod_mod]
    exact hr
  have hfits : (Line.start S t raw ns).exact t < 2 ^ 64 := by
    exact (Line.exact_base (Line.start S t raw ns)).trans_lt ns.toNat_lt
  have hinv : Inv { Line.start S t raw ns with published := [] } :=
    ⟨rfl, hraw, (Nat.sub_self _).symm, rfl, ⟨le_rfl, le_rfl⟩, hfits, by simp, by simp [Line.start],
      by simp [Line.start]⟩
  refine { hinv with published := ?_ }
  intro p hp
  obtain rfl := List.mem_singleton.mp hp
  exact ⟨le_rfl, le_rfl, hraw, hinv.snapshot⟩

theorem Inv.advance (h : Inv L) (hnow : L.now ≤ t) (hw : L.source.Within L.last t)
    (hr : L.source.Reads t raw) (hext : L.source.count t - L.source.count L.base < 2 ^ 64)
    (hfits : L.exact t < 2 ^ 64) :
    Inv { L with
      writer := (L.writer.advance raw).1
      last := t
      now := t
      published := (t, (L.writer.advance raw).2) :: L.published } := by
  have hbl := L.source.mono h.order.1
  have hlt := L.source.mono hw.1
  have hraw : ((raw &&& L.writer.counter.mask).toNat) % 2 ^ L.source.counter.width =
      L.source.count t % 2 ^ L.source.counter.width := by
    rw [h.counter, L.source.counter.toNat_and_mask L.source.width, Nat.mod_mod]
    exact hr
  have hd : (L.writer.counter.delta raw L.writer.lastRaw).toNat = L.source.count t -
      L.source.count L.last := by
    rw [h.counter]
    exact L.source.counter.toNat_delta L.source.width hr h.raw hlt hw.2
  have hsum : (saturatingAdd L.writer.ext (L.writer.counter.delta raw L.writer.lastRaw)).toNat =
      L.source.count t - L.source.count L.base := by
    rw [toNat_saturatingAdd (by rw [h.ext, hd]; omega), h.ext, hd]
    omega
  have hinv : Inv { L with
      writer := (L.writer.advance raw).1
      last := t
      now := t } := by
    refine ⟨h.counter, hraw, hsum, h.ns0, ⟨h.order.1.trans hw.1, le_rfl⟩, hfits,
      fun p hp => ?_, fun r hr => ?_, h.steady⟩
    · obtain ⟨hb, hl, hrest⟩ := h.published p hp
      exact ⟨hb, hl.trans hw.1, hrest⟩
    · obtain ⟨hrn, hrest⟩ := h.readings r hr
      exact ⟨hrn.trans hnow, hrest⟩
  refine { hinv with published := List.forall_mem_cons.mpr ⟨?_, hinv.published⟩ }
  exact ⟨hinv.order.1, le_rfl, hraw, hinv.snapshot⟩

theorem Inv.near (h : Inv L) {p : Nat × Snapshot} (hp : p ∈ L.published)
    (hw : L.source.Within p.1 t) (hr : L.source.Reads t raw) (hfits : L.exact t < 2 ^ 64) :
    L.exact t ≤ (nsAt p.2 L.source.counter raw).toNat + 1 ∧
      (nsAt p.2 L.source.counter raw).toNat ≤ L.exact t ∧
      L.ns0 ≤ (nsAt p.2 L.source.counter raw).toNat := by
  obtain ⟨hb, -, hcycles, hns⟩ := h.published p hp
  obtain ⟨hlow, hhigh, hge⟩ := Source.nsAt_near hb hcycles hns hw hr hfits
  refine ⟨hlow, hhigh, Nat.le_trans ?_ hge⟩
  rw [hns]
  exact L.le_exact p.1

theorem Inv.read (h : Inv L) {p : Nat × Snapshot} (hp : p ∈ L.published) (hnow : L.now ≤ t)
    (hw : L.source.Within p.1 t) (hr : L.source.Reads t raw) (hfits : L.exact t < 2 ^ 64) :
    Inv { L with
      now := t
      readings := (t, (nsAt p.2 L.source.counter raw).toNat) :: L.readings } := by
  obtain ⟨hlow, hhigh, hge⟩ := h.near hp hw hr hfits
  have hbase : L.base ≤ t := h.order.1.trans (h.order.2.trans hnow)
  refine { h with
    order := ⟨h.order.1, h.order.2.trans hnow⟩
    readings := List.forall_mem_cons.mpr ⟨⟨le_rfl, .inl ⟨hbase, hhigh⟩⟩, fun r hr => ?_⟩
    steady := List.pairwise_cons.mpr ⟨fun r hr => ?_, h.steady⟩ }
  · obtain ⟨hrn, hrest⟩ := h.readings r hr
    exact ⟨hrn.trans hnow, hrest⟩
  · obtain ⟨hrn, hrest⟩ := h.readings r hr
    have hrt : r.1 ≤ t := hrn.trans hnow
    refine ⟨hrt, ?_⟩
    rcases hrest with ⟨-, hle⟩ | hle
    · have hmono : L.exact r.1 ≤ L.exact t := Source.exact_mono hrt
      dsimp only
      omega
    · dsimp only
      omega

theorem Inv.switch (h : Inv L) (dst : Source) {rawOld rawNew : UInt64} (hnow : L.now ≤ t)
    (hw : L.source.Within L.last t) (hr : L.source.Reads t rawOld) (hto : dst.Reads t rawNew)
    (hfits : L.exact t < 2 ^ 64) :
    Inv
      { writer := (L.writer.switch dst.counter rawOld rawNew).1
        source := dst
        base := t
        ns0 := (nsAt L.writer.snapshot L.writer.counter rawOld).toNat
        last := t
        now := t
        published := [(t, (L.writer.switch dst.counter rawOld rawNew).2)]
        readings := L.readings } := by
  -- The new source starts at the time a reader of the old one gets.
  have hnear := Source.nsAt_near h.order.1 (s := L.writer.snapshot) h.raw h.snapshot hw hr hfits
  rw [← h.counter] at hnear
  obtain ⟨hlow, -, hge⟩ := hnear
  rw [h.snapshot] at hge
  have hstart := Inv.start dst (nsAt L.writer.snapshot L.writer.counter rawOld) hto
  refine { hstart with readings := fun r hr => ?_, steady := h.steady }
  obtain ⟨hrn, hrest⟩ := h.readings r hr
  refine ⟨hrn.trans hnow, .inr ?_⟩
  rcases hrest with ⟨-, hle⟩ | hle
  · have hmono : L.exact r.1 ≤ L.exact t := Source.exact_mono (hrn.trans hnow)
    have hlow : L.exact t ≤ _ := hlow
    exact (hle.trans hmono).trans hlow
  · have := L.le_exact L.last
    exact hle.trans (Nat.add_le_add_right (this.trans hge) 1)

theorem Inv.step (h : Inv L) (hs : Step L L') : Inv L' := by
  cases hs with
  | advance hnow hw hr hext hfits => exact h.advance hnow hw hr hext hfits
  | read hp hnow hw hr hfits => exact h.read hp hnow hw hr hfits
  | switch dst hnow hw hr hto hfits => exact h.switch dst hnow hw hr hto hfits

/-- A clock that was started and went through any steps. -/
def Reached (L : Line) : Prop :=
  ∃ S t raw ns, S.Reads t raw ∧ Relation.ReflTransGen Step (Line.start S t raw ns) L

theorem Reached.inv (h : Reached L) : Inv L := by
  obtain ⟨S, t, raw, ns, hr, hrun⟩ := h
  induction hrun with
  | refl => exact .start S ns hr
  | tail _ hs ih => exact ih.step hs

/-- The clock does not drift: its snapshot is exact however its cycles were read, a reading is
exact or one less, of two readings the later is at most one below the earlier, and a switch goes
on from what a reader of the old source gets. -/
theorem clock_steady (h : Reached L) :
    L.writer.snapshot.ns.toNat = L.exact L.last ∧
    (∀ p ∈ L.published, ∀ t raw, L.source.Within p.1 t → L.source.Reads t raw → L.exact t < 2 ^ 64 →
      (nsAt p.2 L.source.counter raw).toNat = L.exact t ∨
        (nsAt p.2 L.source.counter raw).toNat + 1 = L.exact t) ∧
    L.readings.Pairwise (fun r r' => r'.1 ≤ r.1 ∧ r'.2 ≤ r.2 + 1) ∧
    ∀ dst rawOld rawNew, (L.writer.switch dst rawOld rawNew).2.ns =
      nsAt L.writer.snapshot L.writer.counter rawOld := by
  have hinv := h.inv
  refine ⟨hinv.snapshot, fun p hp t raw hw hr hfits => ?_, hinv.steady, fun dst rawOld rawNew => ?_⟩
  · obtain ⟨hlow, hhigh, -⟩ := hinv.near hp hw hr hfits
    omega
  · simp [ClockWriter.switch, ClockWriter.snapshot]

/-- The power management timer, 24 bits wide, that has counted a cycle by each instant. -/
def pmTimer : Source where
  counter := ⟨.acpiPm, ⟨1199864031881, 32⟩, 24⟩
  made := ⟨.acpiPm, 3579545, 24, by decide⟩
  count t := t
  mono _ _ h := h

/-- Across the timer's wrap: a read 16777000 cycles after the first, and a reading after that. -/
theorem clock_steady_wrap :
    ∃ L : Line, L.readings = [(33554500, 4687048213)] ∧
      L.writer.snapshot.ns.toNat = L.exact 33554000 ∧
      L.exact 33554500 = 4687048213 + 1 := by
  let L₀ := Line.start pmTimer 16777000 16777000 0
  let w := (L₀.writer.advance 16776784)
  let L₁ : Line := { L₀ with writer := w.1, last := 33554000, now := 33554000,
                             published := (33554000, w.2) :: L₀.published }
  let L₂ : Line := { L₁ with now := 33554500,
                             readings := [(33554500, (nsAt w.2 pmTimer.counter 68).toNat)] }
  have hadvance : Step L₀ L₁ := .advance (by decide) (by decide) (by decide) (by decide) (by decide)
  have hread : Step L₁ L₂ :=
    .read (p := (33554000, w.2)) (List.mem_cons_self ..) (by decide) (by decide) (by decide)
      (by decide)
  have hreached : Reached L₂ :=
    ⟨pmTimer, 16777000, 16777000, 0, by decide, .tail (.single hadvance) hread⟩
  exact ⟨L₂, by decide, (clock_steady hreached).1, by decide⟩

end Line
end VibeOS.Time
