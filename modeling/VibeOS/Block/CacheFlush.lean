import VibeOS.Block.CacheVersions

/-!
What a flush has done for the pages it owes. A page dirty or in writeback when the
flush begins is written in that version or a later one, or its slot is still ahead
of the sweep with the page dirty or such a writeback under way. The sweep passes a
slot it waited on unless the slot kept the error of the writeback waited for, so no
later writeback of the slot may put its own error in the place of that one.
-/
namespace VibeOS.Block.CacheSys
open Lib

variable {N : Nat} {S S' : CacheSys N}

/-- A device write of the `n`th version of the page, or of a later one, ended with `Ok`. -/
def Durable (S : CacheSys N) (key : CacheKey) (n : Nat) : Prop :=
  ∃ v p, (key, v, p) ∈ S.okWrites ∧ n ≤ v ∧ 0 < v ∧ (S.versions key)[v - 1]? = some p

def sweepOf : FlushState N → Option Cache.FlushSweep
  | .running sw | .writing sw _ | .waiting sw _ _ _ _ | .dropping sw _ => some sw
  | .idle | .failed _ | .finished => none

/-- A writeback of slot `i` that carries the `n`th version or a later one. -/
def Carries (S : CacheSys N) (m : Nat) (i : Fin N) (n : Nat) : Prop :=
  ∃ t, S.wbs m = some t ∧ t.slot = i ∧ n ≤ t.version

/-- Slot `i` holds the page, dirty or with such a writeback under way. -/
structure Owing (S : CacheSys N) (key : CacheKey) (n : Nat) (i : Fin N) : Prop where
  valid : (S.slot i).valid = true
  key : (S.slot i).key = key
  dirty : (S.slot i).dirty = true ∨ ∃ m, Carries S m i n

/-- The writeback `start` of slot `i` is under way, or the slot has its error. -/
def Awaits (S : CacheSys N) (i : Fin N) (start : Nat) : Prop :=
  (∃ t, S.wbs start = some t ∧ t.slot = i) ∨ ∃ e, (S.slot i).err = some (start, e)

/-- A flush in state `fl` has still to deal with slot `i`. -/
def Ahead (fl : FlushState N) (S : CacheSys N) (key : CacheKey) (n : Nat) (i : Fin N) : Prop :=
  match fl with
  | .idle | .finished => False
  | .failed _ => True
  | .running sw => sw.slot ≤ i
  | .writing sw m => sw.slot ≤ i ∨ Carries S m i n
  | .waiting sw s k start done =>
    sw.slot ≤ i ∧ (i = s → k = key ∧ (done = true → Awaits S s start))
  | .dropping sw dev => sw.slot ≤ i ∨ key.dev = dev

structure Owed (S : CacheSys N) (key : CacheKey) (n : Nat) : Prop where
  le : n ≤ (S.versions key).length
  dev : ∀ {sw}, sweepOf S.flush = some sw → ∀ d, sw.dev = some d → key.dev = d
  newer : ∀ {sw}, sweepOf S.flush = some sw → ∀ {m t}, S.wbs m = some t → t.key = key →
    sw.since < m → n ≤ t.version
  safe : Durable S key n ∨ ∃ i, Owing S key n i ∧ Ahead S.flush S key n i

structure FlushOk (S : CacheSys N) : Prop where
  owed : ∀ {key n}, S.owed key = some n → Owed S key n
  idle : S.flush = .idle → ∀ key, S.owed key = none
  waiting : ∀ {sw s k start done}, S.flush = .waiting sw s k start done →
    sw.slot = s ∧ (done = true → sw.since < start)

theorem flushOk_init [NeZero N] (device : CacheKey → Page) :
    FlushOk (init device : CacheSys N) := by
  constructor
  · intro key n h
    cases h
  · intro _ key
    rfl
  · intro sw s k start done h
    cases h

variable {key : CacheKey} {n : Nat} {i : Fin N}

theorem Durable.mono (h : Durable S key n) (hver : (S.versions key).IsPrefix (S'.versions key))
    (hok : ∀ p ∈ S.okWrites, p ∈ S'.okWrites) :
    Durable S' key n := by
  obtain ⟨v, p, hp, hv, hpos, hget⟩ := h
  refine ⟨v, p, hok _ hp, hv, hpos, ?_⟩
  obtain ⟨l, hl⟩ := hver
  rw [← hl, List.getElem?_append_left (List.getElem?_eq_some_iff.mp hget).1, hget]

/-- A step that ends no writeback and leaves the flush alone. -/
structure Calm (S S' : CacheSys N) : Prop where
  flush : S'.flush = S.flush
  owed : S'.owed = S.owed
  versions : ∀ key, (S.versions key).IsPrefix (S'.versions key)
  okWrites : ∀ p ∈ S.okWrites, p ∈ S'.okWrites
  tokens : ∀ {m t}, S.wbs m = some t → ∃ t', S'.wbs m = some t' ∧ t'.slot = t.slot ∧
    t'.version = t.version
  newTokens : ∀ {m t}, S'.wbs m = some t → (∃ t₀, S.wbs m = some t₀ ∧ t₀.key = t.key ∧
    t₀.version = t.version) ∨ t.version = (S.versions t.key).length
  owing : ∀ {key n i}, n ≤ (S.versions key).length → Owing S key n i → Owing S' key n i
  err : ∀ {key n i}, Owing S key n i → (S'.slot i).err = (S.slot i).err

theorem Calm.carries (h : Calm S S') {m n : Nat} (hc : Carries S m i n) : Carries S' m i n := by
  obtain ⟨t, hm, hi, hn⟩ := hc
  obtain ⟨t', hm', hs, hv⟩ := h.tokens hm
  exact ⟨t', hm', hs.trans hi, by rw [hv]; exact hn⟩

theorem Ahead.of {fl : FlushState N} (ha : Ahead fl S key n i)
    (hwriting : ∀ {sw m}, fl = .writing sw m → Carries S m i n → Carries S' m i n)
    (hwaiting : ∀ {sw start}, fl = .waiting sw i key start true → Awaits S i start →
      Awaits S' i start) :
    Ahead fl S' key n i := by
  cases fl with
  | idle | finished | failed _ | running _ | dropping _ _ => exact ha
  | writing sw m => exact ha.imp id (hwriting rfl)
  | waiting sw s k start done =>
    refine ⟨ha.1, fun hi => ?_⟩
    subst hi
    obtain ⟨rfl, hd⟩ := ha.2 rfl
    refine ⟨rfl, fun hdone => ?_⟩
    subst hdone
    exact hwaiting rfl (hd rfl)

theorem Calm.ahead (h : Calm S S') {fl : FlushState N} (ho : Owing S key n i)
    (ha : Ahead fl S key n i) : Ahead fl S' key n i := by
  refine ha.of (fun _ => h.carries) fun _ => Or.imp ?_ ?_
  · rintro ⟨t, ht, hts⟩
    obtain ⟨t', ht', hs, -⟩ := h.tokens ht
    exact ⟨t', ht', hs.trans hts⟩
  · rw [h.err ho]
    exact id

theorem Owed.calm (ho : Owed S key n) (h : Calm S S') : Owed S' key n where
  le := Nat.le_trans ho.le (h.versions key).length_le
  dev := by
    rw [h.flush]
    exact ho.dev
  newer := by
    rw [h.flush]
    intro sw hsw m t hm hk hlt
    rcases h.newTokens hm with ⟨t₀, hm₀, hk₀, hv⟩ | hv
    · rw [← hv]
      exact ho.newer hsw hm₀ (hk₀.trans hk) hlt
    · rw [hv, hk]
      exact ho.le
  safe := by
    rcases ho.safe with hd | ⟨i, hi, ha⟩
    · exact .inl (hd.mono (h.versions key) h.okWrites)
    · exact .inr ⟨i, h.owing ho.le hi, h.flush ▸ h.ahead hi ha⟩

theorem FlushOk.calm (hf : FlushOk S) (h : Calm S S') : FlushOk S' where
  owed hn := by
    rw [h.owed] at hn
    exact (hf.owed hn).calm h
  idle := by
    rw [h.flush, h.owed]
    exact hf.idle
  waiting := by
    rw [h.flush]
    exact hf.waiting

theorem Owing.busy (h : S.Wf) (ho : Owing S key n i) :
    (S.slot i).fill = false ∧ ((S.slot i).dirty = true ∨ (S.slot i).wb = true) := by
  constructor
  · cases hfill : (S.slot i).fill with
    | false => rfl
    | true =>
      have := (h.fill_free hfill).1
      rw [ho.valid] at this
      cases this
  · rcases ho.dirty with hd | ⟨m, t, hm, rfl, -⟩
    · exact .inl hd
    · exact .inr (h.token hm).1

theorem Owing.ne_filling (h : S.Wf) {i j : Fin N} (ho : Owing S key n j)
    (hf : (S.slot i).fill = true) : j ≠ i := by
  rintro rfl
  cases hf.symm.trans (ho.busy h).1

theorem Owing.ne_spare (h : S.Wf) {i j : Fin N} (ho : Owing S key n j) (hs : (S.slot i).Spare) :
    j ≠ i := by
  rintro rfl
  rcases (ho.busy h).2 with hd | hw
  · cases (hs.clean ho.valid).symm.trans hd
  · cases hs.idle.2.symm.trans hw

theorem calm_of_slots (hfl : S'.flush = S.flush) (how : S'.owed = S.owed)
    (hver : ∀ key, (S.versions key).IsPrefix (S'.versions key)) (hok : S'.okWrites = S.okWrites)
    (hw : S'.wbs = S.wbs)
    (hslot : ∀ {key n i}, Owing S key n i → (S'.slot i).valid = true ∧
      (S'.slot i).key = (S.slot i).key ∧ ((S.slot i).dirty = true → (S'.slot i).dirty = true) ∧
      (S'.slot i).err = (S.slot i).err) : Calm S S' where
  flush := hfl
  owed := how
  versions := hver
  okWrites := by simp [hok]
  tokens {m t} hm := ⟨t, by rw [hw, hm], rfl, rfl⟩
  newTokens {m t} hm := .inl ⟨t, by rw [← hw, hm], rfl, rfl⟩
  owing {key n i} _ ho := by
    obtain ⟨hv, hk, hd, -⟩ := hslot ho
    refine ⟨hv, hk.trans ho.key, ho.dirty.imp hd ?_⟩
    rintro ⟨m, t, hm, ht⟩
    exact ⟨m, t, by rw [hw, hm], ht⟩
  err ho := (hslot ho).2.2.2

theorem calm_of_kept (hfl : S'.flush = S.flush) (how : S'.owed = S.owed)
    (hver : ∀ key, (S.versions key).IsPrefix (S'.versions key)) (hok : S'.okWrites = S.okWrites)
    (hw : S'.wbs = S.wbs) (hslot : ∀ {key n i}, Owing S key n i → S'.slot i = S.slot i) :
    Calm S S' := by
  refine calm_of_slots hfl how hver hok hw fun ho => ?_
  rw [hslot ho]
  exact ⟨ho.valid, rfl, id, rfl⟩

theorem versions_initial (S : CacheSys N) (c : Cache N) (w : Write) (key : CacheKey) :
    (S.versions key).IsPrefix ((S.wrote c w).versions key) := by
  unfold CacheSys.wrote
  by_cases hk : key = w.key
  · subst hk
    simp
  · simp [hk]

theorem calm_result {t t' : WbToken N} (hn : S.wbs n = some t)
    (hwbs : S'.wbs = Function.update S.wbs n (some t')) (hs : t'.slot = t.slot)
    (hk : t'.key = t.key) (hv : t'.version = t.version) (hcache : S'.cache = S.cache)
    (hfl : S'.flush = S.flush ∧ S'.owed = S.owed) (hver : S'.versions = S.versions)
    (hok : ∀ p ∈ S.okWrites, p ∈ S'.okWrites) : Calm S S' := by
  have hold : ∀ {m u}, S.wbs m = some u → ∃ u', S'.wbs m = some u' ∧ u'.slot = u.slot ∧
      u'.version = u.version := by
    intro m u hm
    rw [hwbs]
    by_cases e : m = n
    · subst e
      rw [hn, Option.some.injEq] at hm
      subst hm
      exact ⟨t', Function.update_self .., hs, hv⟩
    · exact ⟨u, by rw [Function.update_of_ne e, hm], rfl, rfl⟩
  have hslot : ∀ i, S'.slot i = S.slot i := fun i => by rw [slot, hcache]
  constructor
  · exact hfl.1
  · exact hfl.2
  · exact fun key => hver ▸ List.prefix_refl _
  · exact hok
  · exact hold
  · intro m u hm
    rw [hwbs] at hm
    rcases update_eq_iff.mp hm with ⟨rfl, he⟩ | ⟨-, hm⟩
    · cases he
      exact .inl ⟨t, hn, hk.symm, hv.symm⟩
    · exact .inl ⟨u, hm, rfl, rfl⟩
  · intro key v i _ ho
    refine ⟨by rw [hslot]; exact ho.valid, by rw [hslot]; exact ho.key, ?_⟩
    rw [hslot]
    refine ho.dirty.imp id ?_
    rintro ⟨m, u, hm, hus, hle⟩
    obtain ⟨u', hm', hs', hv'⟩ := hold hm
    exact ⟨m, u', hm', hs'.trans hus, by rw [hv']; exact hle⟩
  · exact fun _ => by rw [hslot]

theorem carries_beginWb {c : Cache N} {page : Page} (hn : n ≤ (S.versions key).length) :
    Carries (S.beginWb c i key page) (S.begun + 1) i n :=
  ⟨⟨i, key, page, (S.versions key).length, none⟩, Function.update_self .., rfl, hn⟩

theorem calm_began {c : Cache N} (h : S.Wf) (hb : S.cache.Begun c i)
    (hv : (S.slot i).valid = true) :
    Calm S (S.beginWb c i (S.slot i).key (S.slot i).data) := by
  set S' := S.beginWb c i (S.slot i).key (S.slot i).data with hS'
  have hself : S'.slot i =
      { S.slot i with wb := true, dirty := false, start := (S.cache.wbSeq + 1) % 2 ^ 64 } := hb.self
  have hother : ∀ {j}, j ≠ i → S'.slot j = S.slot j := hb.other
  have hne : ∀ {m t}, S.wbs m = some t → m ≠ S.begun + 1 := by
    intro m t hm
    have := (h.token hm).2.2.2
    omega
  have hold : ∀ {m t}, S.wbs m = some t → S'.wbs m = some t := by
    intro m t hm
    simpa [hS', beginWb, hne hm] using hm
  constructor
  · rfl
  · rfl
  · exact fun key => List.prefix_refl _
  · exact fun p => id
  · exact fun {m t} hm => ⟨t, hold hm, rfl, rfl⟩
  · intro m t hm
    rcases update_eq_iff.mp hm with ⟨rfl, he⟩ | ⟨-, hm⟩
    · cases he
      exact .inr rfl
    · exact .inl ⟨t, hm, rfl, rfl⟩
  · intro key n j hn ho
    by_cases e : j = i
    · subst e
      refine ⟨by rw [hself]; exact hv, by rw [hself]; exact ho.key, .inr ⟨S.begun + 1, ?_⟩⟩
      rw [← ho.key] at hn
      exact carries_beginWb hn
    · refine ⟨by rw [hother e]; exact ho.valid, by rw [hother e]; exact ho.key, ?_⟩
      rw [hother e]
      refine ho.dirty.imp id ?_
      rintro ⟨m, t, hm, ht⟩
      exact ⟨m, t, hold hm, ht⟩
  · intro key n j ho
    by_cases e : j = i
    · subst e
      rw [hself]
    · rw [hother e]

/-- The slot the flush waits on has the error of the writeback waited for, and after the step it has
the page but no longer that error. -/
def Overwrites (S S' : CacheSys N) : Prop :=
  match S.flush with
  | .waiting _ s k start true =>
    (S.cache.writebackError s k start).isSome = true ∧
      S'.cache.writebackError s k start = none ∧ (S'.slot s).valid = true ∧ (S'.slot s).key = k
  | _ => False

instance : Decidable (Overwrites S S') := by
  unfold Overwrites
  split <;> infer_instance

theorem writebackError_eq {s : Fin N} {k : CacheKey} (hvalid : (S.slot s).valid = true)
    (hkey : (S.slot s).key = k) (start : Nat) : S.cache.writebackError s k start =
      (S.slot s).err.bind fun e => if e.1 == start then some e.2 else none := by
  have hvalid' : (S.cache.metas s).flags.valid = true := hvalid
  have hkey' : (S.cache.metas s).key = k := hkey
  simp only [Cache.writebackError, hvalid', hkey', bne_self_eq_false, Bool.not_true, Bool.or_false,
    Bool.false_eq_true, if_false]
  change _ = (S.cache.metas s).wbErr.bind _
  cases (S.cache.metas s).wbErr <;> rfl

theorem sweepOf_flushWrote {sw sw' : Cache.FlushSweep} {res : Except BlockError Unit}
    (h : sweepOf (flushWrote sw key res : FlushState N) = some sw') :
    sw' = sw := by
  unfold flushWrote at h
  split at h <;> simp_all [sweepOf]

theorem sweepOf_flushEnded {fl : FlushState N} {res : Except BlockError Unit}
    {sw : Cache.FlushSweep} (h : sweepOf (flushEnded fl n key res) = some sw) :
    sweepOf fl = some sw := by
  unfold flushEnded at h
  split at h
  · split at h
    · rw [sweepOf_flushWrote h]
      rfl
    · exact h
  · exact h

theorem flushEnded_cases (fl : FlushState N) (n : Nat) (key : CacheKey)
    (res : Except BlockError Unit) :
    (flushEnded fl n key res = fl ∧ ∀ sw, fl ≠ .writing sw n) ∨
      ∃ sw, fl = .writing sw n ∧ flushEnded fl n key res = flushWrote sw key res := by
  cases fl with
  | writing sw m =>
    by_cases e : m = n
    · subst e
      exact .inr ⟨sw, rfl, if_pos rfl⟩
    · refine .inl ⟨if_neg e, fun sw' h => ?_⟩
      cases h
      exact e rfl
  | idle | finished | failed _ | running _ | dropping _ _ | waiting _ _ _ _ _ =>
    exact .inl ⟨rfl, fun sw h => by cases h⟩

/-- The writeback `n` has ended with `res`, which leaves the cache `c`. -/
abbrev wbEnded (S : CacheSys N) (n : Nat) (t : WbToken N) (res : Except BlockError Unit)
    (c : Cache N) : CacheSys N :=
  { S with
    cache := c
    wbs := Function.update S.wbs n none
    flush := flushEnded S.flush n t.key res }

section
variable {v : Nat} {t : WbToken N} {res : Except BlockError Unit} {c : Cache N} (h : S.Wf)
  (hn : S.wbs n = some t)
  (hch : S.cache.Changed c t.slot (Slot.ended (S.slot t.slot) t.key res))
include hn

theorem wbs_wbEnded {m : Nat} {t' : WbToken N} (hm : S.wbs m = some t') (hs : t'.slot ≠ t.slot) :
    (S.wbEnded n t res c).wbs m = some t' := by
  have e : m ≠ n := by
    rintro rfl
    rw [hn, Option.some.injEq] at hm
    exact hs (hm ▸ rfl)
  simpa [e] using hm

theorem Carries.ended {m : Nat} (hi : i ≠ t.slot) (hc : Carries S m i v) :
    Carries (S.wbEnded n t res c) m i v := by
  obtain ⟨t', hm, hts, hle⟩ := hc
  exact ⟨t', wbs_wbEnded hn hm (hts ▸ hi), hts, hle⟩

include hch

theorem Ahead.ended_other (ha : Ahead S.flush S key v i) (hi : i ≠ t.slot) :
    Ahead (flushEnded S.flush n t.key res) (S.wbEnded n t res c) key v i := by
  rcases flushEnded_cases S.flush n t.key res with ⟨hfl, -⟩ | ⟨sw, hsw, hfl⟩
  · rw [hfl]
    refine ha.of (fun _ => Carries.ended hn hi) fun _ => Or.imp ?_ ?_
    · exact fun ⟨t', ht', hts⟩ => ⟨t', wbs_wbEnded hn ht' (hts ▸ hi), hts⟩
    · exact fun ⟨e, he⟩ => ⟨e, (congrArg Slot.err (hch.other hi)).trans he⟩
  · rw [hsw] at ha
    rw [hfl]
    have hle : sw.slot ≤ i := by
      rcases ha with ha | ⟨t', hm, hts, -⟩
      · exact ha
      · rw [hn, Option.some.injEq] at hm
        exact absurd (hm ▸ hts.symm) hi
    cases res with
    | ok u => exact hle
    | error err =>
      cases err with
      | gone => exact .inl hle
      | _ => trivial

include h

theorem Owing.ended_self (hv : Versioned S) (hr : t.result = some res)
    (ho : Owing S key v t.slot) :
    Durable S key v ∨
      Owing (S.wbEnded n t res c) key v t.slot ∧ (res = .ok () → t.version < v) := by
  obtain ⟨-, htkey, -, -⟩ := h.token hn
  have hself : (S.wbEnded n t res c).slot t.slot = Slot.ended (S.slot t.slot) t.key res := hch.self
  obtain ⟨hkey, hvalid, -⟩ := Slot.ended_cases (S.slot t.slot) t.key res
  have hbase : ((S.wbEnded n t res c).slot t.slot).valid = true ∧
      ((S.wbEnded n t res c).slot t.slot).key = key := by
    rw [hself, hvalid, hkey]
    exact ⟨ho.valid, ho.key⟩
  cases res with
  | ok u =>
    by_cases hle : v ≤ t.version
    · obtain ⟨hpos, hget⟩ := hv.carried hn
      have hkk : t.key = key := htkey.symm.trans ho.key
      rw [hkk] at hget
      exact .inl ⟨t.version, t.page, hkk ▸ hv.ok hn hr, hle, hpos, hget⟩
    · refine .inr ⟨⟨hbase.1, hbase.2, .inl ?_⟩, fun _ => by omega⟩
      rw [hself]
      rcases ho.dirty with hd | ⟨m, t', hm, hts, hle'⟩
      · exact hd
      · obtain rfl := h.token_inj hm hn hts
        rw [hn, Option.some.injEq] at hm
        exact absurd (hm ▸ hle') hle
  | error e =>
    refine .inr ⟨⟨hbase.1, hbase.2, .inl ?_⟩, fun hr => by cases hr⟩
    rw [hself]
    simp only [Slot.ended, if_pos (And.intro htkey ho.valid)]

variable (hwrap : S.begun < 2 ^ 64) (hno : ¬ Overwrites S (S.wbEnded n t res c))
include hwrap hno

/-- The flush waits on the slot whose writeback ended: the slot has the error of the writeback
waited for, since a later one may not put its own in its place. -/
theorem Awaits.ended {sw : Cache.FlushSweep} {start : Nat} (hi : Owing S key v t.slot)
    (hcase : S.flush = .waiting sw t.slot key start true) (hw : Awaits S t.slot start)
    (hok : n = start → res ≠ .ok ()) : Awaits (S.wbEnded n t res c) t.slot start := by
  have hself : (S.wbEnded n t res c).slot t.slot = Slot.ended (S.slot t.slot) t.key res := hch.self
  cases res with
  | ok u =>
    rcases hw with ⟨t', ht', hts⟩ | ⟨e, he⟩
    · exact absurd rfl (hok (h.token_inj ht' hn hts).symm)
    · exact .inr ⟨e, (congrArg Slot.err hself).trans he⟩
  | error err =>
    have herr : ((S.wbEnded n t (.error err) c).slot t.slot).err = some (n, err) := by
      obtain ⟨-, hk, hstart, hle⟩ := h.token hn
      rw [hself]
      simp only [Slot.ended, if_pos (And.intro hk hi.valid), hstart]
      rw [Nat.mod_eq_of_lt (by omega)]
    by_cases hns : n = start
    · exact .inr ⟨err, hns ▸ herr⟩
    · rcases hw with ⟨t', ht', hts⟩ | ⟨e, he⟩
      · exact absurd (h.token_inj ht' hn hts).symm hns
      · obtain ⟨hkey, hvalid, -⟩ := Slot.ended_cases (S.slot t.slot) t.key (.error err)
        have hkept : ((S.wbEnded n t (.error err) c).slot t.slot).valid = true ∧
            ((S.wbEnded n t (.error err) c).slot t.slot).key = key := by
          rw [hself, hvalid, hkey]
          exact ⟨hi.valid, hi.key⟩
        refine absurd ?_ hno
        rw [Overwrites, hcase]
        refine ⟨?_, ?_, hkept⟩
        · rw [writebackError_eq hi.valid hi.key, he]
          simp
        · rw [writebackError_eq hkept.1 hkept.2, herr]
          simp [hns]

theorem Ahead.ended_self (hf : FlushOk S) (ho : Owed S key v) (hi : Owing S key v t.slot)
    (ha : Ahead S.flush S key v t.slot) (hlt : res = .ok () → t.version < v) :
    Ahead (flushEnded S.flush n t.key res) (S.wbEnded n t res c) key v t.slot := by
  have htk : t.key = key := (h.token hn).2.1.symm.trans hi.key
  rcases flushEnded_cases S.flush n t.key res with ⟨hfl, hnot⟩ | ⟨sw, hsw, hfl⟩
  · rw [hfl]
    refine ha.of (fun {sw m} hcase => ?_) fun {sw start} hcase hw => ?_
    · rintro ⟨t', hm, hts, -⟩
      exact absurd (hcase.trans (by rw [h.token_inj hm hn hts])) (hnot sw)
    · refine hw.ended h hn hch hwrap hno hi hcase fun hns hok => ?_
      have hnewer := ho.newer (by rw [hcase]; rfl) hn htk (hns ▸ (hf.waiting hcase).2 rfl)
      have := hlt hok
      omega
  · rw [hsw] at ha
    rw [hfl]
    cases res with
    | ok u =>
      rcases ha with ha | ⟨t', hm, -, hle⟩
      · exact ha
      · rw [hn, Option.some.injEq] at hm
        subst hm
        have := hlt rfl
        omega
    | error err =>
      cases err with
      | gone => exact .inr (by rw [htk])
      | _ => trivial

theorem FlushOk.ended (hf : FlushOk S) (hv : Versioned S) (hr : t.result = some res) :
    FlushOk (S.wbEnded n t res c) := by
  have hwrote : ∀ {sw}, flushWrote sw t.key res ≠ (.idle : FlushState N) ∧
      ∀ {sw' k start done} {s : Fin N}, flushWrote sw t.key res ≠ .waiting sw' s k start done := by
    intro sw
    unfold flushWrote
    split <;> simp
  constructor
  · intro key v hov
    have ho := hf.owed hov
    refine ⟨ho.le, fun hsw => ho.dev (sweepOf_flushEnded hsw), fun hsw m t' hm =>
      ho.newer (sweepOf_flushEnded hsw) (h.token_ended hn hm).1, ?_⟩
    rcases ho.safe with hd | ⟨i, hi, ha⟩
    · exact .inl (hd.mono (List.prefix_refl _) fun _ => id)
    · by_cases e : i = t.slot
      · subst e
        rcases hi.ended_self h hn hch hv hr with hd | ⟨hi', hlt⟩
        · exact .inl (hd.mono (List.prefix_refl _) fun _ => id)
        · exact .inr ⟨t.slot, hi', ha.ended_self h hn hch hwrap hno hf ho hi hlt⟩
      · have hslot : (S.wbEnded n t res c).slot i = S.slot i := hch.other e
        refine .inr ⟨i, ⟨hslot ▸ hi.valid, hslot ▸ hi.key, ?_⟩, ha.ended_other hn hch e⟩
        rw [hslot]
        exact hi.dirty.imp id fun ⟨m, hm⟩ => ⟨m, hm.ended hn e⟩
  · intro hidle
    rcases flushEnded_cases S.flush n t.key res with ⟨hfl, -⟩ | ⟨sw, -, hfl⟩
    · exact hf.idle (hfl.symm.trans hidle)
    · exact absurd (hfl.symm.trans hidle) hwrote.1
  · intro sw s k start done hw
    rcases flushEnded_cases S.flush n t.key res with ⟨hfl, -⟩ | ⟨sw', -, hfl⟩
    · exact hf.waiting (hfl.symm.trans hw)
    · exact absurd (hfl.symm.trans hw) hwrote.2

end

end VibeOS.Block.CacheSys
