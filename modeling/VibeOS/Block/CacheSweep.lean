import VibeOS.Block.CacheFlush

/-!
The flush's account over whole runs. Every step keeps it, the flush's own calls
included, so a sweep that finishes without an error leaves every page it owed on
the device, unless some step put another error in the place of the one waited for; a
run in which the waited-on slot fails twice shows that it may then be lost.
-/
namespace VibeOS.Block.CacheSys
variable {N : Nat} {S S' : CacheSys N}

theorem flushOk_effect (hf : FlushOk S) (hv : Versioned S) (h : S.Wf) (hwrap : S.begun < 2 ^ 64)
    (he : Effect S S') (hno : ¬ Overwrites S S') : FlushOk S' := by
  cases he with
  | quiet hq | hit hq _ _ _ =>
    refine hf.calm (calm_of_kept rfl rfl (fun _ => List.prefix_refl _) rfl rfl fun _ => ?_)
    exact congrFun hq.slot _
  | devRead hn | passed hn _ =>
    exact hf.calm (calm_of_kept rfl rfl (fun _ => List.prefix_refl _) rfl rfl fun _ => rfl)
  | began hb hd => exact hf.calm (calm_began h hb hd.valid)
  | @rekeyed c i key hch hnone hs =>
    have hS : S.beginFill c ⟨i, key, .read, key⟩ none = { S with
        cache := c, filled := S.filled + 1,
        fills := Function.update S.fills S.filled (some ⟨⟨i, key, .read, key⟩, none⟩) } := by
      simp [beginFill]
    rw [hS]
    refine hf.calm (calm_of_kept rfl rfl (fun _ => List.prefix_refl _) rfl rfl fun ho => ?_)
    exact hch.other (ho.ne_spare h hs)
  | @wrote c i key off src hch hk hval hfill =>
    refine hf.calm (calm_of_slots rfl rfl (versions_initial S c _) rfl rfl fun {_ _ j} ho => ?_)
    by_cases e : j = i
    · subst e
      have hself : (S.wrote c ⟨key, off, src⟩).slot j =
          { S.slot j with dirty := true, data := (S.slot j).data.write off src } := hch.self
      rw [hself]
      exact ⟨hval, rfl, fun _ => rfl, rfl⟩
    · rw [show (S.wrote c ⟨key, off, src⟩).slot j = S.slot j from hch.other e]
      exact ⟨ho.valid, rfl, id, rfl⟩
  | @wroteWhole c i key src hch hnone hs hlen =>
    refine hf.calm (calm_of_kept rfl rfl (versions_initial S c _) rfl rfl fun ho => ?_)
    exact hch.other (ho.ne_spare h hs)
  | @installed n f page off len c hn hfl hch hlen =>
    refine hf.calm (calm_of_kept rfl rfl (fun _ => List.prefix_refl _) rfl rfl fun ho => ?_)
    exact hch.other (ho.ne_filling h hfl.2)
  | @merged n f page off src c hn hfl hch =>
    refine hf.calm (calm_of_kept rfl rfl (versions_initial (S.endFill n) c _) rfl rfl fun ho => ?_)
    exact hch.other (ho.ne_filling h hfl.2)
  | @released n t c hn hr =>
    refine hf.calm (calm_of_kept rfl rfl (fun _ => List.prefix_refl _) rfl rfl fun ho => ?_)
    rcases hr with ⟨-, rfl⟩ | ⟨hfl, hch⟩
    · rfl
    · exact hch.other (ho.ne_filling h hfl.2)
  | devOk hn hr => exact hf.calm (calm_result hn rfl rfl rfl rfl rfl ⟨rfl, rfl⟩ rfl fun _ hp =>
    List.mem_append_left _ hp)
  | devErr hn hr => exact hf.calm (calm_result hn rfl rfl rfl rfl rfl ⟨rfl, rfl⟩ rfl fun _ => id)
  | ended hn hr hch => exact hf.ended h hn (h.ends hn hch) hwrap hno hv hr

theorem flushOk_cleared (hf : FlushOk S) (he : Cleared S S') {fl : FlushState N}
    (hfl : fl = S.flush ∨ ∃ sw dev, S.flush = .dropping sw dev ∧ fl = .running sw ∧
      ∀ key, key.dev = dev → S'.owed key = none) :
    FlushOk { S' with flush := fl } := by
  cases he with
  | @intro c owed hseq hc ho =>
  have howed : ∀ {key n}, owed key = some n → S.owed key = some n := by
    intro key n hn
    rcases ho key with h | h <;> rw [h] at hn
    · exact hn
    · cases hn
  have hsweep : ∀ {sw}, sweepOf fl = some sw → sweepOf S.flush = some sw := by
    intro sw hsw
    rcases hfl with rfl | ⟨sw', dev, hS, rfl, -⟩
    · exact hsw
    · rw [hS]
      exact hsw
  constructor
  · intro key n hn
    have hn : owed key = some n := hn
    obtain ⟨hle, hdev, hnewer, hsafe⟩ := hf.owed (howed hn)
    refine ⟨hle, fun hsw => hdev (hsweep hsw), fun hsw => hnewer (hsweep hsw), ?_⟩
    rcases hsafe with hd | ⟨i, hi, ha⟩
    · exact .inl (hd.mono (List.prefix_refl _) fun _ => id)
    · have hslot : c.slot i = S.slot i := by
        rcases hc i with h | ⟨-, h⟩
        · exact h
        · rw [hi.key, hn] at h
          cases h
      refine .inr ⟨i, ⟨(congrArg Slot.valid hslot).trans hi.valid,
        (congrArg Slot.key hslot).trans hi.key,
        hi.dirty.imp (congrArg Slot.dirty hslot).trans id⟩, ?_⟩
      rcases hfl with rfl | ⟨sw, dev, hS, rfl, hnone⟩
      · refine ha.of (fun _ => id) fun _ => Or.imp id ?_
        exact fun ⟨e, he⟩ => ⟨e, (congrArg Slot.err hslot).trans he⟩
      · rw [hS] at ha
        rcases ha with ha | hk
        · exact ha
        · have := hnone key hk
          rw [hn] at this
          cases this
  · intro hidle key
    have hidle : fl = .idle := hidle
    rcases hfl with rfl | ⟨sw, dev, hS, rfl, -⟩
    · rcases ho key with h | h
      · exact h.trans (hf.idle hidle key)
      · exact h
    · cases hidle
  · intro sw s k start done hw
    have hw : fl = _ := hw
    rcases hfl with rfl | ⟨sw', dev, hS, rfl, -⟩
    · exact hf.waiting hw
    · cases hw

theorem owes_eq_some {dev : Option Nat} {key : CacheKey} {n : Nat} (h : S.owes dev key = some n) :
    n = (S.versions key).length ∧ (∀ d, dev = some d → key.dev = d) ∧
      ∃ i, (S.slot i).valid = true ∧ (S.slot i).key = key ∧
        ((S.slot i).dirty = true ∨ (S.slot i).wb = true) := by
  unfold owes at h
  split at h
  · rename_i i hfind
    split at h
    · rename_i hcond
      simp only [Bool.and_eq_true, Bool.or_eq_true] at hcond
      obtain ⟨⟨hv, hd⟩, hdev⟩ := hcond
      refine ⟨(Option.some.inj h).symm, ?_, i, hv, (Cache.find_eq_some hfind).2, hd⟩
      rintro d rfl
      have hd : d = key.dev := by simpa using hdev
      exact hd.symm
    · cases h
  · cases h

theorem FlushOk.flushBegin (hf : FlushOk S) (hv : Versioned S) (h : S.Wf)
    (hwrap : S.begun < 2 ^ 64) (dev : Option Nat) : FlushOk (S.flushBegin dev) := by
  unfold CacheSys.flushBegin
  split
  swap
  · exact hf
  have hsince : (S.cache.flushSweep dev).since = S.begun := by
    change S.cache.wbSeq = S.begun
    rw [h.seq, Nat.mod_eq_of_lt hwrap]
  constructor
  · intro key n hn
    have hn : S.owes dev key = some n := hn
    obtain ⟨rfl, hdev, i, hval, hkey, hd⟩ := owes_eq_some hn
    refine ⟨Nat.le_refl _, ?_, ?_, .inr ⟨i, ⟨hval, hkey, ?_⟩, Nat.zero_le _⟩⟩
    · intro sw hsw d hd'
      have hsw : S.cache.flushSweep dev = sw := by simpa [sweepOf] using hsw
      subst hsw
      exact hdev d hd'
    · intro sw hsw m t hm hk hlt
      have hsw : S.cache.flushSweep dev = sw := by simpa [sweepOf] using hsw
      subst hsw
      have := (h.token hm).2.2.2
      omega
    · cases hdirty : (S.slot i).dirty with
      | true => exact .inl rfl
      | false =>
        rw [hdirty] at hd
        obtain ⟨m, t, hm, rfl⟩ := h.wb_token (hd.resolve_left (by simp))
        refine .inr ⟨m, t, hm, rfl, ?_⟩
        rw [hv.current hm hval hdirty, ← (h.token hm).2.1, hkey]
  · intro hidle
    cases hidle
  · intro sw s k start done hw
    cases hw

theorem Owing.not_passed (h : S.Wf) {key : CacheKey} {n : Nat} {i : Fin N} (ho : Owing S key n i)
    {dev : Option Nat} (hdev : ∀ d, dev = some d → key.dev = d) : ¬ (S.slot i).Passed dev := by
  rintro (⟨d, hd, hne⟩ | ⟨hw, hn⟩)
  · rw [ho.key] at hne
    exact hne (hdev d hd)
  · rcases (ho.busy h).2 with hd | hw'
    · exact hn ⟨ho.valid, hd, (ho.busy h).1⟩
    · rw [hw] at hw'
      cases hw'

/-- A page stays owed under a flush that goes on with a sweep of the same scope. -/
theorem Owed.resumed {key : CacheKey} {n : Nat} (ho : Owed S key n) {sw sw' : Cache.FlushSweep}
    (hsw : sweepOf S.flush = some sw) (hdev : sw'.dev = sw.dev) (hsince : sw'.since = sw.since)
    {fl : FlushState N} (hfl : sweepOf fl = some sw')
    (hsafe : Durable S key n ∨ ∃ i, Owing S key n i ∧ Ahead fl S key n i) :
    Owed { S with flush := fl } key n := by
  refine ⟨ho.le, ?_, ?_, hsafe.imp id fun ⟨i, hi, ha⟩ =>
    ⟨i, ⟨hi.valid, hi.key, hi.dirty⟩, ha.of (fun _ => id) fun _ => id⟩⟩
  · intro sw₁ hsw₁ d hd
    obtain rfl : sw' = sw₁ := Option.some.inj (hfl.symm.trans hsw₁)
    exact ho.dev hsw d (hdev ▸ hd)
  · intro sw₁ hsw₁ m t hm hk hlt
    obtain rfl : sw' = sw₁ := Option.some.inj (hfl.symm.trans hsw₁)
    rw [hsince] at hlt
    exact ho.newer hsw hm hk hlt

theorem FlushOk.flushNext (hf : FlushOk S) (h : S.Wf) (hwrap : S.begun < 2 ^ 64) :
    FlushOk S.flushNext := by
  unfold CacheSys.flushNext
  split
  swap
  · exact hf
  rename_i sw hfl
  have hspec := S.cache.flushNext_spec sw
  generalize S.cache.flushNext sw = r at hspec
  -- an owed page is durable, or owing at a slot the sweep has not reached
  have hkey : ∀ {key n}, S.owed key = some n → Owed S key n ∧
      (Durable S key n ∨ ∃ i, Owing S key n i ∧ sw.slot ≤ i ∧ ¬ (S.slot i).Passed sw.dev) := by
    intro key n hn
    have ho := hf.owed hn
    refine ⟨ho, ho.safe.imp id ?_⟩
    rintro ⟨i, hi, ha⟩
    rw [hfl] at ha
    exact ⟨i, hi, ha, hi.not_passed h (ho.dev (by rw [hfl]; rfl))⟩
  cases hspec with
  | finish hpass =>
    refine ⟨fun {key n} hn => ?_, fun hidle => (by cases hidle), fun hw => (by cases hw)⟩
    obtain ⟨ho, hs⟩ := hkey hn
    refine ⟨ho.le, fun hsw => (by cases hsw), fun hsw => (by cases hsw), ?_⟩
    rcases hs with hd | ⟨i, hi, hle, hnp⟩
    · exact .inl hd
    · exact absurd (hpass i hle) hnp
  | @write i sw' c' hb hle hpass hd hsw =>
    have hcalm := calm_began h hb hd.valid
    refine ⟨fun {key n} hn => ?_, fun hidle => (by cases hidle), fun hw => (by cases hw)⟩
    obtain ⟨ho, hs⟩ := hkey hn
    have hsweep : sweepOf (S.beginWb c' i (S.slot i).key (S.slot i).data).flush = some sw := by
      rw [hcalm.flush, hfl]
      rfl
    refine (ho.calm hcalm).resumed hsweep hsw.2.1 hsw.2.2 rfl ?_
    rcases hs with hd' | ⟨j, hj, hlej, hnp⟩
    · exact .inl (hd'.mono (hcalm.versions key) hcalm.okWrites)
    · refine .inr ⟨j, hcalm.owing ho.le hj, ?_⟩
      by_cases e : j = i
      · subst e
        have hlen := ho.le
        rw [← hj.key] at hlen
        exact .inr (carries_beginWb (c := c') hlen)
      · have hne : (j : Nat) ≠ i := fun he => e (Fin.ext he)
        have hlt : ¬ (j : Nat) < i := fun hlt => hnp (hpass j hlej hlt)
        have := hsw.1
        exact .inl (by omega)
  | @wait i sw' hle hpass hw hsw =>
    refine ⟨fun {key n} hn => ?_, fun hidle => (by cases hidle), ?_⟩
    · obtain ⟨ho, hs⟩ := hkey hn
      refine ho.resumed (by rw [hfl]; rfl) hsw.2.1 hsw.2.2 rfl (hs.imp id ?_)
      rintro ⟨j, hj, hlej, hnp⟩
      have hij : (i : Nat) ≤ j := by
        by_contra hlt
        exact hnp (hpass j hlej (Nat.lt_of_not_le hlt))
      refine ⟨j, hj, by rw [hsw.1]; exact hij, ?_⟩
      rintro rfl
      refine ⟨hj.key, fun _ => .inl ?_⟩
      obtain ⟨m, t, hm, hts⟩ := h.wb_token hw
      obtain ⟨-, -, hstart, hle'⟩ := h.token hm
      rw [hts, Nat.mod_eq_of_lt (by omega)] at hstart
      exact ⟨t, by rw [hstart]; exact hm, hts⟩
    · intro sw₁ s k start done hwait
      cases hwait
      exact ⟨hsw.1, fun hdone => by rw [hsw.2.2]; simpa using hdone⟩

theorem FlushOk.flushWaited (hf : FlushOk S) (h : S.Wf) (hwrap : S.begun < 2 ^ 64) :
    FlushOk S.flushWaited := by
  unfold CacheSys.flushWaited
  split
  swap
  · exact hf
  rename_i sw s key' start done hfl
  split
  · exact hf
  rename_i hended
  obtain ⟨hslot, hsince⟩ := hf.waiting hfl
  -- every owed page stays owed under a sweep of the same flush that is not past its slot
  have resume : ∀ {sw' : Cache.FlushSweep}, sw'.dev = sw.dev → sw'.since = sw.since →
      (∀ {key n i}, Owed S key n → Owing S key n i → Ahead S.flush S key n i → sw'.slot ≤ i) →
      FlushOk { S with flush := .running sw' } := by
    intro sw' hdev hsin hle
    refine ⟨fun {key n} hn => ?_, fun hidle => (by cases hidle), fun hw => (by cases hw)⟩
    have ho := hf.owed hn
    refine ho.resumed (by rw [hfl]; rfl) hdev hsin rfl (ho.safe.imp id ?_)
    exact fun ⟨i, hi, ha⟩ => ⟨i, hi, hle ho hi ha⟩
  have reach : ∀ {key n i}, Ahead S.flush S key n i → sw.slot ≤ i := by
    intro key n i ha
    rw [hfl] at ha
    exact ha.1
  cases done with
  | false => exact resume rfl rfl fun _ _ ha => reach ha
  | true =>
    simp only [Cache.flushWaited]
    cases herr : S.cache.writebackError s key' start with
    | none =>
      refine resume rfl rfl fun {key n i} ho hi ha => ?_
      have hle := reach ha
      have hne : (i : Nat) ≠ s := by
        intro he
        obtain rfl := Fin.ext he
        rw [hfl] at ha
        obtain ⟨hk, hd⟩ := ha.2 rfl
        rcases hd rfl with ⟨t, ht, hts⟩ | ⟨e, he⟩
        · -- the writeback waited for would still be in flight
          obtain ⟨hwb, -, hstart, hle'⟩ := h.token ht
          rw [hts] at hwb hstart
          rw [Nat.mod_eq_of_lt (by omega)] at hstart
          exact hended (by
            have h₁ : (S.cache.metas i).flags.wb = true := hwb
            have h₂ : (S.cache.metas i).wbStart = start := hstart
            simp [Cache.writebackStart, h₁, h₂])
        · -- the slot kept its error
          have h₁ : (S.cache.metas i).key = key := hi.key
          have h₂ : (S.cache.metas i).flags.valid = true := hi.valid
          have h₃ : (S.cache.metas i).wbErr = some (start, e) := he
          simp [Cache.writebackError, h₁, h₂, h₃, hk] at herr
      change sw.slot + 1 ≤ i
      omega
    | some e =>
      dsimp only
      split
      · rename_i hr
        split at hr
        · cases hr
        · cases hr
          exact resume rfl rfl fun _ _ ha => reach ha
      · rename_i e' sw' hr
        refine ⟨fun {key n} hn => ?_, fun hidle => (by cases hidle), fun hw => (by cases hw)⟩
        have ho := hf.owed hn
        refine ⟨ho.le, fun hsw => (by cases hsw), fun hsw => (by cases hsw), ho.safe.imp id ?_⟩
        rintro ⟨i, hi, -⟩
        exact ⟨i, ⟨hi.valid, hi.key, hi.dirty⟩, trivial⟩

theorem begun_step [NeZero N] (S : CacheSys N) (a : CacheAct) : S.begun ≤ (S.step a).begun := by
  cases ha : clears a with
  | false =>
    obtain ⟨S₁, fl, ow, he, hS⟩ := step_effect S ha
    rw [hS]
    cases he with
    | began _ _ => exact Nat.le_succ _
    | rekeyed _ _ _ => simp [beginFill]
    | _ => exact Nat.le_refl _
  | true =>
    obtain ⟨S₁, fl, he, hS⟩ := step_cleared S ha
    rw [hS]
    cases he
    exact Nat.le_refl _

theorem flushOk_step [NeZero N] (hf : FlushOk S) (hv : Versioned S) (h : S.Wf)
    (hwrap : S.begun < 2 ^ 64) {a : CacheAct} (hno : ¬ Overwrites S (S.step a)) :
    FlushOk (S.step a) := by
  have keeps (he : Effect S (S.step a)) := flushOk_effect hf hv h hwrap he hno
  cases a with
  | read key off len => exact keeps (effect_read S key off len)
  | write key off src => exact keeps (effect_write S key off src)
  | devRead n => exact keeps (effect_devRead S n)
  | installRead n off len => exact keeps (effect_installRead S n off len)
  | installWrite n off src => exact keeps (effect_installWrite S n off src)
  | abortFill n => exact keeps (effect_abortFill S n)
  | takeDirty start dev => exact keeps (effect_takeDirty S start dev)
  | devWrite n => exact keeps (effect_devWrite S n _)
  | devFail n e left => exact keeps (effect_devWrite S n _)
  | endWriteback n => exact keeps (effect_endWriteback S n)
  | invalidate key => exact flushOk_cleared hf (cleared_invalidate S key) (.inl rfl)
  | dropDev dev => exact flushOk_cleared hf (cleared_dropDev S dev) (.inl rfl)
  | flushBegin dev => exact hf.flushBegin hv h hwrap dev
  | flushNext => exact hf.flushNext h hwrap
  | flushWaited => exact hf.flushWaited h hwrap
  | flushDrop =>
    simp only [step, flushDrop]
    split
    · rename_i sw dev hfl
      exact flushOk_cleared hf (cleared_dropDev S dev)
        (.inr ⟨sw, dev, hfl, rfl, fun key hk => if_pos hk⟩)
    · exact hf

theorem versioned_step [NeZero N] (hv : Versioned S) (h : S.Wf) (a : CacheAct) :
    Versioned (S.step a) := by
  cases ha : clears a with
  | false =>
    obtain ⟨S₁, fl, ow, he, hS⟩ := step_effect S ha
    obtain ⟨h₁, h₂, h₃, h₄⟩ := versioned_effect hv h he
    rw [hS]
    exact ⟨h₁, h₂, h₃, h₄⟩
  | true =>
    obtain ⟨S₁, fl, he, hS⟩ := step_cleared S ha
    obtain ⟨h₁, h₂, h₃, h₄⟩ := versioned_cleared hv h he
    rw [hS]
    exact ⟨h₁, h₂, h₃, h₄⟩

/-- No step of the run takes the error of the writeback a flush waits for from a slot that keeps the
page. -/
def Unambiguous [NeZero N] (device : CacheKey → Page) (acts : List CacheAct) : Prop :=
  ∀ i < acts.length,
    ¬ Overwrites (run device (acts.take i) : CacheSys N) (run device (acts.take (i + 1)))

theorem Unambiguous.init [NeZero N] {device : CacheKey → Page} {acts : List CacheAct} {a : CacheAct}
    (h : Unambiguous (N := N) device (acts ++ [a])) :
    Unambiguous (N := N) device acts ∧
      ¬ Overwrites (run device acts : CacheSys N) ((run device acts).step a) := by
  constructor
  · intro i hi
    have := h i (by simp only [List.length_append, List.length_singleton]; omega)
    rwa [List.take_append_of_le_length (Nat.le_of_lt hi), List.take_append_of_le_length hi] at this
  · have := h acts.length (by simp)
    rw [List.take_left, List.take_of_length_le (by simp), run_append] at this
    exact this

theorem flushOk_run [NeZero N] (device : CacheKey → Page) {acts : List CacheAct}
    (hu : Unambiguous (N := N) device acts)
    (hwrap : (run device acts : CacheSys N).begun < 2 ^ 64) :
    FlushOk (run device acts : CacheSys N) ∧ Versioned (run device acts : CacheSys N) := by
  induction acts using List.reverseRecOn with
  | nil => exact ⟨flushOk_init device, versioned_init device⟩
  | append_singleton acts a ih =>
    rw [run_append] at hwrap ⊢
    have hwrap' := Nat.lt_of_le_of_lt (begun_step _ a) hwrap
    obtain ⟨hinit, hlast⟩ := hu.init
    obtain ⟨hf, hv⟩ := ih hinit hwrap'
    have h := wf_run (N := N) device acts
    exact ⟨flushOk_step hf hv h hwrap' hlast, versioned_step hv h a⟩

/-- A finished flush leaves every page it owes written with `Ok`, in the version the page had when
the flush began or in a later one. -/
theorem finished_flush_is_durable [NeZero N] (device : CacheKey → Page) (acts : List CacheAct)
    (hu : Unambiguous (N := N) device acts)
    (hwrap : (run device acts : CacheSys N).begun < 2 ^ 64)
    (hfin : (run device acts : CacheSys N).flush = .finished) (key : CacheKey) (n : Nat)
    (hn : (run device acts : CacheSys N).owed key = some n) :
    Durable (run device acts : CacheSys N) key n := by
  rcases ((flushOk_run device hu hwrap).1.owed hn).safe with hd | ⟨i, -, ha⟩
  · exact hd
  · rw [hfin] at ha
    cases ha

/-- A page written, a flush begun, and a background writeback of the page under way
for the flush to wait on. -/
def flushMeetsWriteback : List CacheAct :=
  [.write ⟨0, 0⟩ 0 [5], .devRead 0, .installWrite 0 0 [5], .flushBegin (some 0),
    .takeDirty 0 none, .flushNext, .devFail 1 .io fun _ => 0, .endWriteback 1]

/-- The flush asks the slot again and writes the page itself. -/
def flushRetries : List CacheAct :=
  flushMeetsWriteback ++ [.flushWaited, .flushNext, .devWrite 2, .endWriteback 2, .flushNext]

theorem unambiguous_flushRetries : Unambiguous (N := 1) (fun _ _ => 0) flushRetries := by
  unfold Unambiguous
  decide +kernel

theorem retried_flush_is_durable :
    (run (fun _ _ => 0) flushRetries : CacheSys 1).owed ⟨0, 0⟩ = some 1 ∧
      Durable (run (fun _ _ => 0) flushRetries : CacheSys 1) ⟨0, 0⟩ 1 :=
  ⟨by decide +kernel, finished_flush_is_durable _ _ unambiguous_flushRetries
    (by decide +kernel) (by decide +kernel) _ _ (by decide +kernel)⟩

/-- Before the flush looks, a second writeback of the same page begins and fails too. -/
def failsTwice : List CacheAct :=
  flushMeetsWriteback ++
    [.takeDirty 0 none, .devFail 2 .io fun _ => 0, .endWriteback 2, .flushWaited, .flushNext]

/-- The slot keeps the second error only, so the flush takes the first writeback for a
good one and finishes, with nothing written and the page still dirty. -/
theorem flush_finishes_after_two_failures :
    (run (fun _ _ => 0) failsTwice : CacheSys 1).flush = .finished ∧
      (run (fun _ _ => 0) failsTwice : CacheSys 1).owed ⟨0, 0⟩ = some 1 ∧
      (run (fun _ _ => 0) failsTwice : CacheSys 1).okWrites = [] ∧
      ((run (fun _ _ => 0) failsTwice : CacheSys 1).slot 0).dirty = true :=
  ⟨by decide +kernel, by decide +kernel, List.eq_nil_of_length_eq_zero (by decide +kernel),
    by decide +kernel⟩

end VibeOS.Block.CacheSys
