import VibeOS.Block.CacheSystem

/-!
The kinds of change a step can make. `Effect` lists them once, each with what the
operation checked before; every invariant is then a case analysis on `Effect`. The
flush's own calls change the flush beside that.
-/
namespace VibeOS.Block.CacheSys
variable {N : Nat} {S : CacheSys N}

/-- A fill's slot was given up: nothing changed when it was taken back already. -/
def Released (c c' : Cache N) (f : Fill N) : Prop :=
  (¬ c.Filling f ∧ c' = c) ∨
    c.Filling f ∧ c.Changed c' f.slot (Slot.cleared (c.slot f.slot) false)

inductive Effect (S : CacheSys N) : CacheSys N → Prop
  | quiet {c} (h : S.cache.Same c) : Effect S { S with cache := c }
  | hit {c i key off len} (h : S.cache.Same c) (hk : (S.slot i).key = key)
      (hv : (S.slot i).valid = true) (hlen : off + len ≤ pageSize) :
      Effect S (S.readBack c key off ((S.slot i).data.slice off len))
  | began {c i} (h : S.cache.Begun c i) (hd : (S.slot i).Due) :
      Effect S (S.beginWb c i (S.slot i).key (S.slot i).data)
  | rekeyed {c i key} (h : S.cache.Changed c i (Slot.filling (S.slot i) key))
      (hnone : ∀ j, ¬ (S.slot j).Holds key) (hs : (S.slot i).Spare) :
      Effect S (S.beginFill c ⟨i, key, .read, key⟩ none)
  | wrote {c i key off src}
      (h : S.cache.Changed c i
        { S.slot i with dirty := true, data := (S.slot i).data.write off src })
      (hk : (S.slot i).key = key) (hv : (S.slot i).valid = true) (hf : (S.slot i).fill = false) :
      Effect S (S.wrote c ⟨key, off, src⟩)
  | wroteWhole {c i key src}
      (h : S.cache.Changed c i
        (Slot.holding (S.slot i) key ((S.slot i).data.write 0 src) true))
      (hnone : ∀ j, ¬ (S.slot j).Holds key) (hs : (S.slot i).Spare)
      (hlen : src.length = pageSize) :
      Effect S (S.wrote c ⟨key, 0, src⟩)
  | devRead {n t} (hn : S.fills n = some t) :
      Effect S { S with
        fills := Function.update S.fills n (some { t with page := some (S.device t.fill.key) }) }
  | installed {n f page off len c} (hn : S.fills n = some ⟨f, some page⟩) (hf : S.cache.Filling f)
      (h : S.cache.Changed c f.slot (Slot.holding (S.slot f.slot) f.key page false))
      (hlen : off + len ≤ pageSize) :
      Effect S ((S.endFill n).readBack c f.key off (page.slice off len))
  | passed {n f page off len} (hn : S.fills n = some ⟨f, some page⟩) (hf : ¬ S.cache.Filling f) :
      Effect S ((S.endFill n).readBack S.cache f.key off (page.slice off len))
  | merged {n f page off src c} (hn : S.fills n = some ⟨f, some page⟩) (hf : S.cache.Filling f)
      (h : S.cache.Changed c f.slot
        (Slot.holding (S.slot f.slot) f.key (page.write off src) true)) :
      Effect S ((S.endFill n).wrote c ⟨f.key, off, src⟩)
  | released {n t c} (hn : S.fills n = some t) (h : Released S.cache c t.fill) :
      Effect S { S.endFill n with cache := c }
  | devOk {n t} (hn : S.wbs n = some t) (hr : t.result = none) :
      Effect S { S with
        device := Function.update S.device t.key t.page
        okWrites := S.okWrites ++ [(t.key, t.version, t.page)]
        wbs := Function.update S.wbs n (some { t with result := some (.ok ()) }) }
  | devErr {n t e left} (hn : S.wbs n = some t) (hr : t.result = none) :
      Effect S { S with
        device := Function.update S.device t.key left
        wbs := Function.update S.wbs n (some { t with result := some (.error e) }) }
  | ended {n t res c} (hn : S.wbs n = some t) (hr : t.result = some res)
      (h : ((S.slot t.slot).wb = false ∧ c = S.cache) ∨ (S.slot t.slot).wb = true ∧
        S.cache.Changed c t.slot (Slot.ended (S.slot t.slot) t.key res)) :
      Effect S { S with
        cache := c
        wbs := Function.update S.wbs n none
        flush := flushEnded S.flush n t.key res }

/-- What an invalidation can do: slots are cleared, and the flush no longer owes
their pages. -/
inductive Cleared (S : CacheSys N) : CacheSys N → Prop
  | intro {c owed} (hseq : c.wbSeq = S.cache.wbSeq)
      (h : ∀ i, c.slot i = S.slot i ∨ c.slot i = Slot.cleared (S.slot i) (S.slot i).wb ∧
        owed (S.slot i).key = none)
      (ho : ∀ key, owed key = S.owed key ∨ owed key = none) :
      Cleared S { S with cache := c, owed := owed }

theorem Cleared.id (S : CacheSys N) : Cleared S S :=
  .intro rfl (fun _ => .inl rfl) fun _ => .inl rfl

theorem Effect.id (S : CacheSys N) : Effect S S := .quiet (.refl _)

section
variable [NeZero N]

omit [NeZero N] in
theorem effect_beginFill {S : CacheSys N} {key : CacheKey} {f : Fill N} {evict : Option Page}
    {c : Cache N} (h : S.cache.FillPlan key f evict c) : Effect S (S.beginFill c f evict) := by
  cases h with
  | wait h hn =>
    simp only [beginFill, hn, reduceCtorEq, if_false]
    exact .quiet h
  | writeback h hd => exact .began h hd
  | read h hnone hs => exact .rekeyed h hnone hs

theorem effect_read (S : CacheSys N) (key : CacheKey) (off len : Nat) :
    Effect S (S.read key off len) := by
  have h := S.cache.planRead_spec key off len
  unfold CacheSys.read
  generalize S.cache.planRead key off len = r at h
  cases h with
  | error h => exact .quiet h
  | fill h => exact effect_beginFill h
  | hit h hk hv hf hlen => exact .hit h hk hv hlen

theorem effect_write (S : CacheSys N) (key : CacheKey) (off : Nat) (src : List UInt8) :
    Effect S (S.write key off src) := by
  have h := S.cache.planWrite_spec key off src
  unfold CacheSys.write
  generalize S.cache.planWrite key off src = r at h
  cases h with
  | error h => exact .quiet h
  | fill h => exact effect_beginFill h
  | hit h hk hv hf _ => exact .wrote h hk hv hf
  | whole h hnone hs hoff hlen =>
    subst hoff
    exact .wroteWhole h hnone hs hlen

end

theorem effect_abortFill (S : CacheSys N) (n : Nat) : Effect S (S.abortFill n) := by
  unfold CacheSys.abortFill
  split
  · rename_i t hn
    exact .released hn (S.cache.abortFill_spec t.fill)
  · exact .id S

theorem effect_devRead (S : CacheSys N) (n : Nat) : Effect S (S.devRead n) := by
  unfold CacheSys.devRead
  split
  · rename_i t hn
    exact .devRead hn
  · exact .id S

theorem effect_installRead (S : CacheSys N) (n off len : Nat) :
    Effect S (S.installRead n off len) := by
  unfold CacheSys.installRead
  split
  · rename_i f page hn
    rcases S.cache.installRead_spec f page off len with ⟨e, he⟩ | ⟨c, hc, hlen, ⟨hf, rfl⟩ | ⟨hf, h⟩⟩
    · simp only [he]
      exact .released hn (S.cache.abortFill_spec f)
    · simp only [hc]
      exact .passed hn hf
    · simp only [hc]
      exact .installed hn hf h hlen
  · exact .id S

theorem effect_installWrite (S : CacheSys N) (n off : Nat) (src : List UInt8) :
    Effect S (S.installWrite n off src) := by
  unfold CacheSys.installWrite
  split
  · rename_i f page hn
    rcases S.cache.installWrite_spec f page off src with
      ⟨e, he⟩ | ⟨hf, hc⟩ | ⟨c, hc, hf, -, h⟩
    · simp only [he]
      exact .released hn (S.cache.abortFill_spec f)
    · simp only [hc]
      exact .released hn (.inl ⟨hf, rfl⟩)
    · simp only [hc]
      exact .merged hn hf h
  · exact .id S

theorem effect_takeDirty (S : CacheSys N) (start : Nat) (dev : Option Nat) :
    Effect S (S.takeDirty start dev) := by
  unfold CacheSys.takeDirty
  rcases S.cache.takeDirty_spec start dev with hc | ⟨i, c, hc, h, hd⟩
  · simp only [hc]
    exact .id S
  · simp only [hc]
    exact .began h hd

theorem effect_devWrite (S : CacheSys N) (n : Nat) (res : Except (BlockError × Page) Unit) :
    Effect S (S.devWrite n res) := by
  unfold CacheSys.devWrite
  split
  · rename_i t hn
    split
    · rename_i hr
      exact .devOk hn hr
    · rename_i hr
      exact .devErr hn hr
    · exact .id S
  · exact .id S

theorem effect_endWriteback (S : CacheSys N) (n : Nat) : Effect S (S.endWriteback n) := by
  unfold CacheSys.endWriteback
  split
  · rename_i t hn
    split
    · rename_i res hr
      exact .ended hn hr (S.cache.endWriteback_spec t.slot t.key res)
    · exact .id S
  · exact .id S

theorem cleared_dropDev (S : CacheSys N) (dev : Nat) : Cleared S (S.dropDev dev) := by
  refine .intro rfl ?_ ?_
  · intro i
    rw [Cache.slot_dropDev]
    by_cases h : (S.slot i).key.dev = dev
    · exact .inr ⟨if_pos h, if_pos h⟩
    · exact .inl (if_neg h)
  · intro key
    by_cases h : key.dev = dev
    · exact .inr (if_pos h)
    · exact .inl (if_neg h)

theorem cleared_invalidate (S : CacheSys N) (key : CacheKey) : Cleared S (S.invalidate key) := by
  have howed : ∀ k, Function.update S.owed key none k = S.owed k ∨
      Function.update S.owed key none k = none := by
    intro k
    by_cases h : k = key
    · subst h
      exact .inr (by simp)
    · exact .inl (by simp [h])
  rcases S.cache.invalidate_spec key with ⟨hc, -⟩ | ⟨i, ⟨-, hk⟩, h⟩
  · exact .intro (by rw [hc]) (fun i => .inl (by rw [hc])) howed
  · refine .intro h.seq (fun j => ?_) howed
    rw [h.slot]
    by_cases hj : j = i
    · subst hj
      exact .inr ⟨by simp, by rw [hk]; simp⟩
    · exact .inl (by simp [hj])

/-- The steps that drop pages without a writeback. -/
def clears : CacheAct → Bool
  | .invalidate _ | .dropDev _ | .flushDrop => true
  | _ => false

/-- Every step that drops no page is an effect, with the flush's own state changed by
its calls. -/
theorem step_effect [NeZero N] (S : CacheSys N) {a : CacheAct} (ha : clears a = false) :
    ∃ S₁ fl ow, Effect S S₁ ∧ S.step a = { S₁ with flush := fl, owed := ow } := by
  have same : ∀ {S₁ : CacheSys N}, Effect S S₁ →
      ∃ S₂ fl ow, Effect S S₂ ∧ S₁ = { S₂ with flush := fl, owed := ow } :=
    fun {S₁} h => ⟨S₁, S₁.flush, S₁.owed, h, rfl⟩
  cases a with
  | read key off len => exact same (effect_read S key off len)
  | write key off src => exact same (effect_write S key off src)
  | devRead n => exact same (effect_devRead S n)
  | installRead n off len => exact same (effect_installRead S n off len)
  | installWrite n off src => exact same (effect_installWrite S n off src)
  | abortFill n => exact same (effect_abortFill S n)
  | takeDirty start dev => exact same (effect_takeDirty S start dev)
  | devWrite n => exact same (effect_devWrite S n _)
  | devFail n e left => exact same (effect_devWrite S n _)
  | endWriteback n => exact same (effect_endWriteback S n)
  | invalidate key | dropDev dev | flushDrop => cases ha
  | flushBegin dev =>
    simp only [step, flushBegin]
    split
    · exact ⟨S, _, _, .id S, rfl⟩
    · exact same (.id S)
  | flushNext =>
    simp only [step, flushNext]
    split
    · rename_i sw hfl
      have h := S.cache.flushNext_spec sw
      generalize S.cache.flushNext sw = r at h
      cases h with
      | finish _ => exact ⟨S, _, S.owed, .id S, rfl⟩
      | write h _ _ hd _ => exact ⟨_, _, S.owed, .began h hd, rfl⟩
      | wait _ _ _ _ => exact ⟨S, _, S.owed, .id S, rfl⟩
    · exact same (.id S)
  | flushWaited =>
    simp only [step, flushWaited]
    repeat' split
    all_goals exact ⟨S, _, S.owed, .id S, rfl⟩

theorem step_cleared [NeZero N] (S : CacheSys N) {a : CacheAct} (ha : clears a = true) :
    ∃ S₁ fl, Cleared S S₁ ∧ S.step a = { S₁ with flush := fl } := by
  cases a with
  | invalidate key => exact ⟨_, S.flush, cleared_invalidate S key, rfl⟩
  | dropDev dev => exact ⟨_, S.flush, cleared_dropDev S dev, rfl⟩
  | flushDrop =>
    simp only [step, flushDrop]
    split
    · rename_i sw dev hfl
      exact ⟨_, _, cleared_dropDev S dev, rfl⟩
    · exact ⟨S, S.flush, .id S, rfl⟩
  | _ => cases ha

end VibeOS.Block.CacheSys
