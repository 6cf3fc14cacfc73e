import Mathlib.Data.List.Induction
import VibeOS.Block.CacheStep

/-!
What holds of the slots and the writebacks in every run, invalidations included:
a key has one slot, a slot in writeback has one writeback that carries its key and
number, and a slot being filled is neither valid nor in writeback.
-/
namespace VibeOS.Block.CacheSys
open Lib

variable {N : Nat} {S S' : CacheSys N}

structure Wf (S : CacheSys N) : Prop where
  unique : ∀ {i j key}, (S.slot i).Holds key → (S.slot j).Holds key → i = j
  dirty_valid : ∀ {i}, (S.slot i).dirty = true → (S.slot i).valid = true
  fill_free : ∀ {i}, (S.slot i).fill = true → (S.slot i).valid = false ∧ (S.slot i).wb = false
  seq : S.cache.wbSeq = S.begun % 2 ^ 64
  wb_token : ∀ {i}, (S.slot i).wb = true → ∃ n t, S.wbs n = some t ∧ t.slot = i
  token : ∀ {n t}, S.wbs n = some t → (S.slot t.slot).wb = true ∧ (S.slot t.slot).key = t.key ∧
    (S.slot t.slot).start = n % 2 ^ 64 ∧ n ≤ S.begun
  token_inj : ∀ {n n' t t'}, S.wbs n = some t → S.wbs n' = some t' → t.slot = t'.slot → n = n'

theorem wf_init [NeZero N] (device : CacheKey → Page) : (init device : CacheSys N).Wf := by
  have hslot : ∀ i, ((init device : CacheSys N).slot i).valid = false ∧
      ((init device : CacheSys N).slot i).fill = false ∧
      ((init device : CacheSys N).slot i).dirty = false ∧
      ((init device : CacheSys N).slot i).wb = false := fun _ => ⟨rfl, rfl, rfl, rfl⟩
  constructor
  · intro i j key h
    simp [Slot.Holds, hslot] at h
  · intro i h
    simp [hslot] at h
  · intro i h
    simp [hslot] at h
  · rfl
  · intro i h
    simp [hslot] at h
  · intro n t h
    cases h
  · intro n n' t t' h
    cases h

variable {n n' : Nat} {t t' : WbToken N} {i : Fin N} {c : Cache N}

theorem Wf.token_ne (h : S.Wf) (hn : S.wbs n = some t) (hw : (S.slot i).wb = false) :
    t.slot ≠ i := by
  rintro rfl
  cases hw.symm.trans (h.token hn).1

theorem Wf.token_began (h : S.Wf) {key : CacheKey} {page : Page} (hw : (S.slot i).wb = false)
    (hn : (S.beginWb c i key page).wbs n = some t) :
    n = S.begun + 1 ∧ t = ⟨i, key, page, (S.versions key).length, none⟩ ∨
      S.wbs n = some t ∧ t.slot ≠ i := by
  rcases update_eq_iff.mp hn with ⟨rfl, he⟩ | ⟨-, hn⟩
  · exact .inl ⟨rfl, (Option.some.inj he).symm⟩
  · exact .inr ⟨hn, h.token_ne hn hw⟩

theorem Wf.token_ended (h : S.Wf) (hn : S.wbs n = some t)
    (hn' : Function.update S.wbs n none n' = some t') :
    S.wbs n' = some t' ∧ t'.slot ≠ t.slot := by
  obtain ⟨e, hn'⟩ := update_none_eq_some.mp hn'
  exact ⟨hn', fun hs => e (h.token_inj hn' hn hs)⟩

theorem Wf.ends (h : S.Wf) (hn : S.wbs n = some t) {P Q R : Prop}
    (hw : (S.slot t.slot).wb = false ∧ P ∨ Q ∧ R) : R :=
  hw.elim (fun hw => absurd rfl (h.token_ne hn hw.1)) And.right

/-- One slot changed without a writeback of it beginning or ending. -/
structure Kept (s s' : Slot) : Prop where
  wb : s'.wb = s.wb
  key : s.wb = true → s'.key = s.key ∧ s'.start = s.start
  dirty : s'.dirty = true → s'.valid = true
  fill : s'.fill = true → s'.valid = false ∧ s'.wb = false

theorem Kept.holding {s : Slot} (hw : s.wb = false) (key : CacheKey) (p : Page) (dirty : Bool) :
    Kept s (s.holding key p dirty) :=
  ⟨by simp [Slot.holding, hw], by simp [hw], by simp [Slot.holding], by simp [Slot.holding]⟩

theorem Wf.kept_self (h : S.Wf) (i : Fin N) : Kept (S.slot i) (S.slot i) :=
  ⟨rfl, fun _ => ⟨rfl, rfl⟩, h.dirty_valid, h.fill_free⟩

/-- The writebacks of two states carry the same slots and keys. -/
def SameTokens (S S' : CacheSys N) : Prop :=
  ∀ n, (S'.wbs n).map (fun t => (t.slot, t.key)) = (S.wbs n).map fun t => (t.slot, t.key)

theorem SameTokens.some (h : SameTokens S S') (hn : S'.wbs n = some t) :
    ∃ t₀, S.wbs n = some t₀ ∧ t₀.slot = t.slot ∧ t₀.key = t.key := by
  have := h n
  rw [hn, Option.map_some, eq_comm, Option.map_eq_some_iff] at this
  obtain ⟨t₀, ht₀, he⟩ := this
  exact ⟨t₀, ht₀, (Prod.mk.inj he).1, (Prod.mk.inj he).2⟩

theorem SameTokens.symm (h : SameTokens S S') : SameTokens S' S := fun n => (h n).symm

theorem Wf.kept (h : S.Wf) (hk : ∀ i, Kept (S.slot i) (S'.slot i))
    (hu : ∀ {i j key}, (S'.slot i).Holds key → (S'.slot j).Holds key → i = j)
    (hs : S'.cache.wbSeq = S.cache.wbSeq) (hb : S'.begun = S.begun) (ht : SameTokens S S') :
    S'.Wf where
  unique := hu
  dirty_valid {i} := (hk i).dirty
  fill_free {i} := (hk i).fill
  seq := by rw [hs, hb, h.seq]
  wb_token {i} hi := by
    rw [(hk i).wb] at hi
    obtain ⟨n, t₀, hn, hts⟩ := h.wb_token hi
    obtain ⟨t, hn', hs', -⟩ := ht.symm.some hn
    exact ⟨n, t, hn', by rw [hs', hts]⟩
  token {n t} hn := by
    obtain ⟨t₀, hn₀, hs₀, hk₀⟩ := ht.some hn
    obtain ⟨hw, hkey, hstart, hle⟩ := h.token hn₀
    rw [hs₀] at hw hkey hstart
    obtain ⟨hk', hst'⟩ := (hk t.slot).key hw
    exact ⟨(hk t.slot).wb.trans hw, by rw [hk', hkey, hk₀], by rw [hst', hstart],
      by rw [hb]; exact hle⟩
  token_inj {n n' t t'} hn hn' he := by
    obtain ⟨t₀, hn₀, hs₀, -⟩ := ht.some hn
    obtain ⟨t₁, hn₁, hs₁, -⟩ := ht.some hn'
    exact h.token_inj hn₀ hn₁ (by rw [hs₀, hs₁, he])

theorem Wf.changed (h : S.Wf) {s : Slot} (hc : S.cache.Changed c i s) (hcache : S'.cache = c)
    (hk : Kept (S.slot i) s)
    (hh : ∀ {key}, s.Holds key → (S.slot i).Holds key ∨ ∀ j, ¬ (S.slot j).Holds key)
    (hb : S'.begun = S.begun) (ht : SameTokens S S') : S'.Wf := by
  have hslot : ∀ j, S'.slot j = if j = i then s else S.slot j := by
    intro j
    rw [slot, hcache, hc.slot, Function.update_apply]
  have hold : ∀ {j key}, (S'.slot j).Holds key →
      (S.slot j).Holds key ∨ j = i ∧ ∀ j, ¬ (S.slot j).Holds key := by
    intro j key hj
    rw [hslot] at hj
    split at hj
    · rename_i e
      subst e
      exact (hh hj).imp id fun hn => ⟨rfl, hn⟩
    · exact .inl hj
  refine h.kept (fun j => ?_) ?_ (by rw [hcache, hc.seq]) hb ht
  · rw [hslot]
    split
    · rename_i e
      subst e
      exact hk
    · exact h.kept_self j
  · intro j j' key hj hj'
    rcases hold hj with hj | ⟨rfl, hn⟩ <;> rcases hold hj' with hj' | ⟨rfl, hn'⟩
    · exact h.unique hj hj'
    · exact absurd hj (hn' j)
    · exact absurd hj' (hn j')
    · rfl

theorem Wf.same (h : S.Wf) (hc : S.cache.Same c) (hcache : S'.cache = c) (hb : S'.begun = S.begun)
    (ht : SameTokens S S') : S'.Wf := by
  have hslot : ∀ j, S'.slot j = S.slot j := by
    intro j
    rw [slot, hcache, hc.slot]
  refine h.kept (fun j => by rw [hslot]; exact h.kept_self j) ?_ (by rw [hcache, hc.seq]) hb ht
  simp only [hslot]
  exact h.unique

theorem Wf.began (h : S.Wf) (hc : S.cache.Begun c i) (hd : (S.slot i).Due) :
    (S.beginWb c i (S.slot i).key (S.slot i).data).Wf := by
  set S' := S.beginWb c i (S.slot i).key (S.slot i).data with hS'
  have hself : S'.slot i =
      { S.slot i with wb := true, dirty := false, start := (S.cache.wbSeq + 1) % 2 ^ 64 } := hc.self
  have hother : ∀ {j}, j ≠ i → S'.slot j = S.slot j := hc.other
  have hnew : S.wbs (S.begun + 1) = none := by
    cases hn : S.wbs (S.begun + 1) with
    | none => rfl
    | some t =>
      have := (h.token hn).2.2.2
      omega
  constructor
  · intro j j' key hj hj'
    have hold : ∀ {j}, (S'.slot j).Holds key → (S.slot j).Holds key := by
      intro j hj
      by_cases e : j = i
      · subst e
        rw [hself] at hj
        exact hj
      · rwa [hother e] at hj
    exact h.unique (hold hj) (hold hj')
  · intro j hj
    by_cases e : j = i
    · subst e
      rw [hself]
      exact hd.valid
    · rw [hother e] at hj ⊢
      exact h.dirty_valid hj
  · intro j hj
    by_cases e : j = i
    · subst e
      rw [hself] at hj
      rw [hd.idle.1] at hj
      cases hj
    · rw [hother e] at hj ⊢
      exact h.fill_free hj
  · rw [hS']
    simp only [beginWb, hc.seq, h.seq]
    omega
  · intro j hj
    by_cases e : j = i
    · exact ⟨S.begun + 1, _, by simp [hS', beginWb]; rfl, e.symm⟩
    · rw [hother e] at hj
      obtain ⟨n, t, hn, ht⟩ := h.wb_token hj
      refine ⟨n, t, ?_, ht⟩
      have hne : n ≠ S.begun + 1 := by
        rintro rfl
        rw [hnew] at hn
        cases hn
      simpa [hS', beginWb, hne] using hn
  · intro n t hn
    rcases h.token_began hd.idle.2 hn with ⟨rfl, rfl⟩ | ⟨hn, hti⟩
    · rw [hself]
      exact ⟨rfl, rfl, by simp only [h.seq]; omega, Nat.le_refl _⟩
    · rw [hother hti]
      obtain ⟨h₁, h₂, h₃, hle⟩ := h.token hn
      exact ⟨h₁, h₂, h₃, Nat.le_succ_of_le hle⟩
  · intro n n' t t' hn hn' he
    rcases h.token_began hd.idle.2 hn with ⟨rfl, rfl⟩ | ⟨hn, hti⟩ <;>
      rcases h.token_began hd.idle.2 hn' with ⟨rfl, rfl⟩ | ⟨hn', hti'⟩
    · rfl
    · exact absurd he.symm hti'
    · exact absurd he hti
    · exact h.token_inj hn hn' he

theorem Slot.ended_cases (s : Slot) (key : CacheKey) (res : Except BlockError Unit) :
    (Slot.ended s key res).key = s.key ∧ (Slot.ended s key res).valid = s.valid ∧
      (Slot.ended s key res).fill = s.fill ∧ (Slot.ended s key res).wb = false ∧
      (Slot.ended s key res).data = s.data ∧ (Slot.ended s key res).start = s.start ∧
      ((Slot.ended s key res).dirty = true → s.dirty = true ∨ s.valid = true) := by
  cases res with
  | ok u => exact ⟨rfl, rfl, rfl, rfl, rfl, rfl, .inl⟩
  | error e =>
    unfold Slot.ended
    dsimp only
    split
    · rename_i hc
      exact ⟨rfl, rfl, rfl, rfl, rfl, rfl, fun _ => .inr hc.2⟩
    · exact ⟨rfl, rfl, rfl, rfl, rfl, rfl, .inl⟩

theorem Wf.ended (h : S.Wf) {res : Except BlockError Unit} (hn : S.wbs n = some t)
    (hc : S.cache.Changed c t.slot (Slot.ended (S.slot t.slot) t.key res)) (fl : FlushState N) :
    ({ S with cache := c, wbs := Function.update S.wbs n none, flush := fl } : CacheSys N).Wf := by
  set S' : CacheSys N :=
    { S with cache := c, wbs := Function.update S.wbs n none, flush := fl } with hS'
  obtain ⟨hkey, hvalid, hfill, hwb, -, -, hdirty⟩ := Slot.ended_cases (S.slot t.slot) t.key res
  have hself : S'.slot t.slot = Slot.ended (S.slot t.slot) t.key res := hc.self
  have hother : ∀ {j}, j ≠ t.slot → S'.slot j = S.slot j := hc.other
  constructor
  · intro j j' key hj hj'
    have hold : ∀ {j}, (S'.slot j).Holds key → (S.slot j).Holds key := by
      intro j hj
      by_cases e : j = t.slot
      · subst e
        rw [hself, Slot.Holds, hkey, hvalid, hfill] at hj
        exact hj
      · rwa [hother e] at hj
    exact h.unique (hold hj) (hold hj')
  · intro j hj
    by_cases e : j = t.slot
    · subst e
      rw [hself] at hj ⊢
      rw [hvalid]
      exact (hdirty hj).elim h.dirty_valid id
    · rw [hother e] at hj ⊢
      exact h.dirty_valid hj
  · intro j hj
    by_cases e : j = t.slot
    · subst e
      rw [hself, hfill] at hj
      rw [hself, hvalid]
      exact ⟨(h.fill_free hj).1, hwb⟩
    · rw [hother e] at hj ⊢
      exact h.fill_free hj
  · rw [hS']
    simp only [hc.seq, h.seq]
  · intro j hj
    have e : j ≠ t.slot := by
      rintro rfl
      rw [hself, hwb] at hj
      cases hj
    rw [hother e] at hj
    obtain ⟨n', t', hn', ht'⟩ := h.wb_token hj
    have hne : n' ≠ n := by
      rintro rfl
      rw [hn, Option.some.injEq] at hn'
      exact e (hn' ▸ ht'.symm)
    exact ⟨n', t', by simpa [hS', hne] using hn', ht'⟩
  · intro n' t' hn'
    obtain ⟨hn', hts⟩ := h.token_ended hn hn'
    rw [hother hts]
    exact h.token hn'
  · intro n₁ n₂ t₁ t₂ h₁ h₂
    exact h.token_inj (h.token_ended hn h₁).1 (h.token_ended hn h₂).1

theorem sameTokens_of_eq (h : S'.wbs = S.wbs) : SameTokens S S' := fun n => by rw [h]

theorem sameTokens_result (hn : S.wbs n = some t) (h : S'.wbs = Function.update S.wbs n (some t'))
    (hs : t'.slot = t.slot) (hk : t'.key = t.key) :
    SameTokens S S' := by
  intro n'
  rw [h]
  by_cases e : n' = n
  · subst e
    simp [hn, hs, hk]
  · rw [Function.update_of_ne e]

theorem wf_effect (h : S.Wf) (he : Effect S S') : S'.Wf := by
  cases he with
  | quiet hc | hit hc _ _ _ => exact h.same hc rfl rfl (sameTokens_of_eq rfl)
  | began hc hd => exact h.began hc hd
  | rekeyed hc hnone hs =>
    have hw := hs.idle.2
    refine h.changed hc rfl ⟨by simp [Slot.filling, hw], by simp [hw], by simp [Slot.filling],
      by simp [Slot.filling]⟩ ?_ rfl (sameTokens_of_eq rfl)
    rintro key ⟨-, rfl⟩
    exact .inr hnone
  | wrote hc hk hv hf =>
    refine h.changed hc rfl ⟨rfl, fun _ => ⟨rfl, rfl⟩, fun _ => hv, by simp [hf]⟩ ?_ rfl
      (sameTokens_of_eq rfl)
    exact fun hh => .inl hh
  | wroteWhole hc hnone hs hlen =>
    refine h.changed hc rfl (.holding hs.idle.2 ..) ?_ rfl (sameTokens_of_eq rfl)
    rintro key ⟨-, rfl⟩
    exact .inr hnone
  | devRead hn | passed hn _ => exact h.same (.refl _) rfl rfl (sameTokens_of_eq rfl)
  | installed hn hf hc _ | merged hn hf hc =>
    refine h.changed hc rfl (.holding (h.fill_free hf.2).2 ..) ?_ rfl (sameTokens_of_eq rfl)
    rintro key ⟨-, rfl⟩
    exact .inl ⟨.inr hf.2, hf.1⟩
  | released hn hr =>
    rcases hr with ⟨-, rfl⟩ | ⟨hf, hc⟩
    · exact h.same (.refl _) rfl rfl (sameTokens_of_eq rfl)
    · have hw := (h.fill_free hf.2).2
      refine h.changed hc rfl ⟨by simp [Slot.cleared, hw], by simp [hw], by simp [Slot.cleared],
        by simp [Slot.cleared]⟩ ?_ rfl (sameTokens_of_eq rfl)
      rintro key ⟨hh, -⟩
      simp [Slot.cleared] at hh
  | devOk hn hr | devErr hn hr => exact h.same (.refl _) rfl rfl (sameTokens_result hn rfl rfl rfl)
  | ended hn hr hc => exact h.ended hn (h.ends hn hc) _

theorem wf_cleared (h : S.Wf) (he : Cleared S S') : S'.Wf := by
  cases he with
  | @intro c owed hseq hc ho =>
    have hold : ∀ {i key}, (c.slot i).Holds key → (S.slot i).Holds key := by
      intro i key hi
      rcases hc i with h' | ⟨h', -⟩ <;> rw [h'] at hi
      · exact hi
      · simp [Slot.cleared, Slot.Holds] at hi
    refine h.kept (fun i => ?_) ?_ hseq rfl (sameTokens_of_eq rfl)
    · rcases hc i with hi | ⟨hi, -⟩ <;> simp only [slot] at hi ⊢ <;> rw [hi]
      · exact h.kept_self i
      · exact ⟨rfl, fun _ => ⟨rfl, rfl⟩, by simp [Slot.cleared], by simp [Slot.cleared]⟩
    · exact fun hi hj => h.unique (hold hi) (hold hj)

theorem wf_step [NeZero N] (h : S.Wf) (a : CacheAct) : (S.step a).Wf := by
  have congr : ∀ {S₁ : CacheSys N} {fl ow}, S₁.Wf →
    ({ S₁ with flush := fl, owed := ow } : CacheSys N).Wf :=
    fun h₁ => ⟨h₁.unique, h₁.dirty_valid, h₁.fill_free, h₁.seq, h₁.wb_token, h₁.token, h₁.token_inj⟩
  cases ha : clears a with
  | false =>
    obtain ⟨S₁, fl, ow, he, hS⟩ := step_effect S ha
    rw [hS]
    exact congr (wf_effect h he)
  | true =>
    obtain ⟨S₁, fl, he, hS⟩ := step_cleared S ha
    rw [hS]
    exact congr (wf_cleared h he)

theorem run_append [NeZero N] (device : CacheKey → Page) (acts : List CacheAct) (a : CacheAct) :
    (run device (acts ++ [a]) : CacheSys N) = (run device acts).step a := by
  simp [run]

theorem wf_run [NeZero N] (device : CacheKey → Page) (acts : List CacheAct) :
    (run device acts : CacheSys N).Wf := by
  induction acts using List.reverseRecOn with
  | nil => exact wf_init device
  | append_singleton acts a ih =>
    rw [run_append]
    exact wf_step ih a

end VibeOS.Block.CacheSys
