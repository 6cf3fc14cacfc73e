import VibeOS.Block.CacheInvariant

/-!
The cache and its device are one memory. `Coherent M S` relates the state to a plain
map `M` from keys to pages: a valid slot holds `M`'s page, and where no dirty or
written-back slot stands for a key the device holds it. A completed write updates
`M`, every other step keeps it, and every byte read comes from it.
-/
namespace VibeOS.Block.CacheSys
open Lib

variable {N : Nat} {S S' : CacheSys N} {M : CacheKey → Page}

def store (M : CacheKey → Page) (w : Write) : CacheKey → Page :=
  Function.update M w.key ((M w.key).write w.off w.src)

/-- The memory after the writes, each over the ones before it. -/
def replay (M : CacheKey → Page) (ws : List Write) : CacheKey → Page := ws.foldl store M

structure SlotOk (M D : CacheKey → Page) (s : Slot) : Prop where
  data : s.valid = true → s.data = M s.key
  clean : s.valid = true → s.dirty = false → s.wb = false → D s.key = M s.key
  fill : s.fill = true → D s.key = M s.key
  wb : s.wb = true → s.valid = true

structure Coherent (M : CacheKey → Page) (S : CacheSys N) : Prop where
  slots : ∀ i, SlotOk M S.device (S.slot i)
  absent : ∀ {key}, (∀ i, ¬ (S.slot i).Holds key) → S.device key = M key
  fills : ∀ {n t}, S.fills n = some t →
    S.cache.Filling t.fill ∧ (∀ p, t.page = some p → p = M t.fill.key) ∧ n < S.filled
  fills_inj : ∀ {n n' t t'}, S.fills n = some t → S.fills n' = some t' →
    t.fill.slot = t'.fill.slot → n = n'
  wbs : ∀ {n t}, S.wbs n = some t → ((S.slot t.slot).dirty = false → t.page = M t.key) ∧
    (t.result = some (.ok ()) → S.device t.key = t.page)

theorem coherent_init [NeZero N] (device : CacheKey → Page) :
    Coherent device (init device : CacheSys N) := by
  constructor
  · intro i
    constructor <;> intro h <;> cases h
  · intro key _
    rfl
  · intro n t h
    cases h
  · intro n n' t t' h
    cases h
  · intro n t h
    cases h

theorem Slot.holds_unique {s : Slot} {k k' : CacheKey} (h : s.Holds k) (h' : s.Holds k') : k = k' :=
  h.2.symm.trans h'.2

theorem write_whole {src : List UInt8} (h : src.length = pageSize) (p q : Page) :
    p.write 0 src = q.write 0 src := by
  funext i
  have hi := i.isLt
  have hlt : (i : Nat) - 0 < src.length := by omega
  simp only [Page.write]
  rw [if_pos (by omega), if_pos (by omega)]
  simp only [List.getD_eq_getElem?_getD, List.getElem?_eq_getElem hlt, Option.getD_some]

section
variable {n : Nat} {c : Cache N} {i : Fin N} (hc : Coherent M S)
include hc

theorem Coherent.same (h : S.cache.Same c) (hcache : S'.cache = c) (hd : S'.device = S.device)
    (hf : S'.fills = S.fills) (hn : S'.filled = S.filled) (hw : S'.wbs = S.wbs) :
    Coherent M S' := by
  have hslot : ∀ j, S'.slot j = S.slot j := by
    intro j
    rw [slot, hcache, h.slot]
  constructor
  · intro i
    rw [hslot, hd]
    exact hc.slots i
  · simp only [hslot, hd]
    exact hc.absent
  · intro n t ht
    rw [hf] at ht
    obtain ⟨h₁, h₂⟩ := hc.fills ht
    refine ⟨?_, hn ▸ h₂⟩
    unfold Cache.Filling
    rw [hcache, h.slot]
    exact h₁
  · rw [hf]
    exact hc.fills_inj
  · intro n t ht
    rw [hw] at ht
    rw [hslot, hd]
    exact hc.wbs ht

variable {t : FillToken N}

theorem Coherent.fill_slot (hn : S.fills n = some t) :
    (S.slot t.fill.slot).fill = true ∧ (S.slot t.fill.slot).key = t.fill.key :=
  ⟨(hc.fills hn).1.2, (hc.fills hn).1.1⟩

theorem Coherent.fill_ne (hn : S.fills n = some t) (hf : (S.slot i).fill = false) :
    t.fill.slot ≠ i := by
  rintro rfl
  cases hf.symm.trans (hc.fill_slot hn).1

theorem Coherent.fill_ended {n n' : Nat} {t t' : FillToken N} (hn : S.fills n = some t)
    (hn' : Function.update S.fills n none n' = some t') :
    S.fills n' = some t' ∧ t'.fill.slot ≠ t.fill.slot := by
  obtain ⟨e, hn'⟩ := update_none_eq_some.mp hn'
  exact ⟨hn', fun hs => e (hc.fills_inj hn' hn hs)⟩

theorem Coherent.fill_holds (hn : S.fills n = some t) : (S.slot t.fill.slot).Holds t.fill.key :=
  ⟨.inr (hc.fill_slot hn).1, (hc.fill_slot hn).2⟩

theorem Coherent.absent_except {key : CacheKey} (hs : (S.slot i).Spare)
    (hnone : ∀ j, j ≠ i → ¬ (S.slot j).Holds key) : S.device key = M key := by
  by_cases hi : (S.slot i).Holds key
  · obtain ⟨hvf, rfl⟩ := hi
    have hv : (S.slot i).valid = true := by simpa [hs.idle.1] using hvf
    exact (hc.slots i).clean hv (hs.clean hv) hs.idle.2
  · apply hc.absent
    intro j hj
    by_cases e : j = i
    · exact hi (e ▸ hj)
    · exact hnone j e hj

theorem Coherent.devRead (hn : S.fills n = some t) :
    Coherent M { S with fills := Function.update S.fills n (some { t with page := some (S.device
      t.fill.key) }) } := by
  have hold : ∀ {n' t'}, Function.update S.fills n
      (some { t with page := some (S.device t.fill.key) }) n' = some t' →
      ∃ t₀, S.fills n' = some t₀ ∧ t₀.fill = t'.fill ∧
        (t'.page = t₀.page ∨ t'.page = some (S.device t.fill.key) ∧ t'.fill = t.fill) := by
    intro n' t' ht
    rcases update_eq_iff.mp ht with ⟨rfl, he⟩ | ⟨-, ht⟩
    · cases he
      exact ⟨t, hn, rfl, .inr ⟨rfl, rfl⟩⟩
    · exact ⟨t', ht, rfl, .inl rfl⟩
  refine ⟨hc.slots, hc.absent, ?_, ?_, hc.wbs⟩
  · intro n' t' ht
    obtain ⟨t₀, ht₀, hfill, hpage⟩ := hold ht
    obtain ⟨h₁, h₂, h₃⟩ := hc.fills ht₀
    rw [hfill] at h₁ h₂
    refine ⟨h₁, fun p hp => ?_, h₃⟩
    rcases hpage with hpage | ⟨hpage, hft⟩
    · exact h₂ p (hpage ▸ hp)
    · rw [hpage, Option.some.injEq] at hp
      have hdev := (hc.slots t.fill.slot).fill (hc.fill_slot hn).1
      rw [(hc.fill_slot hn).2] at hdev
      rw [← hp, hft, hdev]
  · intro n₁ n₂ t₁ t₂ h₁ h₂ he
    obtain ⟨u₁, hu₁, hf₁, -⟩ := hold h₁
    obtain ⟨u₂, hu₂, hf₂, -⟩ := hold h₂
    exact hc.fills_inj hu₁ hu₂ (by rw [hf₁, hf₂, he])

variable (h : S.Wf)
include h

theorem Coherent.wb_holds {t : WbToken N} (hn : S.wbs n = some t) : (S.slot t.slot).Holds t.key :=
  ⟨.inl ((hc.slots t.slot).wb (h.token hn).1), (h.token hn).2.1⟩

theorem Coherent.began (hb : S.cache.Begun c i) (hd : (S.slot i).Due) :
    Coherent M (S.beginWb c i (S.slot i).key (S.slot i).data) := by
  set S' := S.beginWb c i (S.slot i).key (S.slot i).data with hS'
  have hself : S'.slot i =
      { S.slot i with wb := true, dirty := false, start := (S.cache.wbSeq + 1) % 2 ^ 64 } := hb.self
  have hother : ∀ {j}, j ≠ i → S'.slot j = S.slot j := hb.other
  constructor
  · intro j
    by_cases e : j = i
    · subst e
      rw [hself]
      exact ⟨(hc.slots j).data, fun _ _ hw => by simp at hw, (hc.slots j).fill, fun _ => hd.valid⟩
    · rw [hother e]
      exact hc.slots j
  · intro key hnone
    apply hc.absent
    intro j hj
    apply hnone j
    by_cases e : j = i
    · subst e
      rw [hself]
      exact hj
    · rwa [hother e]
  · intro n t hn
    obtain ⟨hfill, hrest⟩ := hc.fills hn
    refine ⟨?_, hrest⟩
    change (S'.slot t.fill.slot).key = _ ∧ (S'.slot t.fill.slot).fill = true
    rw [hother (hc.fill_ne hn hd.idle.1)]
    exact hfill
  · exact hc.fills_inj
  · intro n t hn
    rcases h.token_began hd.idle.2 hn with ⟨-, rfl⟩ | ⟨hn, hts⟩
    · exact ⟨fun _ => (hc.slots i).data hd.valid, fun hr => by cases hr⟩
    · rw [hother hts]
      exact hc.wbs hn

theorem Coherent.rekeyed {key : CacheKey}
    (hch : S.cache.Changed c i (Slot.filling (S.slot i) key))
    (hnone : ∀ j, ¬ (S.slot j).Holds key) (hs : (S.slot i).Spare) :
    Coherent M (S.beginFill c ⟨i, key, .read, key⟩ none) := by
  set S' := S.beginFill c ⟨i, key, .read, key⟩ none with hS'
  have hcache : S'.cache = c := by simp [hS', beginFill]
  have hdev : S'.device = S.device := by simp [hS', beginFill]
  have hself : S'.slot i = Slot.filling (S.slot i) key := by
    rw [slot, hcache, hch.self]
  have hother : ∀ {j}, j ≠ i → S'.slot j = S.slot j := by
    intro j hj
    rw [slot, hcache, hch.other hj]
  have hfills : ∀ {n t}, S'.fills n = some t →
      (n = S.filled ∧ t = ⟨⟨i, key, .read, key⟩, none⟩) ∨
        (S.fills n = some t ∧ t.fill.slot ≠ i ∧ n < S.filled) := by
    intro n t hn
    simp only [hS', beginFill, if_true] at hn
    rcases update_eq_iff.mp hn with ⟨rfl, he⟩ | ⟨-, hn⟩
    · exact .inl ⟨rfl, (Option.some.inj he).symm⟩
    · exact .inr ⟨hn, hc.fill_ne hn hs.idle.1, (hc.fills hn).2.2⟩
  constructor
  · intro j
    rw [hdev]
    by_cases e : j = i
    · subst e
      rw [hself]
      exact ⟨by simp [Slot.filling], by simp [Slot.filling], fun _ => hc.absent hnone,
        by simp [Slot.filling]⟩
    · rw [hother e]
      exact hc.slots j
  · intro k hk
    rw [hdev]
    refine hc.absent_except hs fun j e hj => hk j ?_
    rwa [hother e]
  · intro n t hn
    rcases hfills hn with ⟨rfl, rfl⟩ | ⟨hn, e, hlt⟩
    · refine ⟨?_, by simp, by simp [hS', beginFill]⟩
      change (S'.slot i).key = key ∧ (S'.slot i).fill = true
      rw [hself]
      exact ⟨rfl, rfl⟩
    · refine ⟨?_, (hc.fills hn).2.1, by simp [hS', beginFill]; omega⟩
      change (S'.slot t.fill.slot).key = _ ∧ (S'.slot t.fill.slot).fill = true
      rw [hother e]
      exact (hc.fills hn).1
  · intro n n' t t' hn hn' he
    rcases hfills hn with ⟨rfl, rfl⟩ | ⟨hn, e, -⟩ <;>
      rcases hfills hn' with ⟨rfl, rfl⟩ | ⟨hn', e', -⟩
    · rfl
    · exact absurd he.symm e'
    · exact absurd he e
    · exact hc.fills_inj hn hn' he
  · intro n t hn
    have hn : S.wbs n = some t := by simpa [hS', beginFill] using hn
    rw [hdev, hother (h.token_ne hn hs.idle.2)]
    exact hc.wbs hn

theorem Coherent.stored {w : Write} {s : Slot} (hself : S'.slot i = s)
    (hother : ∀ {j}, j ≠ i → S'.slot j = S.slot j) (hkey : s.key = w.key)
    (hvalid : s.valid = true) (hdirty : s.dirty = true) (hfill : s.fill = false)
    (hdata : s.data = (M w.key).write w.off w.src)
    (howner : ∀ {j}, j ≠ i → ¬ (S.slot j).Holds w.key)
    (hleft : ∀ {k}, k ≠ w.key → (S.slot i).Holds k → S.device k = M k)
    (hdev : S'.device = S.device)
    (hfills : ∀ {n t}, S'.fills n = some t → S.fills n = some t ∧ t.fill.slot ≠ i)
    (hfilled : S'.filled = S.filled) (hwbs : S'.wbs = S.wbs) : Coherent (store M w) S' := by
  have hkeep : ∀ {j key}, j ≠ i → (S.slot j).Holds key → store M w key = M key := by
    intro j key hj hh
    refine Function.update_of_ne ?_ _ _
    rintro rfl
    exact howner hj hh
  constructor
  · intro j
    rw [hdev]
    by_cases e : j = i
    · subst e
      rw [hself]
      refine ⟨fun _ => ?_, by simp [hdirty], by simp [hfill], fun _ => hvalid⟩
      rw [hdata, hkey, store, Function.update_self]
    · rw [hother e]
      have hj := hc.slots j
      refine ⟨fun hv => ?_, fun hv hd hw => ?_, fun hf => ?_, hj.wb⟩
      · rw [hkeep e ⟨.inl hv, rfl⟩]
        exact hj.data hv
      · rw [hkeep e ⟨.inl hv, rfl⟩]
        exact hj.clean hv hd hw
      · rw [hkeep e ⟨.inr hf, rfl⟩]
        exact hj.fill hf
  · intro key hnone
    have hne : key ≠ w.key := by
      rintro rfl
      exact hnone i (by rw [hself]; exact ⟨.inl hvalid, hkey⟩)
    rw [hdev, store, Function.update_of_ne hne]
    by_cases hi : (S.slot i).Holds key
    · exact hleft hne hi
    · apply hc.absent
      intro j hj
      by_cases e : j = i
      · exact hi (e ▸ hj)
      · exact hnone j (by rwa [hother e])
  · intro n t hn
    obtain ⟨hn, e⟩ := hfills hn
    obtain ⟨hfl, hp, hlt⟩ := hc.fills hn
    refine ⟨?_, fun p hp' => ?_, hfilled ▸ hlt⟩
    · change (S'.slot t.fill.slot).key = _ ∧ (S'.slot t.fill.slot).fill = true
      rw [hother e]
      exact hfl
    · rw [hkeep e (hc.fill_holds hn)]
      exact hp p hp'
  · intro n n' t t' hn hn'
    exact hc.fills_inj (hfills hn).1 (hfills hn').1
  · intro n t hn
    rw [hwbs] at hn
    rw [hdev]
    obtain ⟨hp, hr⟩ := hc.wbs hn
    refine ⟨fun hd => ?_, hr⟩
    by_cases e : t.slot = i
    · rw [e, hself, hdirty] at hd
      cases hd
    · rw [hother e] at hd
      rw [hkeep e (hc.wb_holds h hn)]
      exact hp hd

theorem Coherent.installed {f : Fill N} {page : Page} (hn : S.fills n = some ⟨f, some page⟩)
    (hch : S.cache.Changed c f.slot (Slot.holding (S.slot f.slot) f.key page false))
    (hcache : S'.cache = c) (hdev : S'.device = S.device)
    (hfills : S'.fills = Function.update S.fills n none) (hfilled : S'.filled = S.filled)
    (hwbs : S'.wbs = S.wbs) : Coherent M S' := by
  obtain ⟨hfl, hp, -⟩ := hc.fills hn
  have hpage : page = M f.key := hp page rfl
  have hkey : (S.slot f.slot).key = f.key := hfl.1
  have hfill : (S.slot f.slot).fill = true := hfl.2
  have hself : S'.slot f.slot = Slot.holding (S.slot f.slot) f.key page false := by
    rw [slot, hcache, hch.self]
  have hother : ∀ {j}, j ≠ f.slot → S'.slot j = S.slot j := by
    intro j hj
    rw [slot, hcache, hch.other hj]
  have hold : ∀ {n' t}, S'.fills n' = some t → S.fills n' = some t ∧ t.fill.slot ≠ f.slot := by
    intro n' t ht
    rw [hfills] at ht
    exact hc.fill_ended hn ht
  constructor
  · intro j
    rw [hdev]
    by_cases e : j = f.slot
    · subst e
      rw [hself]
      refine ⟨fun _ => hpage, fun _ _ _ => ?_, by simp [Slot.holding], by simp [Slot.holding]⟩
      have := (hc.slots f.slot).fill hfill
      rwa [hkey] at this
    · rw [hother e]
      exact hc.slots j
  · intro key hnone
    rw [hdev]
    apply hc.absent
    intro j hj
    apply hnone j
    by_cases e : j = f.slot
    · subst e
      rw [hself]
      exact ⟨.inl rfl, hkey.symm.trans hj.2⟩
    · rwa [hother e]
  · intro n' t ht
    obtain ⟨ht, e⟩ := hold ht
    obtain ⟨h₁, h₂, h₃⟩ := hc.fills ht
    refine ⟨?_, h₂, hfilled ▸ h₃⟩
    change (S'.slot t.fill.slot).key = _ ∧ (S'.slot t.fill.slot).fill = true
    rw [hother e]
    exact h₁
  · intro n₁ n₂ t₁ t₂ h₁ h₂
    exact hc.fills_inj (hold h₁).1 (hold h₂).1
  · intro n' t ht
    rw [hwbs] at ht
    rw [hdev, hother (h.token_ne ht (h.fill_free hfill).2)]
    exact hc.wbs ht

theorem Coherent.released (hn : S.fills n = some t)
    (hch : S.cache.Changed c t.fill.slot (Slot.cleared (S.slot t.fill.slot) false)) :
    Coherent M { S.endFill n with cache := c } := by
  set S' : CacheSys N := { S.endFill n with cache := c } with hS'
  obtain ⟨hfill, hkey⟩ := hc.fill_slot hn
  have hself : S'.slot t.fill.slot = Slot.cleared (S.slot t.fill.slot) false := hch.self
  have hother : ∀ {j}, j ≠ t.fill.slot → S'.slot j = S.slot j := hch.other
  constructor
  · intro j
    by_cases e : j = t.fill.slot
    · subst e
      rw [hself]
      constructor <;> simp [Slot.cleared]
    · rw [hother e]
      exact hc.slots j
  · intro key hnone
    by_cases hi : (S.slot t.fill.slot).Holds key
    · rw [← hi.2]
      exact (hc.slots _).fill hfill
    · apply hc.absent
      intro j hj
      by_cases e : j = t.fill.slot
      · exact hi (e ▸ hj)
      · exact hnone j (by rwa [hother e])
  · intro n' t' ht
    obtain ⟨ht, e⟩ := hc.fill_ended hn ht
    obtain ⟨h₁, h₂⟩ := hc.fills ht
    refine ⟨?_, h₂⟩
    change (S'.slot t'.fill.slot).key = _ ∧ (S'.slot t'.fill.slot).fill = true
    rw [hother e]
    exact h₁
  · intro n₁ n₂ t₁ t₂ h₁ h₂
    exact hc.fills_inj (hc.fill_ended hn h₁).1 (hc.fill_ended hn h₂).1
  · intro n' t' ht
    rw [hother (h.token_ne ht (h.fill_free hfill).2)]
    exact hc.wbs ht

theorem Coherent.transferred {t : WbToken N} {res : Except BlockError Unit} {page : Page}
    {ok : List (CacheKey × Nat × Page)} (hn : S.wbs n = some t)
    (hres : res = .ok () → page = t.page) :
    Coherent M { S with
      device := Function.update S.device t.key page
      okWrites := ok
      wbs := Function.update S.wbs n (some { t with result := some res }) } := by
  have hwb := (h.token hn).1
  have hh := hc.wb_holds h hn
  constructor
  · intro j
    have hj := hc.slots j
    refine ⟨hj.data, fun hv hd hw => ?_, fun hf => ?_, hj.wb⟩
    · have hne : (S.slot j).key ≠ t.key := by
        intro e
        have hjt := h.unique ⟨.inl hv, e⟩ hh
        have : (S.slot j).wb = false := hw
        rw [hjt, hwb] at this
        cases this
      exact (Function.update_of_ne hne _ _).trans (hj.clean hv hd hw)
    · have hne : (S.slot j).key ≠ t.key := by
        intro e
        have hjt := h.unique ⟨.inr hf, e⟩ hh
        have : (S.slot j).wb = false := (h.fill_free hf).2
        rw [hjt, hwb] at this
        cases this
      exact (Function.update_of_ne hne _ _).trans (hj.fill hf)
  · intro key hnone
    have hne : key ≠ t.key := by
      rintro rfl
      exact hnone _ hh
    exact (Function.update_of_ne hne _ _).trans (hc.absent hnone)
  · exact hc.fills
  · exact hc.fills_inj
  · intro n' t' ht
    rcases update_eq_iff.mp ht with ⟨rfl, he⟩ | ⟨e, ht⟩
    · cases he
      refine ⟨(hc.wbs hn).1, fun hr => ?_⟩
      exact (Function.update_self ..).trans (hres (Option.some.inj hr))
    · refine ⟨(hc.wbs ht).1, fun hr => ?_⟩
      have hne : t'.key ≠ t.key := by
        intro hk
        exact e (h.token_inj ht hn (h.unique (hc.wb_holds h ht) (hk ▸ hh)))
      exact (Function.update_of_ne hne _ _).trans ((hc.wbs ht).2 hr)

theorem Coherent.ended {t : WbToken N} {res : Except BlockError Unit} {fl : FlushState N}
    (hn : S.wbs n = some t) (hr : t.result = some res)
    (hch : S.cache.Changed c t.slot (Slot.ended (S.slot t.slot) t.key res)) :
    Coherent M { S with cache := c, wbs := Function.update S.wbs n none, flush := fl } := by
  set S' : CacheSys N :=
    { S with cache := c, wbs := Function.update S.wbs n none, flush := fl } with hS'
  obtain ⟨hkey, hvalid, hfill, hwb, hdata, -, -⟩ := Slot.ended_cases (S.slot t.slot) t.key res
  obtain ⟨htwb, htkey, -, -⟩ := h.token hn
  have hv := (hc.slots t.slot).wb htwb
  have hself : S'.slot t.slot = Slot.ended (S.slot t.slot) t.key res := hch.self
  have hother : ∀ {j}, j ≠ t.slot → S'.slot j = S.slot j := hch.other
  constructor
  · intro j
    by_cases e : j = t.slot
    · subst e
      have hj := hc.slots t.slot
      rw [hself]
      refine ⟨?_, ?_, ?_, by simp [hwb]⟩
      · rw [hvalid, hdata, hkey]
        exact hj.data
      · intro _ hd _
        rw [hkey]
        cases res with
        | ok u =>
          have hd : (S.slot t.slot).dirty = false := hd
          rw [htkey]
          exact ((hc.wbs hn).2 hr).trans ((hc.wbs hn).1 hd)
        | error err =>
          -- the page is dirty again, since the slot still holds the key
          simp only [Slot.ended, if_pos (And.intro htkey hv)] at hd
          cases hd
      · rw [hfill, hkey]
        exact hj.fill
    · rw [hother e]
      exact hc.slots j
  · intro key hnone
    apply hc.absent
    intro j hj
    apply hnone j
    by_cases e : j = t.slot
    · subst e
      rw [hself, Slot.Holds, hvalid, hfill, hkey]
      exact hj
    · rwa [hother e]
  · intro n' t' ht
    obtain ⟨h₁, h₂⟩ := hc.fills ht
    refine ⟨?_, h₂⟩
    change (S'.slot t'.fill.slot).key = _ ∧ (S'.slot t'.fill.slot).fill = true
    rw [hother (h.token_ne hn (h.fill_free h₁.2).2).symm]
    exact h₁
  · exact hc.fills_inj
  · intro n' t' ht
    obtain ⟨ht, hne⟩ := h.token_ended hn ht
    rw [hother hne]
    exact hc.wbs ht

end

/-- What a step does to the plain memory: one completed write, or nothing. -/
def NextMemory (M : CacheKey → Page) (S S' : CacheSys N) : Prop :=
  (S'.writes = S.writes ∧ Coherent M S') ∨
    ∃ w, S'.writes = S.writes ++ [w] ∧ Coherent (store M w) S'

/-- A step returns no read, or one whose bytes are the plain memory's. -/
def ReadsMemory (M : CacheKey → Page) (S S' : CacheSys N) : Prop :=
  S'.reads = S.reads ∨ ∃ key off len, off + len ≤ pageSize ∧
    S'.reads = S.reads ++ [⟨key, off, (M key).slice off len, S.writes⟩]

theorem coherent_effect (hc : Coherent M S) (h : S.Wf) (he : Effect S S') :
    NextMemory M S S' ∧ ReadsMemory M S S' := by
  cases he with
  | quiet hq => exact ⟨.inl ⟨rfl, hc.same hq rfl rfl rfl rfl rfl⟩, .inl rfl⟩
  | @hit c i key off len hq hk hv hlen =>
    refine ⟨.inl ⟨rfl, hc.same hq rfl rfl rfl rfl rfl⟩, .inr ⟨key, off, len, hlen, ?_⟩⟩
    rw [← hk, ← (hc.slots i).data hv]
    rfl
  | began hb hd => exact ⟨.inl ⟨rfl, hc.began h hb hd⟩, .inl rfl⟩
  | rekeyed hch hnone hs => exact ⟨.inl ⟨rfl, hc.rekeyed h hch hnone hs⟩, .inl rfl⟩
  | @wrote c i key off src hch hk hv hf =>
    refine ⟨.inr ⟨⟨key, off, src⟩, rfl, ?_⟩, .inl rfl⟩
    refine hc.stored h hch.self hch.other hk hv rfl hf ?_ ?_ ?_ rfl ?_ rfl rfl
    · rw [(hc.slots i).data hv, hk]
    · exact fun hj hh => hj (h.unique hh ⟨.inl hv, hk⟩)
    · exact fun hne hh => absurd (Slot.holds_unique hh ⟨.inl hv, hk⟩) hne
    · exact fun hn => ⟨hn, hc.fill_ne hn hf⟩
  | @wroteWhole c i key src hch hnone hs hlen =>
    refine ⟨.inr ⟨⟨key, 0, src⟩, rfl, ?_⟩, .inl rfl⟩
    refine hc.stored h hch.self hch.other rfl rfl rfl rfl ?_ ?_ ?_ rfl ?_ rfl rfl
    · exact write_whole hlen _ _
    · exact fun _ => hnone _
    · intro k _ hh
      exact hc.absent_except hs fun j hj hk => hj (h.unique hk hh)
    · exact fun hn => ⟨hn, hc.fill_ne hn hs.idle.1⟩
  | devRead hn => exact ⟨.inl ⟨rfl, hc.devRead hn⟩, .inl rfl⟩
  | @installed n f page off len c hn hf hch hlen =>
    refine ⟨.inl ⟨rfl, hc.installed h hn hch rfl rfl rfl rfl rfl⟩, .inr ⟨f.key, off, len, hlen, ?_⟩⟩
    rw [← (hc.fills hn).2.1 page rfl]
    rfl
  | passed hn hf => exact absurd (hc.fills hn).1 hf
  | @merged n f page off src c hn hf hch =>
    refine ⟨.inr ⟨⟨f.key, off, src⟩, rfl, ?_⟩, .inl rfl⟩
    refine hc.stored h hch.self hch.other rfl rfl rfl rfl ?_ ?_ ?_ rfl ?_ rfl rfl
    · rw [(hc.fills hn).2.1 page rfl]
      rfl
    · exact fun hj hh => hj (h.unique hh (hc.fill_holds hn))
    · exact fun hne hh => absurd (Slot.holds_unique hh (hc.fill_holds hn)) hne
    · exact fun hn' => hc.fill_ended hn hn'
  | released hn hr =>
    rcases hr with ⟨hf, -⟩ | ⟨-, hch⟩
    · exact absurd (hc.fills hn).1 hf
    · exact ⟨.inl ⟨rfl, hc.released h hn hch⟩, .inl rfl⟩
  | devOk hn hr => exact ⟨.inl ⟨rfl, hc.transferred h hn fun _ => rfl⟩, .inl rfl⟩
  | devErr hn hr => exact ⟨.inl ⟨rfl, hc.transferred h hn fun hr => by cases hr⟩, .inl rfl⟩
  | ended hn hr hch =>
    exact ⟨.inl ⟨rfl, hc.ended h hn hr (h.ends hn hch)⟩, .inl rfl⟩

end VibeOS.Block.CacheSys
