import VibeOS.Block.CacheInvariant

/-!
The versions a page goes through. Each completed write of a key adds the page it
leaves; a dirty page, and one in writeback, is the last version, and a writeback
carries the version that was last when its copy was taken.
-/
namespace VibeOS.Block.CacheSys
open Lib

variable {N : Nat} {S S' : CacheSys N}

structure Versioned (S : CacheSys N) : Prop where
  last : ∀ {i}, (S.slot i).valid = true → (S.slot i).dirty = true ∨ (S.slot i).wb = true →
    (S.versions (S.slot i).key).getLast? = some (S.slot i).data
  carried : ∀ {n t}, S.wbs n = some t → 0 < t.version ∧
    (S.versions t.key)[t.version - 1]? = some t.page
  current : ∀ {n t}, S.wbs n = some t → (S.slot t.slot).valid = true →
    (S.slot t.slot).dirty = false → t.version = (S.versions t.key).length
  ok : ∀ {n t}, S.wbs n = some t → t.result = some (.ok ()) →
    (t.key, t.version, t.page) ∈ S.okWrites

theorem versioned_init [NeZero N] (device : CacheKey → Page) :
    Versioned (init device : CacheSys N) := by
  constructor
  · intro i h
    cases h
  all_goals
    intro n t h
    cases h

/-- The writebacks are those of the state before, up to results that are on record. -/
def Traced (S S' : CacheSys N) : Prop :=
  ∀ n t, S'.wbs n = some t → (S'.slot t.slot).wb = true ∧
    ∃ t₀, S.wbs n = some t₀ ∧ t₀.slot = t.slot ∧ t₀.key = t.key ∧ t₀.page = t.page ∧
      t₀.version = t.version ∧ (t.result = some (.ok ()) →
        t₀.result = some (.ok ()) ∨ (t.key, t.version, t.page) ∈ S'.okWrites)

theorem Versioned.kept (hv : Versioned S)
    (hslot : ∀ i, S'.slot i = S.slot i ∨
      ((S'.slot i).valid = true → (S'.slot i).dirty = false ∧ (S'.slot i).wb = false))
    (hver : S'.versions = S.versions) (hok : ∀ p ∈ S.okWrites, p ∈ S'.okWrites)
    (htok : Traced S S') : Versioned S' where
  last {i} hval hd := by
    rcases hslot i with hi | hi
    · rw [hver, hi]
      rw [hi] at hval hd
      exact hv.last hval hd
    · rw [(hi hval).1, (hi hval).2] at hd
      simp at hd
  carried hn := by
    obtain ⟨-, t₀, hn₀, -, hk, hp, hvr, -⟩ := htok _ _ hn
    rw [hver, ← hk, ← hp, ← hvr]
    exact hv.carried hn₀
  current {n t} hn hval hd := by
    obtain ⟨hwb, t₀, hn₀, hs, hk, hp, hvr, -⟩ := htok _ _ hn
    rcases hslot t.slot with hi | hi
    · rw [hi] at hval hd
      rw [hver, ← hk, ← hvr]
      exact hv.current hn₀ (hs ▸ hval) (hs ▸ hd)
    · rw [(hi hval).2] at hwb
      cases hwb
  ok hn hr := by
    obtain ⟨-, t₀, hn₀, -, hk, hp, hvr, hres⟩ := htok _ _ hn
    rcases hres hr with hres | hres
    · rw [← hk, ← hp, ← hvr]
      exact hok _ (hv.ok hn₀ hres)
    · exact hres

theorem tokens_same (h' : S'.Wf) (hw : S'.wbs = S.wbs) : Traced S S' :=
  fun _ t hn => ⟨(h'.token hn).1, t, hw ▸ hn, rfl, rfl, rfl, rfl, .inl⟩

theorem tokens_result (h : S.Wf) {n : Nat} {t : WbToken N} {res : Except BlockError Unit}
    (hn : S.wbs n = some t) (hcache : S'.cache = S.cache)
    (hwbs : S'.wbs = Function.update S.wbs n (some { t with result := some res }))
    (hok : res = .ok () → (t.key, t.version, t.page) ∈ S'.okWrites) : Traced S S' := by
  intro n' t' hn'
  rw [slot, hcache]
  rw [hwbs] at hn'
  rcases update_eq_iff.mp hn' with ⟨rfl, he⟩ | ⟨-, hn'⟩
  · cases he
    exact ⟨(h.token hn).1, t, hn, rfl, rfl, rfl, rfl, fun hr => .inr (hok (Option.some.inj hr))⟩
  · exact ⟨(h.token hn').1, t', hn', rfl, rfl, rfl, rfl, .inl⟩

theorem contents_eq (h : S.Wf) {i : Fin N} {key : CacheKey} (hh : (S.slot i).Holds key) :
    contents S.cache key = (S.slot i).data := by
  unfold contents
  cases hf : S.cache.find key with
  | none => exact absurd hh (Cache.find_eq_none hf i)
  | some j =>
    obtain rfl := h.unique (Cache.find_eq_some hf) hh
    rfl

theorem Versioned.stored (hv : Versioned S) (h : S.Wf) (h' : S'.Wf) {i : Fin N} {key : CacheKey}
    (hother : ∀ {j}, j ≠ i → S'.slot j = S.slot j) (hkey : (S'.slot i).key = key)
    (hvalid : (S'.slot i).valid = true) (hdirty : (S'.slot i).dirty = true)
    (hver : S'.versions =
      Function.update S.versions key (S.versions key ++ [contents S'.cache key]))
    (hok : S'.okWrites = S.okWrites) (hwbs : S'.wbs = S.wbs) : Versioned S' := by
  have hdata : contents S'.cache key = (S'.slot i).data := contents_eq h' ⟨.inl hvalid, hkey⟩
  have hkeep : ∀ {j}, j ≠ i → (S.slot j).valid = true → S'.versions (S.slot j).key =
      S.versions (S.slot j).key := by
    intro j hj hval
    rw [hver, Function.update_of_ne]
    intro hk
    have hholds : (S'.slot j).Holds key := by
      rw [hother hj]
      exact ⟨.inl hval, hk⟩
    exact hj (h'.unique hholds ⟨.inl hvalid, hkey⟩)
  constructor
  · intro j hval hd
    by_cases e : j = i
    · subst e
      rw [hkey, hver, Function.update_self, List.getLast?_append, hdata]
      rfl
    · rw [hother e] at hval hd ⊢
      rw [hkeep e hval]
      exact hv.last hval hd
  · intro n t hn
    rw [hwbs] at hn
    obtain ⟨hpos, hget⟩ := hv.carried hn
    refine ⟨hpos, ?_⟩
    rw [hver]
    by_cases hk : t.key = key
    · subst hk
      rw [Function.update_self]
      exact List.getElem?_append_left (List.getElem?_eq_some_iff.mp hget).1 ▸ hget
    · rwa [Function.update_of_ne hk]
  · intro n t hn hval hd
    rw [hwbs] at hn
    have e : t.slot ≠ i := by
      intro e
      rw [e, hdirty] at hd
      cases hd
    rw [hother e] at hval hd
    have hk := (h.token hn).2.1
    rw [← hk, hkeep e hval, hk]
    exact hv.current hn hval hd
  · intro n t hn hr
    rw [hwbs] at hn
    rw [hok]
    exact hv.ok hn hr

theorem Versioned.began (hv : Versioned S) (h : S.Wf) {c : Cache N} {i : Fin N}
    (hb : S.cache.Begun c i) (hd : (S.slot i).Due) :
    Versioned (S.beginWb c i (S.slot i).key (S.slot i).data) := by
  set S' := S.beginWb c i (S.slot i).key (S.slot i).data with hS'
  have hself : S'.slot i =
      { S.slot i with wb := true, dirty := false, start := (S.cache.wbSeq + 1) % 2 ^ 64 } := hb.self
  have hother : ∀ {j}, j ≠ i → S'.slot j = S.slot j := hb.other
  have hlast := hv.last hd.valid (.inl hd.dirty)
  constructor
  · intro j hval' hd'
    by_cases e : j = i
    · subst e
      rw [hself]
      exact hlast
    · rw [hother e] at hval' hd' ⊢
      exact hv.last hval' hd'
  · intro n t hn
    rcases h.token_began hd.idle.2 hn with ⟨-, rfl⟩ | ⟨hn, -⟩
    · rw [List.getLast?_eq_getElem?] at hlast
      exact ⟨Nat.zero_lt_of_lt (List.getElem?_eq_some_iff.mp hlast).1, hlast⟩
    · exact hv.carried hn
  · intro n t hn hval' hd'
    rcases h.token_began hd.idle.2 hn with ⟨-, rfl⟩ | ⟨hn, e⟩
    · rfl
    · rw [hother e] at hval' hd'
      exact hv.current hn hval' hd'
  · intro n t hn hr
    rcases h.token_began hd.idle.2 hn with ⟨-, rfl⟩ | ⟨hn, -⟩
    · cases hr
    · exact hv.ok hn hr

theorem Versioned.ended (hv : Versioned S) (h : S.Wf) {n : Nat} {t : WbToken N}
    {res : Except BlockError Unit} {c : Cache N} {fl : FlushState N} (hn : S.wbs n = some t)
    (hch : S.cache.Changed c t.slot (Slot.ended (S.slot t.slot) t.key res)) :
    Versioned { S with cache := c, wbs := Function.update S.wbs n none, flush := fl } := by
  set S' : CacheSys N :=
    { S with cache := c, wbs := Function.update S.wbs n none, flush := fl } with hS'
  obtain ⟨hkey, hvalid, -, -, hdata, -, -⟩ := Slot.ended_cases (S.slot t.slot) t.key res
  have hself : S'.slot t.slot = Slot.ended (S.slot t.slot) t.key res := hch.self
  have hother : ∀ {j}, j ≠ t.slot → S'.slot j = S.slot j := hch.other
  constructor
  · intro j hval hd
    by_cases e : j = t.slot
    · subst e
      rw [hself, hvalid] at hval
      rw [hself, hkey, hdata]
      exact hv.last hval (.inr (h.token hn).1)
    · rw [hother e] at hval hd ⊢
      exact hv.last hval hd
  · exact fun hn' => hv.carried (h.token_ended hn hn').1
  · intro n' t' hn' hval hd
    obtain ⟨hn', e⟩ := h.token_ended hn hn'
    rw [hother e] at hval hd
    exact hv.current hn' hval hd
  · exact fun hn' => hv.ok (h.token_ended hn hn').1

theorem versioned_effect (hv : Versioned S) (h : S.Wf) (he : Effect S S') : Versioned S' := by
  have h' := wf_effect h he
  cases he with
  | quiet hq | hit hq _ _ _ =>
    exact hv.kept (fun i => .inl (congrFun hq.slot i)) rfl (fun _ => id) (tokens_same h' rfl)
  | devRead hn | passed hn _ =>
    exact hv.kept (fun i => .inl rfl) rfl (fun _ => id) (tokens_same h' rfl)
  | began hb hd => exact hv.began h hb hd
  | @rekeyed c i key hch hnone hs =>
    refine hv.kept (fun j => ?_) rfl (fun _ => id) (tokens_same h' rfl)
    have hcache : (S.beginFill c ⟨i, key, .read, key⟩ none).cache = c := by simp [beginFill]
    rw [slot, hcache, hch.slot, Function.update_apply]
    split
    · exact .inr (by simp [Slot.filling])
    · exact .inl rfl
  | @wrote c i key off src hch hk hval hf =>
    have hself : (S.wrote c ⟨key, off, src⟩).slot i =
        { S.slot i with dirty := true, data := (S.slot i).data.write off src } := hch.self
    refine hv.stored h h' hch.other (by rw [hself]; exact hk) (by rw [hself]; exact hval)
      (by rw [hself]) rfl rfl rfl
  | @wroteWhole c i key src hch hnone hs hlen =>
    have hself : (S.wrote c ⟨key, 0, src⟩).slot i =
        Slot.holding (S.slot i) key ((S.slot i).data.write 0 src) true := hch.self
    refine hv.stored h h' hch.other (by rw [hself]; rfl) (by rw [hself]; rfl)
      (by rw [hself]; rfl) rfl rfl rfl
  | @installed n f page off len c hn hf hch hlen =>
    refine hv.kept (fun j => ?_) rfl (fun _ => id) (tokens_same h' rfl)
    rw [slot, readBack, hch.slot, Function.update_apply]
    split
    · exact .inr fun _ => ⟨rfl, rfl⟩
    · exact .inl rfl
  | @merged n f page off src c hn hf hch =>
    have hself : ((S.endFill n).wrote c ⟨f.key, off, src⟩).slot f.slot =
        Slot.holding (S.slot f.slot) f.key (page.write off src) true := hch.self
    refine hv.stored h h' hch.other (by rw [hself]; rfl) (by rw [hself]; rfl)
      (by rw [hself]; rfl) rfl rfl rfl
  | @released n t c hn hr =>
    refine hv.kept (fun j => ?_) rfl (fun _ => id) (tokens_same h' rfl)
    rcases hr with ⟨-, rfl⟩ | ⟨-, hch⟩
    · exact .inl rfl
    · rw [slot, hch.slot, Function.update_apply]
      split
      · exact .inr (by simp [Slot.cleared])
      · exact .inl rfl
  | devOk hn hr =>
    refine hv.kept (fun j => .inl rfl) rfl (fun _ hp => List.mem_append_left _ hp) ?_
    exact tokens_result h hn rfl rfl fun _ => by simp
  | devErr hn hr =>
    refine hv.kept (fun j => .inl rfl) rfl (fun _ => id) ?_
    exact tokens_result h hn rfl rfl fun he => by cases he
  | ended hn hr hch => exact hv.ended h hn (h.ends hn hch)

theorem versioned_cleared (hv : Versioned S) (h : S.Wf) (he : Cleared S S') : Versioned S' := by
  have h' := wf_cleared h he
  cases he with
  | @intro c owed hseq hc ho =>
    refine hv.kept (fun j => ?_) rfl (fun _ => id) (tokens_same h' rfl)
    rcases hc j with hj | ⟨hj, -⟩
    · exact .inl hj
    · refine .inr fun hval => ?_
      change (c.slot j).valid = true at hval
      rw [hj] at hval
      simp [Slot.cleared] at hval

end VibeOS.Block.CacheSys
