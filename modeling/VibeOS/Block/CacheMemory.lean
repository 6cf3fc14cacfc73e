import VibeOS.Block.CacheCoherence

/-!
Whole runs of the cache read and write one memory: each byte read is the one the
latest completed write put there, whatever is filled, evicted or written back
meanwhile and however those transfers end.
-/
namespace VibeOS.Block.CacheSys
variable {N : Nat} {S S' : CacheSys N}

def Write.covers (w : Write) (key : CacheKey) (i : Fin pageSize) : Bool :=
  decide (w.key = key ∧ w.off ≤ i ∧ i < w.off + w.src.length)

/-- The byte the latest of the writes put there, or the device's own. -/
def latest (device : CacheKey → Page) (ws : List Write) (key : CacheKey) : Page := fun i =>
  match ws.reverse.find? fun w => Write.covers w key i with
  | some w => w.src.getD (i - w.off) 0
  | none => device key i

theorem replay_append (M : CacheKey → Page) (ws : List Write) (w : Write) :
    replay M (ws ++ [w]) = store (replay M ws) w := by
  simp [replay]

theorem replay_eq_latest (device : CacheKey → Page) (ws : List Write) :
    replay device ws = latest device ws := by
  induction ws using List.reverseRecOn with
  | nil => rfl
  | append_singleton ws w ih =>
    rw [replay_append, ih]
    funext key i
    simp only [latest, List.reverse_append, List.reverse_singleton, List.singleton_append,
      List.find?_cons]
    by_cases hk : key = w.key
    · subst hk
      simp only [store, Function.update_self, Page.write]
      by_cases hi : w.off ≤ i ∧ i < w.off + w.src.length
      · have hlt : (i : Nat) - w.off < w.src.length := by omega
        simp [hi, Write.covers, List.getElem?_eq_getElem hlt]
      · simp [hi, Write.covers, latest]
    · have hk' : w.key ≠ key := Ne.symm hk
      simp [store, Write.covers, hk, hk', latest]

/-- The state is coherent with the memory its writes make, and each read returned that
memory's bytes as of its copy. -/
structure Sound (device : CacheKey → Page) (S : CacheSys N) : Prop where
  coherent : Coherent (replay device S.writes) S
  reads : ∀ r ∈ S.reads, r.writes.IsPrefix S.writes ∧ r.off + r.out.length ≤ pageSize ∧
    r.out = (replay device r.writes r.key).slice r.off r.out.length

theorem length_slice (p : Page) (off len : Nat) : (p.slice off len).length = len := by
  simp [Page.slice]

theorem sound_effect {device : CacheKey → Page} (hs : Sound device S) (h : S.Wf)
    (he : Effect S S') : Sound device S' := by
  obtain ⟨hm, hr⟩ := coherent_effect hs.coherent h he
  have hpre : S.writes.IsPrefix S'.writes := by
    rcases hm with ⟨hw, -⟩ | ⟨w, hw, -⟩
    · exact ⟨[], by rw [hw, List.append_nil]⟩
    · exact ⟨[w], hw.symm⟩
  constructor
  · rcases hm with ⟨hw, hc⟩ | ⟨w, hw, hc⟩ <;> rw [hw]
    · exact hc
    · rwa [replay_append]
  · have old : ∀ r ∈ S.reads, r.writes.IsPrefix S'.writes ∧ r.off + r.out.length ≤ pageSize ∧
        r.out = (replay device r.writes r.key).slice r.off r.out.length := by
      intro r hr
      obtain ⟨hp, hrest⟩ := hs.reads r hr
      exact ⟨hp.trans hpre, hrest⟩
    rcases hr with hr | ⟨key, off, len, hlen, hr⟩ <;> rw [hr]
    · exact old
    · intro r hr
      rcases List.mem_append.mp hr with hr | hr
      · exact old r hr
      · obtain rfl := List.mem_singleton.mp hr
        exact ⟨hpre, by rwa [length_slice], by rw [length_slice]⟩

theorem sound_run [NeZero N] (device : CacheKey → Page) {acts : List CacheAct}
    (hacts : ∀ a ∈ acts, clears a = false) : Sound device (run device acts : CacheSys N) := by
  induction acts using List.reverseRecOn with
  | nil => exact ⟨coherent_init device, fun r hr => by cases hr⟩
  | append_singleton acts a ih =>
    have hs := ih fun a ha => hacts a (List.mem_append_left _ ha)
    obtain ⟨S₁, fl, ow, he, hS⟩ := step_effect (run device acts : CacheSys N) (hacts a (by simp))
    have hs₁ := sound_effect hs (wf_run device acts) he
    rw [run_append, hS]
    obtain ⟨⟨h₁, h₂, h₃, h₄, h₅⟩, hr⟩ := hs₁
    exact ⟨⟨h₁, h₂, h₃, h₄, h₅⟩, hr⟩

theorem cache_is_memory [NeZero N] (device : CacheKey → Page) (acts : List CacheAct)
    (hacts : ∀ a ∈ acts, clears a = false) :
    (∀ i j key, ((run device acts : CacheSys N).slot i).Holds key →
        ((run device acts : CacheSys N).slot j).Holds key → i = j) ∧
      (∀ i s, s = (run device acts : CacheSys N).slot i → s.valid = true → s.dirty = false →
        s.wb = false → s.data = (run device acts : CacheSys N).device s.key) ∧
      (∀ r ∈ (run device acts : CacheSys N).reads,
        r.writes.IsPrefix (run device acts : CacheSys N).writes ∧
        ∀ j < r.out.length, ∃ h : r.off + j < pageSize,
          r.out[j]? = some (latest device r.writes r.key ⟨r.off + j, h⟩)) ∧
      ∀ key, (∃ i, ((run device acts : CacheSys N).slot i).valid = true ∧
          ((run device acts : CacheSys N).slot i).key = key ∧
          ((run device acts : CacheSys N).slot i).data =
            latest device (run device acts : CacheSys N).writes key) ∨
        (∀ i, ((run device acts : CacheSys N).slot i).valid = true →
          ((run device acts : CacheSys N).slot i).key ≠ key) ∧
        (run device acts : CacheSys N).device key =
          latest device (run device acts : CacheSys N).writes key := by
  have h := wf_run (N := N) device acts
  obtain ⟨hc, hr⟩ := sound_run (N := N) device hacts
  generalize (run device acts : CacheSys N) = S at *
  refine ⟨fun i j key => h.unique, ?_, ?_, ?_⟩
  · rintro i s rfl hv hd hw
    rw [(hc.slots i).data hv, (hc.slots i).clean hv hd hw]
  · intro r hr'
    obtain ⟨hp, hlen, hout⟩ := hr r hr'
    refine ⟨hp, fun j hj => ⟨by omega, ?_⟩⟩
    have hlt : r.off + j < pageSize := by omega
    rw [replay_eq_latest] at hout
    rw [hout]
    simp [Page.slice, hj, hlt]
  · intro key
    rw [← replay_eq_latest]
    by_cases hex : ∃ i, (S.slot i).valid = true ∧ (S.slot i).key = key
    · obtain ⟨i, hv, rfl⟩ := hex
      exact .inl ⟨i, hv, rfl, (hc.slots i).data hv⟩
    · refine .inr ⟨fun i hv hk => hex ⟨i, hv, hk⟩, ?_⟩
      by_cases hfill : ∃ i, (S.slot i).fill = true ∧ (S.slot i).key = key
      · obtain ⟨i, hf, rfl⟩ := hfill
        exact (hc.slots i).fill hf
      · apply hc.absent
        rintro i ⟨hv | hf, hk⟩
        · exact hex ⟨i, hv, hk⟩
        · exact hfill ⟨i, hf, hk⟩

/-- A client writes a byte of an uncached page, the page is read for it and merged, and
a second client reads the byte back while the page is in writeback. -/
def writeThenRead : List CacheAct :=
  [.write ⟨0, 0⟩ 1 [5], .devRead 0, .installWrite 0 1 [5], .takeDirty 0 none, .read ⟨0, 0⟩ 0 2]

theorem read_in_writeback_returns_write :
    ∃ r ∈ (run (fun _ _ => 7) writeThenRead : CacheSys 1).reads, r.out = [7, 5] ∧
      r.writes.IsPrefix (run (fun _ _ => 7) writeThenRead : CacheSys 1).writes ∧
      ∀ j < r.out.length, ∃ h : r.off + j < pageSize,
        r.out[j]? = some (latest (fun _ _ => 7) r.writes r.key ⟨r.off + j, h⟩) := by
  have hr : ∃ r, (run (fun _ _ => 7) writeThenRead : CacheSys 1).reads = [r] ∧ r.out = [7, 5] :=
    ⟨_, rfl, rfl⟩
  obtain ⟨r, hr, hout⟩ := hr
  have hmem : r ∈ (run (fun _ _ => 7) writeThenRead : CacheSys 1).reads := by rw [hr]; simp
  exact ⟨r, hmem, hout, (cache_is_memory (fun _ _ => 7) writeThenRead (by decide)).2.2.1 r hmem⟩

end VibeOS.Block.CacheSys
