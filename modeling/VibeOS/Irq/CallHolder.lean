import VibeOS.Irq.CallInvariant

/-!
The accesses of `call_mask` keep the invariant: the holder's, in order, and those before it
holds the slot.
-/
namespace VibeOS.Irq
namespace CallSys
variable {F A : Type*} {S : CallSys F A} {i j : Cpu} {c : Nat} {s : Stage}

theorem goto_cases {P : Cpu → CallerPc → Prop} {x : CallerPc} (hself : P i x)
    (hne : ∀ j, j ≠ i → P j (S.caller j)) (j : Cpu) : P j ((S.goto i x).caller j) := by
  rcases eq_or_ne j i with rfl | h
  · rw [goto_self]
    exact hself
  · rw [goto_ne _ h]
    exact hne j h

theorem getElem?_append_of_lt {k : Call F A} {calls : List (Call F A)} (hc : c < calls.length) :
    (calls ++ [k])[c]? = calls[c]? :=
  List.getElem?_append_left hc

theorem lt_of_named {k : Call F A} (hk : S.calls[c]? = some k) : c < S.calls.length :=
  (List.getElem?_eq_some_iff.mp hk).1

variable {k : Call F A} (h : S.Inv)
include h

theorem Inv.closed_of_holds (hi : S.caller i = .holds s c) (h1 : s ≠ .storeWaiters)
    (h2 : s ≠ .waitAcks) (d : Nat) : ¬ S.Open d := by
  rintro ⟨j, hj | hj⟩
  all_goals
    obtain rfl := h.unique hi hj
    rw [hi] at hj
    cases hj
    contradiction

/-- No other CPU holds the slot. -/
def Alone (S : CallSys F A) (i : Cpu) : Prop :=
  ∀ j u d, S.caller j = .holds u d → j = i

theorem Inv.alone (hi : S.caller i = .holds s c) : S.Alone i :=
  fun _ _ _ hj => h.unique hj hi

theorem Inv.advance (hc : (S.caller i).call? = some c) (hi : S.Alone i) {t : Stage}
    (slot : CallSlot F A) {busy : Bool} (hb : busy = true) (hshape : Shape { S with slot } c t)
    (hpub : slot.waiters = ∅ ∨ slot.opener = some c ∧ slot.waiters = S.waitersOf c)
    (hopened : ∀ {d}, slot.opener = some d → d < S.calls.length ∧
      (Open ({ S with slot, busy }.goto i (.holds t c)) d ∨ S.waitersOf d ⊆ slot.acked))
    (hserved : ∀ j, Served ({ S with slot, busy }.goto i (.holds t c)) j (S.service j))
    (hearly : (CallerPc.holds t c).late = false → (S.caller i).late = false)
    (hlate : (CallerPc.holds t c).late = true → ∀ j, S.started c j =
      if j ∈ S.waitersOf c ∧ (j ∈ slot.acked ∨ (S.service j).began = true) then 1 else 0) :
    ({ S with slot, busy }.goto i (.holds t c)).Inv := by
  have hheld := goto_cases (S := { S with slot, busy }) (i := i) (x := .holds t c)
    (P := fun j pc => ∀ u d, pc = .holds u d → j = i ∧ pc = .holds t c) (fun _ _ _ => ⟨rfl, rfl⟩)
    fun j hne u d hj => absurd (hi j u d hj) hne
  refine ⟨fun _ => hb, fun hj hj' => (hheld _ _ _ hj).1.trans (hheld _ _ _ hj').1.symm, ?_,
    fun hj => ?_, fun {j d} => ?_, hpub.imp id fun hp => ⟨c, hp⟩, hopened, hserved, h.returned_lt,
    h.runs, h.started_returned, fun {j d} => ?_, fun {j d} => ?_⟩
  · intro hf
    cases hb.symm.trans hf
  · cases hj.symm.trans (hheld _ _ _ hj).2
    exact hshape
  · refine goto_cases (P := fun j pc => pc.call? = some d → _) (fun hd => ?_)
      (fun j _ hd => h.named hd) j
    cases hd
    exact h.named hc
  · refine goto_cases (P := fun j pc => pc.call? = some d → pc.late = false → _) (fun hd hl => ?_)
      (fun j _ hd hl => h.started_early hd hl) j
    cases hd
    exact h.started_early hc (hearly hl)
  · refine goto_cases (P := fun j pc => pc.call? = some d → pc.late = true → _) (fun hd hl => ?_)
      (fun j hne hd hl => ?_) j
    · cases hd
      exact hlate hl
    · -- Another late caller would hold the slot too.
      obtain ⟨u, hu⟩ := CallerPc.holds_of_late hd hl
      exact absurd (hi j u d hu) hne

/-- A step at which no call is open, and that leaves the acks as they are. -/
theorem Inv.advance_closed (hc : (S.caller i).call? = some c) (hi : S.Alone i)
    (hno : ∀ d, ¬ S.Open d) {t : Stage} (slot : CallSlot F A) {busy : Bool} (hb : busy = true)
    (hshape : Shape { S with slot } c t) (hw : slot.waiters = ∅)
    (hop : slot.opener = S.slot.opener) (hack : slot.acked = S.slot.acked)
    (hlate : (CallerPc.holds t c).late = (S.caller i).late) :
    ({ S with slot, busy }.goto i (.holds t c)).Inv := by
  refine h.advance hc hi slot hb hshape (.inl hw) (fun hd => ?_) (fun j => ?_) (fun hl => ?_)
    fun hl => ?_
  · rw [hop] at hd
    rw [hack]
    exact ⟨(h.opened hd).1, .inr ((h.opened hd).2.resolve_left (hno _))⟩
  · refine (h.served j).mono (fun hs => absurd hs.2.1 (hno _)) rfl fun ho => ?_
    change slot.opener.isSome
    rwa [hop]
  · exact hlate ▸ hl
  · rw [hack]
    exact h.started_late hc (hlate ▸ hl)

theorem Inv.storeFunc (hi : S.caller i = .holds .storeFunc c) (hk : S.calls[c]? = some k) :
    ({ S with slot.func := some ⟨k.func, c⟩ }.goto i (.holds .storeArg c)).Inv := by
  obtain ⟨hw, -⟩ := h.shape hi
  exact h.advance_closed (by rw [hi]; rfl) (h.alone hi) (h.closed_of_holds hi nofun nofun) _
    (h.busy hi) ⟨hw, k, hk, rfl⟩ hw rfl rfl (by rw [hi]; rfl)

theorem Inv.storeArg (hi : S.caller i = .holds .storeArg c) (hk : S.calls[c]? = some k) :
    ({ S with slot.arg := some ⟨k.arg, c⟩ }.goto i (.holds .clearAcked c)).Inv := by
  obtain ⟨hw, hf⟩ := h.shape hi
  exact h.advance_closed (by rw [hi]; rfl) (h.alone hi) (h.closed_of_holds hi nofun nofun) _
    (h.busy hi) ⟨hw, hf, k, hk, rfl⟩ hw rfl rfl (by rw [hi]; rfl)

theorem Inv.open_of_began (hj : (S.service j).began = true) : ∃ c, S.Serving j c := by
  have hs := h.served j
  cases hpc : S.service j with
  | running f a =>
    rw [hpc] at hs
    exact ⟨_, hs⟩
  | ack =>
    rw [hpc] at hs
    exact hs
  | out | loadAcked | loadFunc | loadArg | call =>
    rw [hpc] at hj
    cases hj

theorem Inv.clearAcked (hi : S.caller i = .holds .clearAcked c) :
    ({ S with slot.acked := ∅, slot.opener := some c }.goto i (.holds .storeWaiters c)).Inv := by
  have hno := h.closed_of_holds hi (by decide) (by decide)
  have hc : (S.caller i).call? = some c := by rw [hi]; rfl
  obtain ⟨⟨k, hk, -⟩, -⟩ := h.named hc
  obtain ⟨hw, hf, ha⟩ := h.shape hi
  refine h.advance hc (h.alone hi) _ (h.busy hi) ⟨hw, hf, ha, rfl⟩ (.inl hw) (fun hd => ?_)
    (fun j => ?_) (fun hl => by cases hl) fun _ j => ?_
  · cases hd
    exact ⟨(List.getElem?_eq_some_iff.mp hk).1, .inl ⟨i, .inl (goto_self _ _ _)⟩⟩
  · exact (h.served j).mono (fun hs => absurd hs.2.1 (hno _)) rfl fun _ => rfl
  · rw [h.started_early hc (by rw [hi]; rfl) j, if_neg]
    rintro ⟨-, hm | hb⟩
    · exact absurd hm (Finset.notMem_empty j)
    · obtain ⟨d, hd⟩ := h.open_of_began hb
      exact hno d hd.2.1

theorem Inv.storeWaiters (hi : S.caller i = .holds .storeWaiters c) (hk : S.calls[c]? = some k) :
    ({ S with slot.waiters := k.waiters }.goto i (.holds .waitAcks c)).Inv := by
  have hc : (S.caller i).call? = some c := by rw [hi]; rfl
  obtain ⟨-, hf, ha, ho⟩ := h.shape hi
  have hw : S.waitersOf c = k.waiters := by simp [waitersOf, hk]
  have hopen : ∀ {d}, S.Open d →
      Open ({ S with slot.waiters := k.waiters }.goto i (.holds .waitAcks c)) d := by
    rintro d ⟨j, hj | hj⟩
    · obtain rfl := h.unique hi hj
      rw [hi] at hj
      cases hj
      exact ⟨i, .inr (goto_self _ _ _)⟩
    · obtain rfl := h.unique hi hj
      rw [hi] at hj
      cases hj
  have keep : ∀ {j d}, S.Serving j d →
      Serving ({ S with slot.waiters := k.waiters }.goto i (.holds .waitAcks c)) j d :=
    fun hx => ⟨hx.1, hopen hx.2.1, hx.2.2⟩
  refine h.advance hc (h.alone hi) _ (h.busy hi) ⟨hf, ha, ho⟩ (.inr ⟨ho, hw.symm⟩) (fun hd => ?_)
    (fun j => ?_) (fun hl => by cases hl)
    fun _ => h.started_late hc (by rw [hi]; rfl)
  · exact (h.opened hd).imp id fun hx => hx.imp hopen id
  · exact (h.served j).mono keep rfl id

theorem Inv.waitAcks (hi : S.caller i = .holds .waitAcks c) (hall : S.waitersOf c ⊆ S.slot.acked) :
    (S.goto i (.holds .clearWaiters c)).Inv := by
  have hc : (S.caller i).call? = some c := by rw [hi]; rfl
  obtain ⟨-, -, ho⟩ := h.shape hi
  have hno : ∀ {j d}, ¬ S.Serving j d := by
    rintro j d ⟨hd, -, hm, hna⟩
    obtain rfl := Option.some.inj (ho.symm.trans hd)
    exact hna (hall hm)
  refine h.advance hc (h.alone hi) S.slot (h.busy hi) ⟨ho, hall⟩ ?_ (fun hd => ?_) (fun j => ?_)
    (fun hl => by cases hl) fun _ => h.started_late hc (by rw [hi]; rfl)
  · rcases h.published with hw | ⟨d, hd, hw⟩
    · exact .inl hw
    · obtain rfl := Option.some.inj (ho.symm.trans hd)
      exact .inr ⟨ho, hw⟩
  · obtain rfl := Option.some.inj (ho.symm.trans hd)
    exact ⟨(h.opened hd).1, .inr hall⟩
  · exact (h.served j).mono (fun hs => absurd hs hno) rfl id

theorem Inv.clearWaiters (hi : S.caller i = .holds .clearWaiters c) :
    ({ S with slot.waiters := ∅ }.goto i (.holds .clearFunc c)).Inv := by
  obtain ⟨ho, hall⟩ := h.shape hi
  exact h.advance_closed (by rw [hi]; rfl) (h.alone hi) (h.closed_of_holds hi nofun nofun) _
    (h.busy hi) ⟨rfl, ho, hall⟩ rfl rfl rfl (by rw [hi]; rfl)

theorem Inv.clearFunc (hi : S.caller i = .holds .clearFunc c) :
    ({ S with slot.func := none }.goto i (.holds .clearBusy c)).Inv := by
  obtain ⟨hw, ho, hall⟩ := h.shape hi
  exact h.advance_closed (by rw [hi]; rfl) (h.alone hi) (h.closed_of_holds hi nofun nofun) _
    (h.busy hi) ⟨hw, rfl, ho, hall⟩ hw rfl rfl (by rw [hi]; rfl)

theorem Inv.clearBusy (hi : S.caller i = .holds .clearBusy c) :
    ({ S with busy := false, returned := c :: S.returned }.goto i .idle).Inv := by
  have hc : (S.caller i).call? = some c := by rw [hi]; rfl
  have hno := h.closed_of_holds hi (by decide) (by decide)
  obtain ⟨hw, hf, ho, hall⟩ := h.shape hi
  have hfree : ∀ {j u d}, ({ S with busy := false, returned := c :: S.returned }.goto i
      .idle).caller j ≠ .holds u d := by
    intro j u d hj
    rcases eq_or_ne j i with rfl | hne
    · rw [goto_self] at hj
      cases hj
    · rw [goto_ne _ hne] at hj
      exact hne (h.unique hj hi)
  have hcall : ∀ {j d}, (({ S with busy := false, returned := c :: S.returned }.goto i
      .idle).caller j).call? = some d → j ≠ i ∧ (S.caller j).call? = some d ∧
      ({ S with busy := false, returned := c :: S.returned }.goto i .idle).caller j =
        S.caller j := by
    intro j d hj
    have hne : j ≠ i := by
      rintro rfl
      rw [goto_self] at hj
      cases hj
    exact ⟨hne, by rwa [goto_ne _ hne] at hj, goto_ne _ hne _⟩
  refine ⟨fun hj => absurd hj hfree, fun hj => absurd hj hfree, fun _ => ⟨hw, hf⟩,
    fun hj => absurd hj hfree, ?_, h.published, ?_, ?_, ?_, h.runs, ?_, ?_, ?_⟩
  · intro j d hj
    obtain ⟨hne, hj', -⟩ := hcall hj
    refine ⟨(h.named hj').1, fun hm => ?_⟩
    rcases List.mem_cons.mp hm with rfl | hm
    · exact hne (h.call_unique hj' hc)
    · exact (h.named hj').2 hm
  · intro d hd
    exact ⟨(h.opened hd).1, .inr ((h.opened hd).2.resolve_left (hno _))⟩
  · intro j
    exact (h.served j).mono (fun hs => absurd hs.2.1 (hno _)) rfl id
  · intro d hd
    rcases List.mem_cons.mp hd with rfl | hd
    · exact (h.opened ho).1
    · exact h.returned_lt d hd
  · intro d hd j
    rcases List.mem_cons.mp hd with rfl | hd
    · refine (h.started_late hc (by rw [hi]; rfl) j).trans (if_congr ?_ rfl rfl)
      exact ⟨fun hm => hm.1, fun hm => ⟨hm, .inl (hall hm)⟩⟩
    · exact h.started_returned d hd j
  · intro j d hj hl
    obtain ⟨-, hj, he⟩ := hcall hj
    exact h.started_early hj (he ▸ hl)
  · intro j d hj hl
    obtain ⟨-, hj, he⟩ := hcall hj
    exact h.started_late hj (he ▸ hl)

theorem Inv.acquire (hi : S.caller i = .acquire c) (hb : S.busy = false) :
    ({ S with busy := true }.goto i (.holds .storeFunc c)).Inv := by
  have hnone : ∀ {j u d}, S.caller j ≠ .holds u d := by
    intro j u d hj
    cases hb.symm.trans (h.busy hj)
  exact h.advance_closed (by rw [hi]; rfl) (fun _ _ _ hj => absurd hj hnone)
    (fun _ ⟨_, hj⟩ => hj.elim hnone hnone) S.slot rfl (h.free hb) (h.free hb).1 rfl rfl
    (by rw [hi]; rfl)

theorem Inv.extend (k : Call F A) : Inv { S with calls := S.calls ++ [k] } := by
  have hlen : ∀ {d}, d < S.calls.length → d < (S.calls ++ [k]).length := by
    intro d hd
    rw [List.length_append]
    exact Nat.lt_add_right _ hd
  have hof : ∀ {d}, d < S.calls.length → waitersOf { S with calls := S.calls ++ [k] } d =
      S.waitersOf d := fun hd => by simp only [waitersOf, getElem?_append_of_lt hd]
  have hget : ∀ {d k'}, S.calls[d]? = some k' → (S.calls ++ [k])[d]? = some k' := fun hk' => by
    rw [getElem?_append_of_lt (lt_of_named hk'), hk']
  have hfunc : ∀ {d}, S.FuncOf d → FuncOf { S with calls := S.calls ++ [k] } d :=
    fun hx => hx.imp fun _ hk' => ⟨hget hk'.1, hk'.2⟩
  have harg : ∀ {d}, S.ArgOf d → ArgOf { S with calls := S.calls ++ [k] } d :=
    fun hx => hx.imp fun _ hk' => ⟨hget hk'.1, hk'.2⟩
  have hlt : ∀ {j d}, (S.caller j).call? = some d → d < S.calls.length := fun hj => by
    obtain ⟨⟨k', hk', -⟩, -⟩ := h.named hj
    exact lt_of_named hk'
  have hserving : ∀ {j d}, S.Serving j d → Serving { S with calls := S.calls ++ [k] } j d :=
    fun hx => ⟨hx.1, hx.2.1, by rw [hof (h.opened hx.1).1]; exact hx.2.2.1, hx.2.2.2⟩
  refine ⟨h.busy, h.unique, h.free, ?_, ?_, ?_, ?_, ?_, ?_, ?_, ?_, h.started_early, ?_⟩
  · intro j s d hj
    have hs := h.shape hj
    have hcall : (S.caller j).call? = some d := by rw [hj]; rfl
    have hd := hlt hcall
    cases s with
    | storeFunc => exact hs
    | storeArg => exact ⟨hs.1, hfunc hs.2⟩
    | clearAcked => exact ⟨hs.1, hfunc hs.2.1, harg hs.2.2⟩
    | storeWaiters => exact ⟨hs.1, hfunc hs.2.1, harg hs.2.2.1, hs.2.2.2⟩
    | waitAcks => exact ⟨hfunc hs.1, harg hs.2.1, hs.2.2⟩
    | clearWaiters => exact ⟨hs.1, (hof hd).symm ▸ hs.2⟩
    | clearFunc => exact ⟨hs.1, hs.2.1, (hof hd).symm ▸ hs.2.2⟩
    | clearBusy => exact ⟨hs.1, hs.2.1, hs.2.2.1, (hof hd).symm ▸ hs.2.2.2⟩
  · intro j d hj
    obtain ⟨⟨k', hk', hi⟩, hr⟩ := h.named hj
    exact ⟨⟨k', hget hk', hi⟩, hr⟩
  · rcases h.published with hw | ⟨d, hd, hw⟩
    · exact .inl hw
    · exact .inr ⟨d, hd, hw.trans (hof (h.opened hd).1).symm⟩
  · intro d hd
    obtain ⟨hd', ho⟩ := h.opened hd
    exact ⟨hlen hd', ho.imp id fun hw => (hof hd').symm ▸ hw⟩
  · intro j
    have hs := h.served j
    change Served _ j (S.service j)
    cases hpc : S.service j with
    | out => trivial
    | loadAcked seen =>
      rw [hpc] at hs
      obtain ⟨d, hd, hd', hm, ho⟩ := hs
      exact ⟨d, hd, hlen hd', (hof hd').symm ▸ hm, ho⟩
    | loadFunc | ack =>
      rw [hpc] at hs
      obtain ⟨d, hd⟩ := hs
      exact ⟨d, hserving hd⟩
    | loadArg f | call f a =>
      rw [hpc] at hs
      obtain ⟨d, k', hd, hk', hrest⟩ := hs
      exact ⟨d, k', hserving hd, hget hk', hrest⟩
    | running f a =>
      rw [hpc] at hs
      exact hserving hs
  · intro d hd
    exact hlen (h.returned_lt d hd)
  · intro r hr
    obtain ⟨k', hk', hrest⟩ := h.runs r hr
    exact ⟨k', hget hk', hrest⟩
  · intro d hd j
    rw [hof (h.returned_lt d hd)]
    exact h.started_returned d hd j
  · intro j d hj hl j'
    rw [hof (hlt hj)]
    exact h.started_late hj hl j'

theorem Inv.started_unmade (hc : S.calls.length ≤ c) (i : Cpu) : S.started c i = 0 := by
  refine List.countP_eq_zero.mpr fun r hr => ?_
  obtain ⟨k, hk, -⟩ := h.runs r hr
  have hlt := lt_of_named hk
  simp only [Bool.and_eq_true, beq_iff_eq, not_and]
  intro he
  omega

theorem Inv.callMask (hi : S.caller i = .idle) (mask : Finset Cpu) (f : F) (arg : A) :
    (S.callMask i mask f arg).Inv := by
  unfold CallSys.callMask
  have hx := h.extend { caller := i, mask, online := S.online, func := f, arg }
  have hzero := fun j => h.started_unmade le_rfl j
  generalize hk : ({ caller := i, mask, online := S.online, func := f, arg } : Call F A) = k at hx
  have hget : (S.calls ++ [k])[S.calls.length]? = some k := by simp
  have hlen : S.calls.length < (S.calls ++ [k]).length := by simp
  simp only
  split
  · rename_i hw
    refine ⟨hx.busy, hx.unique, hx.free, hx.shape, ?_, hx.published, hx.opened, hx.served, ?_,
      hx.runs, ?_, hx.started_early, hx.started_late⟩
    · intro j d hj
      refine ⟨(hx.named hj).1, fun hm => ?_⟩
      rcases List.mem_cons.mp hm with rfl | hm
      · obtain ⟨⟨k', hk', -⟩, -⟩ := h.named hj
        exact absurd (lt_of_named hk') (lt_irrefl _)
      · exact (hx.named hj).2 hm
    · intro d hd
      rcases List.mem_cons.mp hd with rfl | hd
      · exact hlen
      · exact hx.returned_lt d hd
    · intro d hd j
      rcases List.mem_cons.mp hd with rfl | hd
      · rw [if_neg]
        · exact hzero j
        · simp [waitersOf, hw]
      · exact hx.started_returned d hd j
  · have hheld : ∀ {j u d}, ({ S with calls := S.calls ++ [k] }.goto i
        (.acquire S.calls.length)).caller j = .holds u d → S.caller j = .holds u d := by
      intro j u d hj
      rcases eq_or_ne j i with rfl | hne
      · rw [goto_self] at hj
        cases hj
      · rwa [goto_ne _ hne] at hj
    have hopen : ∀ {d}, Open { S with calls := S.calls ++ [k] } d →
        Open ({ S with calls := S.calls ++ [k] }.goto i (.acquire S.calls.length)) d := by
      rintro d ⟨j, hj⟩
      have hne : j ≠ i := by
        rintro rfl
        rcases hj with hj | hj
        · exact absurd (hi.symm.trans hj) (by simp)
        · exact absurd (hi.symm.trans hj) (by simp)
      exact ⟨j, by rwa [goto_ne _ hne]⟩
    refine ⟨fun hj => hx.busy (hheld hj), fun hj hj' => hx.unique (hheld hj) (hheld hj'), hx.free,
      fun hj => hx.shape (hheld hj), ?_, hx.published, ?_, ?_, hx.returned_lt, hx.runs,
      hx.started_returned, ?_, ?_⟩
    · intro j d hj
      rcases eq_or_ne j i with rfl | hne
      · rw [goto_self] at hj
        cases hj
        refine ⟨⟨k, hget, by rw [← hk]⟩, fun hm => ?_⟩
        exact absurd (h.returned_lt _ hm) (lt_irrefl _)
      · rw [goto_ne _ hne] at hj
        exact hx.named hj
    · intro d hd
      exact (hx.opened hd).imp id fun ho => ho.imp hopen id
    · intro j
      exact (hx.served j).mono (fun hx => ⟨hx.1, hopen hx.2.1, hx.2.2⟩) rfl id
    · intro j d hj hl
      rcases eq_or_ne j i with rfl | hne
      · rw [goto_self] at hj
        cases hj
        exact hzero
      · rw [goto_ne _ hne] at hj hl
        exact hx.started_early hj hl
    · intro j d hj hl
      rcases eq_or_ne j i with rfl | hne
      · rw [goto_self] at hl
        cases hl
      · rw [goto_ne _ hne] at hj hl
        exact hx.started_late hj hl

end CallSys
end VibeOS.Irq
