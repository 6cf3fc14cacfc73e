import VibeOS.Block.Cache
import VibeOS.Lib.Table

/-!
What each cache operation does to the slots. `Cache.slot` is a slot's page and
metadata without the clock's reference bit; the hand, the readahead run and the
counters are not in it either. Every operation leaves the slots as they are or
changes one of them, and the lemmas here say which and how.
-/
namespace VibeOS.Block

@[ext]
structure Slot where
  key : CacheKey
  valid : Bool
  dirty : Bool
  fill : Bool
  wb : Bool
  start : Nat
  err : Option (Nat × BlockError)
  data : Page

/-- The slot holds `key`, or is being filled with it. -/
def Slot.Holds (s : Slot) (key : CacheKey) : Prop :=
  (s.valid = true ∨ s.fill = true) ∧ s.key = key

/-- The slot re-keyed for a read of `key` from the device. -/
def Slot.filling (s : Slot) (key : CacheKey) : Slot :=
  { s with key := key, valid := false, dirty := false, fill := true, wb := false }

/-- The slot holding page `p` of `key`, not in writeback. -/
def Slot.holding (s : Slot) (key : CacheKey) (p : Page) (dirty : Bool) : Slot :=
  { s with key := key, valid := true, dirty := dirty, fill := false, wb := false, data := p }

/-- The slot with every flag cleared but, perhaps, the writeback's. -/
def Slot.cleared (s : Slot) (wb : Bool) : Slot :=
  { s with valid := false, dirty := false, fill := false, wb := wb }

/-- The slot after its writeback ended with `res`: dirty again with the error kept,
when the write of the page it holds failed. -/
def Slot.ended (s : Slot) (key : CacheKey) (res : Except BlockError Unit) : Slot :=
  match res with
  | .error e =>
    if s.key = key ∧ s.valid = true then
      { s with wb := false, dirty := true, err := some (s.start, e) }
    else { s with wb := false }
  | .ok () => { s with wb := false }

/-- A flush of `dev` has nothing to write or wait for in the slot. -/
def Slot.Passed (s : Slot) (dev : Option Nat) : Prop :=
  (∃ d, dev = some d ∧ s.key.dev ≠ d) ∨
    (s.wb = false ∧ ¬ (s.valid = true ∧ s.dirty = true ∧ s.fill = false))

/-- The slot is neither being filled nor written back. -/
def Slot.Idle (s : Slot) : Prop :=
  s.fill = false ∧ s.wb = false

/-- The slot holds a page for a writeback to begin on. -/
structure Slot.Due (s : Slot) : Prop where
  valid : s.valid = true
  dirty : s.dirty = true
  idle : s.Idle

/-- The slot can be given another key without losing a page. -/
structure Slot.Spare (s : Slot) : Prop where
  idle : s.Idle
  clean : s.valid = true → s.dirty = false

namespace Cache
variable {N : Nat}

def slot (c : Cache N) (i : Fin N) : Slot :=
  { key := (c.metas i).key, valid := (c.metas i).flags.valid, dirty := (c.metas i).flags.dirty,
    fill := (c.metas i).flags.fill, wb := (c.metas i).flags.wb, start := (c.metas i).wbStart,
    err := (c.metas i).wbErr, data := c.data i }

/-- The slots and the writeback counter are unchanged. -/
structure Same (c c' : Cache N) : Prop where
  slot : c'.slot = c.slot
  seq : c'.wbSeq = c.wbSeq

/-- Only slot `i` changed, and it is now `s`. -/
structure Changed (c c' : Cache N) (i : Fin N) (s : Slot) : Prop where
  slot : c'.slot = Function.update c.slot i s
  seq : c'.wbSeq = c.wbSeq

/-- Slot `i` went into writeback. -/
structure Begun (c c' : Cache N) (i : Fin N) : Prop where
  slot : c'.slot = Function.update c.slot i
    { c.slot i with wb := true, dirty := false, start := (c.wbSeq + 1) % 2 ^ 64 }
  seq : c'.wbSeq = (c.wbSeq + 1) % 2 ^ 64

section
variable {c c' d : Cache N} {i j : Fin N} {s : Slot}

theorem Changed.self (h : Changed c c' i s) : c'.slot i = s := by
  rw [h.slot, Function.update_self]

theorem Changed.other (h : Changed c c' i s) (hj : j ≠ i) : c'.slot j = c.slot j := by
  rw [h.slot, Function.update_of_ne hj]

theorem Begun.self (h : Begun c c' i) : c'.slot i =
    { c.slot i with wb := true, dirty := false, start := (c.wbSeq + 1) % 2 ^ 64 } := by
  rw [h.slot, Function.update_self]

theorem Begun.other (h : Begun c c' i) (hj : j ≠ i) : c'.slot j = c.slot j := by
  rw [h.slot, Function.update_of_ne hj]

theorem Same.refl (c : Cache N) : Same c c := ⟨rfl, rfl⟩

theorem Same.trans {a b c : Cache N} (h : Same a b) (h' : Same b c) : Same a c :=
  ⟨h'.slot.trans h.slot, h'.seq.trans h.seq⟩

theorem same_noteSeq (c : Cache N) (key : CacheKey) : Same c (c.noteSeq key) := ⟨rfl, rfl⟩

theorem same_countHit (c : Cache N) : Same c c.countHit := ⟨rfl, rfl⟩

theorem Same.changed (h : Same c c') (hd : Changed c' d i s) : Changed c d i s :=
  ⟨hd.slot.trans (by rw [h.slot]), hd.seq.trans h.seq⟩

theorem Changed.same (h : Changed c c' i s) (hd : Same c' d) : Changed c d i s :=
  ⟨hd.slot.trans h.slot, hd.seq.trans h.seq⟩

theorem Same.begun (h : Same c c') (hd : Begun c' d i) : Begun c d i :=
  ⟨hd.slot.trans (by rw [h.slot, h.seq]), hd.seq.trans (by rw [h.seq])⟩

end

/-- The slot a metadata record and a page make. -/
def slotOf (m : Meta) (p : Page) : Slot :=
  { key := m.key, valid := m.flags.valid, dirty := m.flags.dirty, fill := m.flags.fill,
    wb := m.flags.wb, start := m.wbStart, err := m.wbErr, data := p }

theorem changed_setMeta (c : Cache N) (i : Fin N) (m : Meta) :
    Changed c (c.setMeta i m) i (slotOf m (c.data i)) := by
  refine ⟨?_, rfl⟩
  funext j
  by_cases h : j = i
  · subst h
    simp [slot, setMeta, slotOf]
  · simp [slot, setMeta, h]

theorem changed_setData_setMeta (c : Cache N) (i : Fin N) (m : Meta) (p : Page) :
    Changed c ((c.setData i p).setMeta i m) i (slotOf m p) := by
  refine ⟨?_, rfl⟩
  funext j
  by_cases h : j = i
  · subst h
    simp [slot, setMeta, setData, slotOf]
  · simp [slot, setMeta, setData, h]

theorem begun_beginWriteback (c : Cache N) (i : Fin N) : Begun c (c.beginWriteback i) i := by
  refine ⟨?_, rfl⟩
  funext j
  by_cases h : j = i
  · subst h
    simp [slot, beginWriteback, setMeta]
  · simp [slot, beginWriteback, setMeta, h]

theorem same_setRef (c : Cache N) (i : Fin N) (b : Bool) :
    Same c (c.setFlags i { (c.metas i).flags with ref := b }) := by
  refine ⟨?_, rfl⟩
  funext j
  by_cases h : j = i
  · subst h
    simp [slot, setFlags, setMeta]
  · simp [slot, setFlags, setMeta, h]

theorem find_eq_some {c : Cache N} {key : CacheKey} {i : Fin N} (h : c.find key = some i) :
    (c.slot i).Holds key := by
  have := List.find?_some h
  simpa [Slot.Holds, slot] using this

theorem find_eq_none {c : Cache N} {key : CacheKey} (h : c.find key = none) (i : Fin N) :
    ¬ (c.slot i).Holds key := by
  have := List.find?_eq_none.mp h i (List.mem_finRange i)
  simpa [Slot.Holds, slot] using this

section
variable [NeZero N]

/-- The clock only clears reference bits, and picks a slot neither filling nor in
writeback. -/
theorem clockLoop_spec (c : Cache N) (dirty : Option (Fin N)) (steps : Nat)
    (hd : ∀ i, dirty = some i → (c.slot i).Idle) :
    Same c (c.clockLoop dirty steps).2 ∧
      ∀ i, (c.clockLoop dirty steps).1 = some i → (c.slot i).Idle := by
  induction steps generalizing c dirty with
  | zero => exact ⟨.refl c, hd⟩
  | succ steps ih =>
    have hmove : Same c { c with hand := c.hand + 1 } := ⟨rfl, rfl⟩
    unfold clockLoop
    dsimp only
    split
    · obtain ⟨hs, hi⟩ := ih { c with hand := c.hand + 1 } dirty hd
      exact ⟨hmove.trans hs, hi⟩
    rename_i hbusy
    have hfree : (c.slot c.hand).Idle := by simpa [slot, Slot.Idle] using hbusy
    split
    · refine ⟨hmove, ?_⟩
      intro i hi
      obtain rfl := Option.some.inj hi
      exact hfree
    split
    · have hclear := hmove.trans (same_setRef { c with hand := c.hand + 1 } c.hand false)
      obtain ⟨hs, hi⟩ := ih _ dirty (by rw [hclear.slot]; exact hd)
      refine ⟨hclear.trans hs, ?_⟩
      rw [hclear.slot] at hi
      exact hi
    split
    · refine ⟨hmove, ?_⟩
      intro i hi
      obtain rfl := Option.some.inj hi
      exact hfree
    · have hd' : ∀ i, dirty.or (some c.hand) = some i → (c.slot i).Idle := by
        intro i hi
        cases dirty with
        | none =>
          obtain rfl : c.hand = i := by simpa using hi
          exact hfree
        | some j => exact hd i (by simpa using hi)
      obtain ⟨hs, hi⟩ := ih { c with hand := c.hand + 1 } _ hd'
      exact ⟨hmove.trans hs, hi⟩

theorem clockSlot_spec (c : Cache N) :
    Same c c.clockSlot.2 ∧
      ∀ i, c.clockSlot.1 = some i → (c.slot i).Idle :=
  clockLoop_spec c none (N * 2) (by simp)

/-- What a miss finds: an error, a slot to wait for, a dirty victim whose writeback
begins, or a slot free to re-key. -/
inductive Victim (c : Cache N) (key : CacheKey) :
    Except BlockError (Fin N ⊕ Fill N × Option Page) × Cache N → Prop
  | error {e c'} (h : Same c c') : Victim c key (.error e, c')
  | wait {i evict c'} (h : Same c c') : Victim c key (.ok (.inr (⟨i, key, .none, evict⟩, none)), c')
  | writeback {i c'} (h : Begun c c' i) (hd : (c.slot i).Due) :
      Victim c key
        (.ok (.inr (⟨i, key, .writeback, (c.slot i).key⟩, some (c.slot i).data)), c')
  | free {i c'} (h : Same c c') (hs : (c.slot i).Spare) : Victim c key (.ok (.inl i), c')

theorem victim_spec (c : Cache N) (key : CacheKey) : Victim c key (c.victim key) := by
  obtain ⟨hsame, hfree⟩ := clockSlot_spec c
  unfold victim
  split
  · rename_i c' hc
    rw [hc] at hsame
    split
    · exact .wait hsame
    · exact .error hsame
  · rename_i i c' hc
    rw [hc] at hsame hfree
    have hidle := hfree i rfl
    have hslot : c'.slot i = c.slot i := by rw [hsame.slot]
    dsimp only
    split
    · rename_i hvd
      have hvd : (c'.slot i).valid = true ∧ (c'.slot i).dirty = true := by simpa [slot] using hvd
      rw [hslot] at hvd
      have hkey : (c'.metas i).key = (c.slot i).key := congrArg Slot.key hslot
      have hdata : c'.data i = (c.slot i).data := congrArg Slot.data hslot
      rw [hkey, hdata]
      exact .writeback (hsame.begun (begun_beginWriteback c' i)) ⟨hvd.1, hvd.2, hidle⟩
    · rename_i hvd
      have hvd : (c'.slot i).valid = true → (c'.slot i).dirty = false := by simpa [slot] using hvd
      rw [hslot] at hvd
      exact .free (hsame.trans ⟨rfl, rfl⟩) ⟨hidle, hvd⟩

/-- The fill a plan comes to: a slot to wait for, a dirty victim whose writeback begins, or a slot
taken for the key. -/
inductive FillPlan (c : Cache N) (key : CacheKey) : Fill N → Option Page → Cache N → Prop
  | wait {f c'} (h : Same c c') (hn : f.need = .none) : FillPlan c key f none c'
  | writeback {i c'} (h : Begun c c' i) (hd : (c.slot i).Due) :
      FillPlan c key ⟨i, key, .writeback, (c.slot i).key⟩ (some (c.slot i).data) c'
  | read {i c'} (h : Changed c c' i (Slot.filling (c.slot i) key))
      (hnone : ∀ j, ¬ (c.slot j).Holds key) (hs : (c.slot i).Spare) :
      FillPlan c key ⟨i, key, .read, key⟩ none c'

omit [NeZero N] in
theorem Victim.fillPlan {f : Fill N} {evict : Option Page} {c' : Cache N}
    (h : Victim c key (.ok (.inr (f, evict)), c')) : FillPlan c key f evict c' := by
  cases h with
  | wait h => exact .wait h rfl
  | writeback h hd => exact .writeback h hd

inductive ReadPlan (c : Cache N) (key : CacheKey) (off len : Nat) :
    Except BlockError (Plan N (List UInt8)) × Cache N → Prop
  | error {e c'} (h : Same c c') : ReadPlan c key off len (.error e, c')
  | fill {f evict c'} (h : FillPlan c key f evict c') :
      ReadPlan c key off len (.ok (.fill f evict), c')
  | hit {i c'} (h : Same c c') (hk : (c.slot i).key = key) (hv : (c.slot i).valid = true)
      (hf : (c.slot i).fill = false) (hlen : off + len ≤ pageSize) :
      ReadPlan c key off len (.ok (.done ((c.slot i).data.slice off len)), c')

theorem planRead_spec (c : Cache N) (key : CacheKey) (off len : Nat) :
    ReadPlan c key off len (c.planRead key off len) := by
  unfold planRead
  split
  · exact .error (.refl c)
  rename_i hlen
  split
  · rename_i i hfind
    obtain ⟨hvf, hk⟩ := find_eq_some hfind
    split
    · exact .fill (.wait (.refl c) rfl)
    · rename_i hfill
      have hf : (c.slot i).fill = false := by simpa [slot] using hfill
      have hv : (c.slot i).valid = true := by simpa [hf] using hvf
      have hsame := ((same_setRef c i true).trans (same_countHit _)).trans (same_noteSeq _ key)
      exact .hit (i := i) hsame hk hv hf (by omega)
  · rename_i hfind
    have hnone := find_eq_none hfind
    have hvic := victim_spec c key
    split
    · rename_i e c' hc
      rw [hc] at hvic
      cases hvic with
      | error h => exact .error h
    · rename_i f evict c' hc
      exact .fill (hc ▸ hvic).fillPlan
    · rename_i i c' hc
      rw [hc] at hvic
      cases hvic with
      | free h hs =>
        have hslot : c'.slot i = c.slot i := by rw [h.slot]
        have hnew : slotOf { c'.metas i with key, flags := { fill := true } } (c'.data i) =
            Slot.filling (c.slot i) key := by
          rw [← hslot]
          rfl
        exact .fill (.read (hnew ▸ (h.changed (changed_setMeta c' i _)).same (same_noteSeq _ key))
          hnone hs)

inductive WritePlan (c : Cache N) (key : CacheKey) (off : Nat) (src : List UInt8) :
    Except BlockError (Plan N Unit) × Cache N → Prop
  | error {e c'} (h : Same c c') : WritePlan c key off src (.error e, c')
  | fill {f evict c'} (h : FillPlan c key f evict c') :
      WritePlan c key off src (.ok (.fill f evict), c')
  | hit {i c'}
      (h : Changed c c' i { c.slot i with dirty := true, data := (c.slot i).data.write off src })
      (hk : (c.slot i).key = key) (hv : (c.slot i).valid = true) (hf : (c.slot i).fill = false)
      (hlen : off + src.length ≤ pageSize) :
      WritePlan c key off src (.ok (.done ()), c')
  | whole {i c'}
      (h : Changed c c' i (Slot.holding (c.slot i) key ((c.slot i).data.write off src) true))
      (hnone : ∀ j, ¬ (c.slot j).Holds key) (hs : (c.slot i).Spare)
      (hoff : off = 0) (hlen : src.length = pageSize) :
      WritePlan c key off src (.ok (.done ()), c')

theorem planWrite_spec (c : Cache N) (key : CacheKey) (off : Nat) (src : List UInt8) :
    WritePlan c key off src (c.planWrite key off src) := by
  unfold planWrite
  split
  · exact .error (.refl c)
  rename_i hlen
  split
  · rename_i i hfind
    obtain ⟨hvf, hk⟩ := find_eq_some hfind
    split
    · exact .fill (.wait (.refl c) rfl)
    · rename_i hfill
      have hf : (c.slot i).fill = false := by simpa [slot] using hfill
      have hv : (c.slot i).valid = true := by simpa [hf] using hvf
      have hch := changed_setData_setMeta c i
        { c.metas i with
          flags := { (c.metas i).flags with dirty := true, ref := true, valid := true } }
        ((c.data i).write off src)
      have hnew : slotOf
          { c.metas i with
            flags := { (c.metas i).flags with dirty := true, ref := true, valid := true } }
          ((c.data i).write off src) =
          { c.slot i with dirty := true, data := (c.slot i).data.write off src } := by
        have : (c.metas i).flags.valid = true := hv
        simp [slotOf, slot, this]
      rw [hnew] at hch
      exact .hit ((hch.same (same_countHit _)).same (same_noteSeq _ key)) hk hv hf (by omega)
  · rename_i hfind
    have hnone := find_eq_none hfind
    have hvic := victim_spec c key
    split
    · rename_i e c' hc
      rw [hc] at hvic
      cases hvic with
      | error h => exact .error h
    · rename_i f evict c' hc
      exact .fill (hc ▸ hvic).fillPlan
    · rename_i i c' hc
      rw [hc] at hvic
      cases hvic with
      | free h hs =>
        replace h := h.trans (same_noteSeq c' key)
        have hslot : (c'.noteSeq key).slot i = c.slot i := by rw [h.slot]
        dsimp only
        split
        · rename_i hwhole
          obtain ⟨hoff, hsrc⟩ : off = 0 ∧ src.length = pageSize := by simpa using hwhole
          have hch := h.changed (changed_setData_setMeta (c'.noteSeq key) i
            { (c'.noteSeq key).metas i with
              key, flags := { valid := true, dirty := true, ref := true } }
            (((c'.noteSeq key).data i).write 0 src))
          have hnew : slotOf
              { (c'.noteSeq key).metas i with
                key, flags := { valid := true, dirty := true, ref := true } }
              (((c'.noteSeq key).data i).write 0 src) =
              Slot.holding (c.slot i) key ((c.slot i).data.write off src) true := by
            rw [← hslot, hoff]
            rfl
          rw [hnew] at hch
          exact .whole hch hnone hs hoff hsrc
        · have hch := h.changed (changed_setMeta (c'.noteSeq key) i
            { (c'.noteSeq key).metas i with key, flags := { fill := true } })
          have hnew : slotOf { (c'.noteSeq key).metas i with key, flags := { fill := true } }
              ((c'.noteSeq key).data i) = Slot.filling (c.slot i) key := by
            rw [← hslot]
            rfl
          rw [hnew] at hch
          exact .fill (.read hch hnone hs)

end

/-- The slot is being filled with the fill's key. -/
def Filling (c : Cache N) (f : Fill N) : Prop :=
  (c.slot f.slot).key = f.key ∧ (c.slot f.slot).fill = true

theorem fillingFor_iff (c : Cache N) (f : Fill N) : c.fillingFor f = true ↔ c.Filling f := by
  simp [fillingFor, Filling, slot]

theorem installRead_spec (c : Cache N) (f : Fill N) (page : Page) (off len : Nat) :
    (∃ e, c.installRead f page off len = (.error e, c)) ∨
      ∃ c', c.installRead f page off len = (.ok (page.slice off len), c') ∧
        off + len ≤ pageSize ∧ ((¬ c.Filling f ∧ c' = c) ∨
          c.Filling f ∧ Changed c c' f.slot (Slot.holding (c.slot f.slot) f.key page false)) := by
  unfold installRead
  split
  · exact .inl ⟨_, rfl⟩
  rename_i hlen
  split
  · rename_i h
    refine .inr ⟨c, rfl, by omega, .inl ⟨?_, rfl⟩⟩
    simpa [← fillingFor_iff] using h
  · rename_i h
    have hfill : c.Filling f := by simpa [← fillingFor_iff] using h
    refine .inr ⟨_, ?_, by omega, .inr ⟨hfill, changed_setData_setMeta c f.slot
      { c.metas f.slot with key := f.key, flags := { valid := true, ref := true } } page⟩⟩
    simp [setData, setMeta]

theorem installWrite_spec (c : Cache N) (f : Fill N) (page : Page) (off : Nat) (src : List UInt8) :
    (∃ e, c.installWrite f page off src = (.error e, c)) ∨
      (¬ c.Filling f ∧ c.installWrite f page off src = (.ok false, c)) ∨
      ∃ c', c.installWrite f page off src = (.ok true, c') ∧ c.Filling f ∧
        off + src.length ≤ pageSize ∧
        Changed c c' f.slot (Slot.holding (c.slot f.slot) f.key (page.write off src) true) := by
  unfold installWrite
  split
  · exact .inl ⟨_, rfl⟩
  rename_i hlen
  split
  · rename_i h
    refine .inr (.inl ⟨?_, rfl⟩)
    simpa [← fillingFor_iff] using h
  · rename_i h
    have hfill : c.Filling f := by simpa [← fillingFor_iff] using h
    exact .inr (.inr ⟨_, rfl, hfill, by omega, changed_setData_setMeta c f.slot
      { c.metas f.slot with key := f.key, flags := { valid := true, dirty := true, ref := true } }
      (page.write off src)⟩)

theorem abortFill_spec (c : Cache N) (f : Fill N) :
    (¬ c.Filling f ∧ c.abortFill f = c) ∨
      c.Filling f ∧ Changed c (c.abortFill f) f.slot (Slot.cleared (c.slot f.slot) false) := by
  unfold abortFill
  split
  · rename_i h
    exact .inr
      ⟨(fillingFor_iff c f).mp h, changed_setMeta c f.slot { c.metas f.slot with flags := {} }⟩
  · rename_i h
    exact .inl ⟨fun hf => h ((fillingFor_iff c f).mpr hf), rfl⟩

theorem takeDirty_spec (c : Cache N) (start : Nat) (dev : Option Nat) :
    c.takeDirty start dev = (none, c) ∨
      ∃ i c', c.takeDirty start dev = (some (i, (c.slot i).key, (c.slot i).data), c') ∧
        Begun c c' i ∧ (c.slot i).Due := by
  unfold takeDirty
  dsimp only
  split
  · rename_i i hi
    have hcond := List.find?_some hi
    simp only [Bool.and_eq_true, Bool.not_eq_true', decide_eq_true_eq] at hcond
    obtain ⟨⟨-, ⟨⟨hv, hd⟩, hf⟩, hw⟩, -⟩ := hcond
    exact .inr ⟨i, _, rfl, begun_beginWriteback c i, hv, hd, hf, hw⟩
  · exact .inl rfl

theorem endWriteback_spec (c : Cache N) (i : Fin N) (key : CacheKey)
    (res : Except BlockError Unit) :
    ((c.slot i).wb = false ∧ c.endWriteback i key res = c) ∨
      (c.slot i).wb = true ∧
        Changed c (c.endWriteback i key res) i (Slot.ended (c.slot i) key res) := by
  unfold endWriteback
  dsimp only
  split
  · rename_i h
    exact .inl ⟨by simpa [slot] using h, rfl⟩
  · rename_i h
    refine .inr ⟨by simpa [slot] using h, ?_⟩
    cases res with
    | ok _ => exact changed_setMeta c i _
    | error e =>
      by_cases hc : (c.slot i).key = key ∧ (c.slot i).valid = true
      · simp only [Slot.ended, if_pos hc]
        rw [if_pos (by simpa [slot] using hc)]
        exact changed_setMeta c i _
      · simp only [Slot.ended, if_neg hc]
        rw [if_neg (by simpa [slot] using hc)]
        exact changed_setMeta c i _

theorem invalidate_spec (c : Cache N) (key : CacheKey) :
    (c.invalidate key = c ∧ ∀ i, ¬ (c.slot i).Holds key) ∨
      ∃ i, (c.slot i).Holds key ∧
        Changed c (c.invalidate key) i (Slot.cleared (c.slot i) (c.slot i).wb) := by
  unfold invalidate
  split
  · rename_i i hi
    exact .inr ⟨i, find_eq_some hi, changed_setMeta c i _⟩
  · rename_i hi
    exact .inl ⟨rfl, find_eq_none hi⟩

theorem slot_dropDev (c : Cache N) (dev : Nat) (i : Fin N) :
    (c.dropDev dev).slot i =
      if (c.slot i).key.dev = dev then Slot.cleared (c.slot i) (c.slot i).wb else c.slot i := by
  by_cases h : (c.slot i).key.dev = dev
  · rw [if_pos h]
    simp_all [slot, dropDev, Slot.cleared]
  · rw [if_neg h]
    simp_all [slot, dropDev]

/-- What the sweep's next step is: every slot before it is passed. -/
inductive SweepStep (c : Cache N) (sw : FlushSweep) :
    Option (FlushStep N) × FlushSweep × Cache N → Prop
  | finish {sw'} (hpass : ∀ j : Fin N, sw.slot ≤ j → (c.slot j).Passed sw.dev) :
      SweepStep c sw (none, sw', c)
  | write {i : Fin N} {sw' c'} (h : Begun c c' i) (hle : sw.slot ≤ i)
      (hpass : ∀ j : Fin N, sw.slot ≤ j → j < i → (c.slot j).Passed sw.dev)
      (hd : (c.slot i).Due)
      (hsw : sw'.slot = (i : Nat) + 1 ∧ sw'.dev = sw.dev ∧ sw'.since = sw.since) :
      SweepStep c sw (some (.write i (c.slot i).key (c.slot i).data), sw', c')
  | wait {i : Fin N} {sw'} (hle : sw.slot ≤ i)
      (hpass : ∀ j : Fin N, sw.slot ≤ j → j < i → (c.slot j).Passed sw.dev)
      (hw : (c.slot i).wb = true)
      (hsw : sw'.slot = (i : Nat) ∧ sw'.dev = sw.dev ∧ sw'.since = sw.since) :
      SweepStep c sw
        (some (.wait i (c.slot i).key (c.slot i).start (decide ((c.slot i).start > sw.since))),
          sw', c)

theorem SweepStep.skip {c : Cache N} {sw : FlushSweep} {i : Fin N} (hi : sw.slot = i)
    (hp : (c.slot i).Passed sw.dev) {r : Option (FlushStep N) × FlushSweep × Cache N}
    (h : SweepStep c sw.advance r) : SweepStep c sw r := by
  have hslot : sw.advance.slot = sw.slot + 1 := rfl
  have hnext : ∀ j : Fin N, sw.slot ≤ j → sw.advance.slot ≤ j ∨ j = i := by
    intro j hj
    by_cases e : j = i
    · exact .inr e
    · have : (j : Nat) ≠ i := fun h => e (Fin.ext h)
      omega
  cases h with
  | finish hpass =>
    refine .finish fun j hj => ?_
    rcases hnext j hj with hj | rfl
    · exact hpass j hj
    · exact hp
  | write h hle hpass hd hsw =>
    refine .write h (by omega) (fun j hj hji => ?_) hd hsw
    rcases hnext j hj with hj | rfl
    · exact hpass j hj hji
    · exact hp
  | wait hle hpass hw hsw =>
    refine .wait (by omega) (fun j hj hji => ?_) hw hsw
    rcases hnext j hj with hj | rfl
    · exact hpass j hj hji
    · exact hp

theorem flushSlot_spec (c : Cache N) (i : Fin N) (dev : Option Nat) (since : Nat) :
    (c.flushSlot i dev since = (.done, c) ∧ (c.slot i).Passed dev) ∨
      (c.flushSlot i dev since = (.wait i (c.slot i).key (c.slot i).start
        (decide ((c.slot i).start > since)), c) ∧ (c.slot i).wb = true) ∨
      c.flushSlot i dev since = (.write i (c.slot i).key (c.slot i).data, c.beginWriteback i) ∧
        (c.slot i).Due := by
  unfold flushSlot
  dsimp only
  split
  · rename_i hdev
    refine .inl ⟨rfl, .inl ?_⟩
    cases dev with
    | none => simp at hdev
    | some d => exact ⟨d, rfl, fun h => by simp [← h, slot] at hdev⟩
  split
  · rename_i hw
    exact .inr (.inl ⟨rfl, hw⟩)
  rename_i hw
  split
  · rename_i hn
    refine .inl ⟨rfl, .inr ⟨by simpa [slot] using hw, ?_⟩⟩
    rintro ⟨hv, hd, hf⟩
    simp_all [slot]
  · rename_i hn
    obtain ⟨⟨hv, hd⟩, hf⟩ : ((c.metas i).flags.valid = true ∧ (c.metas i).flags.dirty = true) ∧
        (c.metas i).flags.fill = false := by simpa using hn
    exact .inr (.inr ⟨rfl, hv, hd, hf, by simpa [slot] using hw⟩)

theorem flushNext_spec (c : Cache N) (sw : FlushSweep) : SweepStep c sw (c.flushNext sw) := by
  fun_induction flushNext c sw with
  | case1 c sw h c' hs ih =>
    rcases flushSlot_spec c ⟨sw.slot, h⟩ sw.dev sw.since with ⟨he, hp⟩ | ⟨he, -⟩ | ⟨he, -⟩ <;>
      rw [he] at hs <;> cases hs
    exact ih.skip rfl hp
  | case2 c sw h i key page c' hs =>
    rcases flushSlot_spec c ⟨sw.slot, h⟩ sw.dev sw.since with
      ⟨he, -⟩ | ⟨he, -⟩ | ⟨he, hd⟩ <;> rw [he] at hs <;> cases hs
    refine .write (begun_beginWriteback c _) (Nat.le_refl _) ?_ hd ⟨rfl, rfl, rfl⟩
    intro j hj hji
    exact absurd hji (Nat.not_lt.mpr hj)
  | case3 c sw h i key start done c' hs =>
    rcases flushSlot_spec c ⟨sw.slot, h⟩ sw.dev sw.since with ⟨he, -⟩ | ⟨he, hw⟩ | ⟨he, -⟩ <;>
      rw [he] at hs <;> cases hs
    refine .wait (Nat.le_refl _) ?_ hw ⟨rfl, rfl, rfl⟩
    intro j hj hji
    exact absurd hji (Nat.not_lt.mpr hj)
  | case4 c sw h =>
    refine .finish fun j hj => ?_
    have := j.isLt
    omega

end Cache
end VibeOS.Block
