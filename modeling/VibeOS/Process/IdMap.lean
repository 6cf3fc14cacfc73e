import VibeOS.Lib.Probing
import VibeOS.Process.PidAlloc

/-!
The index from ids to table slots: a fixed table of `cap` cells, linear probing from `id & (cap -
1)` and removal by backward shift. Its cells are a table that linear probing searches, with the
remainder of the id as home; each call of the index is then a call of the finite map from ids to
slots, for every history, full tables included.
-/
namespace VibeOS.Process
open VibeOS.Lib VibeOS.Lib.Probing

/-- A key of a cell that holds no id. -/
def emptyKey : Nat := 2 ^ 32 - 1

structure IdIndex (cap : Nat) where
  keys : Fin cap → Nat
  slots : Fin cap → Nat
  len : Nat

def wrappingSub (a b : Nat) : Nat := (a + 2 ^ 64 - b) % 2 ^ 64

inductive IdOut where
  | inserted (ok : Bool)
  | removed (slot : Option Nat)
  deriving DecidableEq

inductive IdOp where
  | insert (id slot : Nat)
  | remove (id : Nat)

namespace IdIndex
variable {cap : Nat}

def new : IdIndex cap := ⟨fun _ => emptyKey, fun _ => 0, 0⟩

def key (x : IdIndex cap) (i : Nat) : Option Nat :=
  if h : i < cap then some (x.keys ⟨i, h⟩) else none

def slot (x : IdIndex cap) (i : Nat) : Option Nat :=
  if h : i < cap then some (x.slots ⟨i, h⟩) else none

def setKey (x : IdIndex cap) (i id : Nat) : IdIndex cap :=
  if h : i < cap then { x with keys := Function.update x.keys ⟨i, h⟩ id } else x

def setSlot (x : IdIndex cap) (i slot : Nat) : IdIndex cap :=
  if h : i < cap then { x with slots := Function.update x.slots ⟨i, h⟩ slot } else x

def valid (id : Nat) : Bool := id ≠ emptyKey && id < pidMax

/-- The loop of `find`. -/
def findFrom (x : IdIndex cap) (id : Nat) : Nat → Nat → Option Nat
  | 0, _ => none
  | fuel + 1, i =>
    match x.key i with
    | none => none
    | some k =>
      if k = id then some i
      else if k = emptyKey then none
      else x.findFrom id fuel ((i + 1) &&& (cap - 1))

/-- Where the key of an id sits. -/
def find (x : IdIndex cap) (id : Nat) : Option Nat :=
  x.findFrom id cap (id &&& (cap - 1))

/-- The loop of `insert`. -/
def insertFrom (x : IdIndex cap) (id slot : Nat) : Nat → Nat → Bool × IdIndex cap
  | 0, _ => (false, x)
  | fuel + 1, i =>
    if x.key i = some emptyKey then
      if i < cap then
        (true, { (x.setKey i id).setSlot i slot with len := x.len + 1 }) else (false, x)
    else x.insertFrom id slot fuel ((i + 1) &&& (cap - 1))

def insert (x : IdIndex cap) (id slot : Nat) : Bool × IdIndex cap :=
  if !valid id then (false, x)
  else if 2 ^ 16 ≤ slot then (false, x)
  else
    match x.find id with
    | some i => (true, x.setSlot i slot)
    | none => if cap ≤ x.len then (false, x) else x.insertFrom id slot cap (id &&& (cap - 1))

def get (x : IdIndex cap) (id : Nat) : Option Nat :=
  if !valid id then none
  else
    match x.find id with
    | none => none
    | some i => x.slot i

/-- The loop of `remove`: the table and where its hole is, `none` where a `?` returns. -/
def shiftFrom : Nat → IdIndex cap → Nat → Nat → IdIndex cap × Option Nat
  | 0, x, hole, _ => (x, some hole)
  | fuel + 1, x, hole, j =>
    let j := (j + 1) &&& (cap - 1)
    match x.key j with
    | none => (x, none)
    | some k =>
      if k = emptyKey then (x, some hole)
      else
        let home := k &&& (cap - 1)
        let fromHome := wrappingSub j home &&& (cap - 1)
        let fromHole := wrappingSub j hole &&& (cap - 1)
        if fromHole ≤ fromHome then
          match x.slot j with
          | none => (x, none)
          | some s => shiftFrom fuel ((x.setKey hole k).setSlot hole s) j j
        else shiftFrom fuel x hole j

def remove (x : IdIndex cap) (id : Nat) : Option Nat × IdIndex cap :=
  if !valid id then (none, x)
  else
    match x.find id with
    | none => (none, x)
    | some hole =>
      match x.slot hole with
      | none => (none, x)
      | some slot =>
        match shiftFrom cap x hole hole with
        | (x, none) => (none, x)
        | (x, some hole) => (some slot, { x.setKey hole emptyKey with len := x.len - 1 })

def step (x : IdIndex cap) : IdOp → IdOut × IdIndex cap
  | .insert id slot => let r := x.insert id slot; (.inserted r.1, r.2)
  | .remove id => let r := x.remove id; (.removed r.1, r.2)

/-- What the calls return, and the index they leave. -/
def run (x : IdIndex cap) : List IdOp → List IdOut × IdIndex cap
  | [] => ([], x)
  | op :: ops => let r := (x.step op).2.run ops; ((x.step op).1 :: r.1, r.2)

end IdIndex

/-- The finite map the index is for: slots of ids below `pidMax`, at most `cap` of them. -/
structure IdMap where
  slot : Nat → Option Nat

namespace IdMap

def size (M : IdMap) : Nat := ((Finset.range pidMax).filter fun id => (M.slot id).isSome).card

def set (M : IdMap) (id : Nat) (v : Option Nat) : IdMap := ⟨Function.update M.slot id v⟩

/-- A new id is refused when `cap` are held, and an id or a slot out of range always. -/
def insert (cap : Nat) (M : IdMap) (id slot : Nat) : Bool × IdMap :=
  if id < pidMax ∧ slot < 2 ^ 16 ∧
    ((M.slot id).isSome ∨ M.size < cap) then (true, M.set id (some slot))
  else (false, M)

def remove (M : IdMap) (id : Nat) : Option Nat × IdMap := (M.slot id, M.set id none)

def step (cap : Nat) (M : IdMap) : IdOp → IdOut × IdMap
  | .insert id slot => let r := M.insert cap id slot; (.inserted r.1, r.2)
  | .remove id => let r := M.remove id; (.removed r.1, r.2)

def run (cap : Nat) (M : IdMap) : List IdOp → List IdOut × IdMap
  | [] => ([], M)
  | op :: ops => let r := (M.step cap op).2.run cap ops; ((M.step cap op).1 :: r.1, r.2)

def empty : IdMap := ⟨fun _ => none⟩

end IdMap

theorem wrappingSub_mask {k a b : Nat} (hk : k < 64) (hb : b < 2 ^ k) :
    wrappingSub a b &&& (2 ^ k - 1) = (a + 2 ^ k - b) % 2 ^ k := by
  have hdvd : 2 ^ k ∣ 2 ^ 64 := Nat.pow_dvd_pow 2 (Nat.le_of_lt hk)
  obtain ⟨m, hm⟩ := hdvd
  obtain ⟨m, rfl⟩ : ∃ m', m = m' + 1 := by
    refine Nat.exists_eq_succ_of_ne_zero ?_
    rintro rfl
    rw [Nat.mul_zero] at hm
    exact absurd hm (by decide)
  rw [Nat.and_two_pow_sub_one_eq_mod, wrappingSub,
    Nat.mod_mod_of_dvd _ (Nat.pow_dvd_pow 2 (Nat.le_of_lt hk)), hm, Nat.mul_succ,
    show a + (2 ^ k * m + 2 ^ k) - b = a + 2 ^ k - b + 2 ^ k * m by omega,
      Nat.add_mul_mod_self_left]

namespace IdIndex
variable {cap : Nat} {x : IdIndex cap} {i id s : Nat}

def cell (x : IdIndex cap) (i : Nat) : Option (Nat × Nat) :=
  if h : i < cap then
    if x.keys ⟨i, h⟩ = emptyKey then none else some (x.keys ⟨i, h⟩, x.slots ⟨i, h⟩)
  else none

theorem cell_put (hi : i < cap) (hid : id ≠ emptyKey) :
    cell ((x.setKey i id).setSlot i s) = Function.update (cell x) i (some (id, s)) := by
  funext j
  unfold cell setSlot setKey
  by_cases hj : j = i
  · subst hj
    simp [hi, hid]
  · by_cases hlt : j < cap
    · simp [hi, hj, hlt]
    · simp [hj, hlt]

theorem cell_setSlot {t : Nat} (hi : i < cap) (hc : cell x i = some (id, s)) :
    cell (x.setSlot i t) = Function.update (cell x) i (some (id, t)) := by
  funext j
  unfold cell at hc
  rw [dif_pos hi] at hc
  split at hc
  · cases hc
  · rename_i hkey
    cases hc
    unfold cell setSlot
    by_cases hj : j = i
    · subst hj
      simp [hi, hkey]
    · by_cases hlt : j < cap
      · simp [hi, hj, hlt]
      · simp [hj, hlt]

theorem cell_clear (hi : i < cap) :
    cell (x.setKey i emptyKey) = Function.update (cell x) i none := by
  funext j
  unfold cell setKey
  by_cases hj : j = i
  · subst hj
    simp [hi]
  · by_cases hlt : j < cap
    · simp [hi, hj, hlt]
    · simp [hj, hlt]

theorem len_put : ((x.setKey i id).setSlot i s).len = x.len := by
  unfold setSlot setKey
  split
  · rfl
  · rfl

theorem slot_of_cell (hc : cell x i = some (id, s)) : x.slot i = some s := by
  unfold cell at hc
  split at hc
  · split at hc
    · cases hc
    · rename_i hi _
      cases hc
      exact dif_pos hi
  · cases hc

section
variable {k : Nat} {x : IdIndex (2 ^ k)}

theorem next_lt (a : Nat) : a &&& (2 ^ k - 1) < 2 ^ k := by
  rw [Nat.and_two_pow_sub_one_eq_mod]
  exact Nat.mod_lt _ (Nat.two_pow_pos k)

theorem findFrom_eq (hid : id ≠ emptyKey) (fuel : Nat) (hi : i < 2 ^ k) :
    x.findFrom id fuel i = probe (2 ^ k) (cell x) (fun e => decide (e.1 = id)) fuel i := by
  induction fuel generalizing i with
  | zero => rfl
  | succ fuel ih =>
    rw [findFrom, probe, ← Nat.and_two_pow_sub_one_eq_mod, ← ih (next_lt _)]
    simp only [key, cell, dif_pos hi]
    by_cases hkey : x.keys ⟨i, hi⟩ = id
    · simp [hkey, hid]
    · by_cases hempty : x.keys ⟨i, hi⟩ = emptyKey
      · simp [hempty, Ne.symm hid]
      · simp [hkey, hempty]

theorem insertFrom_eq (fuel : Nat) (hi : i < 2 ^ k) :
    x.insertFrom id s fuel i =
      match vacancy (2 ^ k) (cell x) fuel i with
      | none => (false, x)
      | some e => (true, { (x.setKey e id).setSlot e s with len := x.len + 1 }) := by
  induction fuel generalizing i with
  | zero => rfl
  | succ fuel ih =>
    rw [insertFrom, vacancy, ← Nat.and_two_pow_sub_one_eq_mod]
    simp only [key, cell, dif_pos hi, Option.some.injEq]
    by_cases hempty : x.keys ⟨i, hi⟩ = emptyKey
    · simp [hempty, hi]
    · simp only [hempty, if_false]
      exact ih (next_lt _)

def home (k : Nat) (e : Nat × Nat) : Nat := e.1 % 2 ^ k

theorem shiftFrom_eq (hk : k < 64) (fuel : Nat) {hole j : Nat} (hhole : hole < 2 ^ k)
    (hj : j < 2 ^ k) :
    ∃ x' hole', shiftFrom fuel x hole j = (x', some hole') ∧ hole' < 2 ^ k ∧ x'.len = x.len ∧
      shift (2 ^ k) (home k) fuel (cell x) hole j = (cell x', hole') := by
  induction fuel generalizing x hole j with
  | zero => exact ⟨x, hole, rfl, hhole, rfl, rfl⟩
  | succ fuel ih =>
    have hnext := next_lt (k := k) (j + 1)
    rw [shiftFrom, shift, ← Nat.and_two_pow_sub_one_eq_mod]
    generalize (j + 1) &&& (2 ^ k - 1) = j' at hnext ⊢
    simp only [key, dif_pos hnext]
    have hcell : cell x j' = if x.keys ⟨j', hnext⟩ = emptyKey then none
        else some (x.keys ⟨j', hnext⟩, x.slots ⟨j', hnext⟩) := dif_pos hnext
    rw [hcell]
    by_cases hempty : x.keys ⟨j', hnext⟩ = emptyKey
    · rw [if_pos hempty, if_pos hempty]
      exact ⟨x, hole, rfl, hhole, rfl, rfl⟩
    · rw [if_neg hempty, if_neg hempty]
      have hhome : x.keys ⟨j', hnext⟩ &&& (2 ^ k - 1) =
          home k (x.keys ⟨j', hnext⟩, x.slots ⟨j', hnext⟩) := Nat.and_two_pow_sub_one_eq_mod _ _
      have hlt : home k (x.keys ⟨j', hnext⟩, x.slots ⟨j', hnext⟩) < 2 ^ k :=
        Nat.mod_lt _ (Nat.two_pow_pos k)
      simp only [hhome, wrappingSub_mask hk hhole, wrappingSub_mask hk hlt, slot, dif_pos hnext]
      by_cases hmove : (j' + 2 ^ k - hole) % 2 ^ k ≤
          (j' + 2 ^ k - home k (x.keys ⟨j', hnext⟩, x.slots ⟨j', hnext⟩)) % 2 ^ k
      · rw [if_pos hmove, if_pos hmove, ← cell_put hhole hempty]
        obtain ⟨x', hole', hrun, hlt, hlen, hshift⟩ := ih
          (x := (x.setKey hole (x.keys ⟨j', hnext⟩)).setSlot hole (x.slots ⟨j', hnext⟩)) hnext hnext
        exact ⟨x', hole', hrun, hlt, hlen.trans len_put, hshift⟩
      · rw [if_neg hmove, if_neg hmove]
        exact ih hhole hnext

end
end IdIndex

namespace IdMap
variable {M : IdMap} {id s : Nat}

theorem slot_set_self (v : Option Nat) : (M.set id v).slot id = v :=
  Function.update_self ..

theorem slot_set_ne {id' : Nat} (h : id' ≠ id) (v : Option Nat) :
    (M.set id v).slot id' = M.slot id' :=
  Function.update_of_ne h ..

theorem size_replace (h : (M.slot id).isSome = true) : (M.set id (some s)).size = M.size := by
  refine congrArg Finset.card (Finset.filter_congr fun j _ => ?_)
  by_cases hj : j = id
  · subst hj
    simp [set, h]
  · simp [set, hj]

theorem size_new (hid : id < pidMax) (h : M.slot id = none) :
    (M.set id (some s)).size = M.size + 1 := by
  unfold size
  rw [← Finset.card_insert_of_notMem (a := id)]
  · refine congrArg Finset.card (Finset.ext fun j => ?_)
    rw [Finset.mem_insert, Finset.mem_filter, Finset.mem_filter, Finset.mem_range]
    by_cases hj : j = id
    · subst hj
      simp [set, hid]
    · simp [set, hj]
  · simp [h]

theorem size_remove (hid : id < pidMax) (h : M.slot id = some s) :
    (M.set id none).size = M.size - 1 := by
  unfold size
  rw [← Finset.card_erase_of_mem (a := id)]
  · refine congrArg Finset.card (Finset.ext fun j => ?_)
    rw [Finset.mem_erase, Finset.mem_filter, Finset.mem_filter, Finset.mem_range]
    by_cases hj : j = id
    · subst hj
      simp [set]
    · simp [set, hj]
  · simp [h, hid]

theorem set_none (h : M.slot id = none) : M.set id none = M := by
  cases M with
  | mk f =>
    have : Function.update f id none = f := by
      rw [← show f id = none from h]
      exact Function.update_eq_self ..
    rw [set, this]

end IdMap

/-- The index has the entries of the map, in cells where a search finds them. -/
structure Rep {k : Nat} (x : IdIndex (2 ^ k)) (M : IdMap) : Prop where
  linear : ∃ r, Linear (2 ^ k) (IdIndex.home k) x.cell r
  distinct : Distinct (2 ^ k) Prod.fst x.cell
  content : ∀ id s, M.slot id = some s ↔ ∃ i < 2 ^ k, x.cell i = some (id, s)
  valid : ∀ id s, M.slot id = some s → id < pidMax ∧ s < 2 ^ 16
  len : x.len = M.size

namespace Rep
variable {k : Nat} {x : IdIndex (2 ^ k)} {M : IdMap} {id s : Nat}

theorem new : Rep (IdIndex.new : IdIndex (2 ^ k)) IdMap.empty := by
  have hcell : ∀ i, (IdIndex.new : IdIndex (2 ^ k)).cell i = none := by
    intro i
    unfold IdIndex.cell IdIndex.new
    split <;> simp
  refine ⟨⟨0, fun t _ e he => ?_⟩, fun i _ j _ e e' he => ?_, fun id s =>
    ⟨nofun, fun ⟨i, _, hi⟩ => ?_⟩, nofun, ?_⟩
  · rw [hcell] at he
    cases he
  · rw [hcell] at he
    cases he
  · rw [hcell] at hi
    cases hi
  · simp [IdIndex.new, IdMap.empty, IdMap.size]

theorem ne_emptyKey (hid : id < pidMax) : id ≠ emptyKey := by
  rintro rfl
  exact absurd hid (by decide)

theorem valid_eq (id : Nat) : IdIndex.valid id = decide (id < pidMax) := by
  unfold IdIndex.valid
  by_cases hid : id < pidMax
  · simp [hid, ne_emptyKey hid]
  · simp [hid]

variable (h : Rep x M)
include h

theorem slot_none (hid : ¬ id < pidMax) : M.slot id = none := by
  cases hs : M.slot id with
  | none => rfl
  | some s => exact absurd (h.valid id s hs).1 hid

theorem find_some {i : Nat} (hi : i < 2 ^ k) (hc : x.cell i = some (id, s)) :
    x.find id = some i := by
  obtain ⟨r, hr⟩ := h.linear
  have hid := (h.valid id s ((h.content id s).mpr ⟨i, hi, hc⟩)).1
  rw [IdIndex.find, IdIndex.findFrom_eq (ne_emptyKey hid) _ (IdIndex.next_lt id),
    Nat.and_two_pow_sub_one_eq_mod]
  refine hr.probe_eq hi hc (decide_eq_true rfl) fun j hj e he hp => ?_
  exact h.distinct j hj i hi e (id, s) he hc (of_decide_eq_true hp)

theorem find_none (hid : id < pidMax) (hs : M.slot id = none) : x.find id = none := by
  rw [IdIndex.find, IdIndex.findFrom_eq (ne_emptyKey hid) _ (IdIndex.next_lt id)]
  refine probe_none (IdIndex.next_lt id) fun j hj e he => decide_eq_false ?_
  rintro rfl
  have := (h.content e.1 e.2).mpr ⟨j, hj, he⟩
  rw [hs] at this
  cases this

theorem get_eq (id : Nat) : x.get id = M.slot id := by
  unfold IdIndex.get
  rw [valid_eq]
  by_cases hid : id < pidMax
  · rw [decide_eq_true hid]
    simp only [Bool.not_true, Bool.false_eq_true, if_false]
    cases hs : M.slot id with
    | none => rw [h.find_none hid hs]
    | some s =>
      obtain ⟨i, hi, hc⟩ := (h.content id s).mp hs
      rw [h.find_some hi hc]
      exact IdIndex.slot_of_cell hc
  · rw [decide_eq_false hid, h.slot_none hid]
    rfl

theorem put {x' : IdIndex (2 ^ k)} {i : Nat} (hi : i < 2 ^ k) (hid : id < pidMax)
    (hs : s < 2 ^ 16) (hat : ∀ j < 2 ^ k, ∀ e, x.cell j = some e → (e.1 = id ↔ j = i))
    (hcell : x'.cell = Function.update x.cell i (some (id, s)))
    (hlinear : ∃ r, Linear (2 ^ k) (IdIndex.home k) x'.cell r)
    (hlen : x'.len = (M.set id (some s)).size) :
    Rep x' (M.set id (some s)) := by
  refine ⟨hlinear, ?_, fun id' t => ?_, fun id' t ht => ?_, hlen⟩
  · rw [hcell]
    refine h.distinct.update fun j hj hne e he heq => hne ((hat j hj e he).mp heq)
  · rw [hcell]
    constructor
    · intro ht
      by_cases hid' : id' = id
      · rw [hid', IdMap.slot_set_self] at ht
        cases ht
        exact ⟨i, hi, by rw [hid', Function.update_self]⟩
      · rw [IdMap.slot_set_ne hid'] at ht
        obtain ⟨j, hj, hc⟩ := (h.content id' t).mp ht
        have hji : j ≠ i := fun he => hid' ((hat j hj _ hc).mpr he)
        exact ⟨j, hj, by rwa [Function.update_of_ne hji]⟩
    · rintro ⟨j, hj, hc⟩
      by_cases hji : j = i
      · rw [hji, Function.update_self] at hc
        cases hc
        exact IdMap.slot_set_self ..
      · rw [Function.update_of_ne hji] at hc
        have hid' : id' ≠ id := fun he => hji ((hat j hj _ hc).mp he)
        rw [IdMap.slot_set_ne hid']
        exact (h.content id' t).mpr ⟨j, hj, hc⟩
  · by_cases hid' : id' = id
    · rw [hid', IdMap.slot_set_self] at ht
      cases ht
      exact ⟨hid' ▸ hid, hs⟩
    · rw [IdMap.slot_set_ne hid'] at ht
      exact h.valid id' t ht

theorem replace {i s' : Nat} (hi : i < 2 ^ k) (hc : x.cell i = some (id, s')) (hs : s < 2 ^ 16) :
    Rep (x.setSlot i s) (M.set id (some s)) := by
  have hcell := IdIndex.cell_setSlot (t := s) hi hc
  have hheld := (h.content id s').mpr ⟨i, hi, hc⟩
  have hat : ∀ j < 2 ^ k, ∀ e, x.cell j = some e → (e.1 = id ↔ j = i) := by
    intro j hj e he
    constructor
    · exact fun heq => h.distinct j hj i hi e (id, s') he hc heq
    · rintro rfl
      rw [hc] at he
      cases he
      rfl
  obtain ⟨r, hr⟩ := h.linear
  refine h.put hi (h.valid id s' hheld).1 hs hat hcell ⟨r, ?_⟩ ?_
  · rw [hcell]
    exact hr.replace hc rfl
  · rw [IdMap.size_replace (by rw [hheld]; rfl), ← h.len]
    unfold IdIndex.setSlot
    split <;> rfl

theorem vacant (hlt : M.size < 2 ^ k) : ∃ i < 2 ^ k, x.cell i = none := by
  by_contra hall
  have hfull : ∀ i < 2 ^ k, ∃ e, x.cell i = some e := by
    intro i hi
    refine Option.ne_none_iff_exists'.mp fun hnone => hall ⟨i, hi, hnone⟩
  choose! e he using hfull
  have hcard : (Finset.range (2 ^ k)).card ≤ M.size := by
    refine Finset.card_le_card_of_injOn (fun i => (e i).1) (fun i hi => ?_) fun i hi j hj heq => ?_
    · have hin :=
        (h.content (e i).1 (e i).2).mpr ⟨i, Finset.mem_range.mp hi, he i (Finset.mem_range.mp hi)⟩
      rw [Finset.mem_coe, Finset.mem_filter, Finset.mem_range, hin]
      exact ⟨(h.valid _ _ hin).1, rfl⟩
    · have hi := Finset.mem_range.mp hi
      have hj := Finset.mem_range.mp hj
      exact h.distinct i hi j hj (e i) (e j) (he i hi) (he j hj) heq
  rw [Finset.card_range] at hcard
  omega

theorem add (hid : id < pidMax) (hs : s < 2 ^ 16) (hnew : M.slot id = none) (hlt : M.size < 2 ^ k) :
    (x.insertFrom id s (2 ^ k) (id &&& (2 ^ k - 1))).1 = true ∧
      Rep (x.insertFrom id s (2 ^ k) (id &&& (2 ^ k - 1))).2 (M.set id (some s)) := by
  obtain ⟨r, hr⟩ := h.linear
  have hpos := Nat.two_pow_pos k
  obtain ⟨v, hv, hvnone⟩ := h.vacant hlt
  obtain ⟨t, ht, rfl⟩ := exists_idx r hv
  obtain ⟨a, ha, hahome⟩ := exists_idx r (IdIndex.next_lt (k := k) id)
  -- the empty cell comes after the home, the next time round if not before
  have hahead : ∃ t', a ≤ t' ∧ t' < a + 2 ^ k ∧ x.cell (idx (2 ^ k) r t') = none := by
    by_cases hat : a ≤ t
    · exact ⟨t, hat, by omega, hvnone⟩
    · exact ⟨t + 2 ^ k, by omega, by omega, by rwa [idx_add_self]⟩
  obtain ⟨t', hat', htlt, htnone⟩ := hahead
  obtain ⟨e, hae, hef, hvac, hnone, hfull⟩ := vacancy_some hat' htlt htnone
  have helt : idx (2 ^ k) r e < 2 ^ k := idx_lt hpos e
  rw [IdIndex.insertFrom_eq _ (IdIndex.next_lt id), ← hahome, hvac]
  refine ⟨rfl, ?_⟩
  have hcell := IdIndex.cell_put (x := x) (s := s) helt (ne_emptyKey hid)
  refine h.put helt hid hs (fun j hj y hy => ?_) hcell ⟨idx (2 ^ k) r e + 1, ?_⟩ ?_
  · constructor
    · intro heq
      have := (h.content y.1 y.2).mpr ⟨j, hj, hy⟩
      rw [heq, hnew] at this
      cases this
    · rintro rfl
      rw [hnone] at hy
      cases hy
  · refine hcell ▸ hr.insert ?_ ha hae hef hnone hfull
    rw [hahome, Nat.and_two_pow_sub_one_eq_mod]
    rfl
  · rw [IdMap.size_new hid hnew]
    exact congrArg (· + 1) h.len

theorem insert (id s : Nat) :
    (x.insert id s).1 = (M.insert (2 ^ k) id s).1 ∧
    Rep (x.insert id s).2 (M.insert (2 ^ k) id s).2 := by
  unfold IdIndex.insert IdMap.insert
  rw [valid_eq]
  by_cases hid : id < pidMax
  · by_cases hs : s < 2 ^ 16
    · rw [decide_eq_true hid, if_neg (Nat.not_le.mpr hs)]
      simp only [hid, hs, true_and, Bool.not_true, Bool.false_eq_true, if_false]
      cases hm : M.slot id with
      | some s' =>
        obtain ⟨i, hi, hc⟩ := (h.content id s').mp hm
        rw [h.find_some hi hc]
        simp only [Option.isSome_some, true_or, if_true, true_and]
        exact h.replace hi hc hs
      | none =>
        rw [h.find_none hid hm]
        simp only [Option.isSome_none, Bool.false_eq_true, false_or, h.len]
        by_cases hlt : M.size < 2 ^ k
        · rw [if_neg (Nat.not_le.mpr hlt), if_pos hlt]
          exact h.add hid hs hm hlt
        · rw [if_pos (Nat.le_of_not_lt hlt), if_neg hlt]
          exact ⟨rfl, h⟩
    · simp only [hs, Nat.le_of_not_lt hs, if_true, ite_self, false_and, and_false, if_false,
        true_and]
      exact h
  · simp only [hid, decide_false, Bool.not_false, if_true, false_and, if_false, true_and]
    exact h

theorem erase {i : Nat} (hi : i < 2 ^ k) (hc : x.cell i = some (id, s)) {x' : IdIndex (2 ^ k)}
    (hcell : x'.cell = Probing.erase (2 ^ k) (IdIndex.home k) x.cell i)
    (hlen : x'.len = x.len - 1) : Rep x' (M.set id none) := by
  obtain ⟨r, hr⟩ := h.linear
  obtain ⟨hlinear, hdistinct, hcontent⟩ := hr.erase h.distinct hi hc
  have hheld := (h.content id s).mpr ⟨i, hi, hc⟩
  refine ⟨⟨r, hcell ▸ hlinear⟩, hcell ▸ hdistinct, fun id' t => ?_, fun id' t ht => ?_, ?_⟩
  · rw [hcell, hcontent (id', t)]
    by_cases hid' : id' = id
    · rw [hid', IdMap.slot_set_self]
      refine ⟨nofun, fun ⟨j, hj, hne, hj'⟩ => absurd ?_ hne⟩
      exact h.distinct j hj i hi (id, t) (id, s) hj' hc rfl
    · rw [IdMap.slot_set_ne hid', h.content id' t]
      refine ⟨fun ⟨j, hj, hj'⟩ => ⟨j, hj, ?_, hj'⟩, fun ⟨j, hj, _, hj'⟩ => ⟨j, hj, hj'⟩⟩
      rintro rfl
      rw [hc] at hj'
      cases hj'
      exact hid' rfl
  · by_cases hid' : id' = id
    · rw [hid', IdMap.slot_set_self] at ht
      cases ht
    · rw [IdMap.slot_set_ne hid'] at ht
      exact h.valid id' t ht
  · rw [hlen, IdMap.size_remove (h.valid id s hheld).1 hheld, h.len]

variable (hk : k < 64)
include hk

theorem remove (id : Nat) :
    (x.remove id).1 = (M.remove id).1 ∧ Rep (x.remove id).2 (M.remove id).2 := by
  unfold IdIndex.remove IdMap.remove
  rw [valid_eq]
  by_cases hid : id < pidMax
  · rw [decide_eq_true hid]
    simp only [Bool.not_true, Bool.false_eq_true, if_false]
    cases hm : M.slot id with
    | none =>
      rw [h.find_none hid hm, IdMap.set_none hm]
      exact ⟨rfl, h⟩
    | some s =>
      obtain ⟨i, hi, hc⟩ := (h.content id s).mp hm
      rw [h.find_some hi hc]
      simp only
      rw [IdIndex.slot_of_cell hc]
      obtain ⟨x', hole, hrun, hhole, hlen, hshift⟩ := IdIndex.shiftFrom_eq (x := x) hk (2 ^ k) hi hi
      simp only
      rw [hrun]
      refine ⟨rfl, h.erase hi hc ?_ (congrArg (· - 1) hlen)⟩
      rw [Probing.erase, hshift]
      exact IdIndex.cell_clear hhole
  · rw [decide_eq_false hid, h.slot_none hid, IdMap.set_none (h.slot_none hid)]
    exact ⟨rfl, h⟩

theorem step (op : IdOp) :
    (x.step op).1 = (M.step (2 ^ k) op).1 ∧ Rep (x.step op).2 (M.step (2 ^ k) op).2 := by
  cases op with
  | insert id s => exact ⟨congrArg IdOut.inserted (h.insert id s).1, (h.insert id s).2⟩
  | remove id => exact ⟨congrArg IdOut.removed (h.remove hk id).1, (h.remove hk id).2⟩

theorem run (ops : List IdOp) :
    (x.run ops).1 = (M.run (2 ^ k) ops).1 ∧ Rep (x.run ops).2 (M.run (2 ^ k) ops).2 := by
  induction ops generalizing x M with
  | nil => exact ⟨rfl, h⟩
  | cons op ops ih =>
    obtain ⟨hout, hstep⟩ := h.step hk op
    obtain ⟨houts, hrun⟩ := ih hstep
    exact ⟨congrArg₂ List.cons hout houts, hrun⟩

end Rep

namespace IdMap
variable {M : IdMap} {cap : Nat}

theorem size_step (h : M.size ≤ cap) (op : IdOp) : (M.step cap op).2.size ≤ cap := by
  cases op with
  | insert id s =>
    change (M.insert cap id s).2.size ≤ cap
    unfold insert
    split
    · rename_i hok
      cases hm : M.slot id with
      | some s' => exact (size_replace (by rw [hm]; rfl)).trans_le h
      | none =>
        rw [size_new hok.1 hm]
        have := hok.2.2
        rw [hm] at this
        exact this.resolve_left Bool.false_ne_true
    · exact h
  | remove id =>
    refine (Finset.card_le_card fun j hj => ?_).trans h
    rw [Finset.mem_filter] at hj ⊢
    refine ⟨hj.1, ?_⟩
    by_cases hji : j = id
    · have hj := hj.2
      simp [step, remove, set, hji] at hj
    · simpa [step, remove, set, hji] using hj.2

theorem size_run (h : M.size ≤ cap) (ops : List IdOp) : (M.run cap ops).2.size ≤ cap := by
  induction ops generalizing M with
  | nil => exact h
  | cons op ops ih => exact ih (size_step h op)

end IdMap

namespace IdIndex
variable {cap : Nat}

theorem insertFrom_false (x : IdIndex cap) (id s fuel i : Nat)
    (h : (x.insertFrom id s fuel i).1 = false) :
    (x.insertFrom id s fuel i).2 = x := by
  induction fuel generalizing i with
  | zero => rfl
  | succ fuel ih =>
    rw [insertFrom] at h ⊢
    split at h
    · rename_i hkey
      rw [if_pos hkey]
      split at h
      · cases h
      · rename_i hi
        rw [if_neg hi]
    · rename_i hkey
      rw [if_neg hkey]
      exact ih _ h

theorem insert_false (x : IdIndex cap) (id s : Nat) (h : (x.insert id s).1 = false) :
    (x.insert id s).2 = x := by
  unfold insert at h ⊢
  split
  · rfl
  · rename_i hvalid
    rw [if_neg hvalid] at h
    split
    · rfl
    · rename_i hs
      rw [if_neg hs] at h
      split
      · rename_i i hfind
        rw [hfind] at h
        cases h
      · rename_i hfind
        rw [hfind] at h
        simp only at h
        split
        · rfl
        · rename_i hlen
          rw [if_neg hlen] at h
          exact x.insertFrom_false id s _ _ h

end IdIndex

/-- Whatever the calls so far, the index is the finite map of the ids it holds: the calls returned
what the map's do and every lookup is the map's. A new id is refused exactly when the index is full,
and a removal takes out its own id only. -/
theorem index_is_map {k : Nat} (hk : k < 64) (ops : List IdOp) :
    let x := ((IdIndex.new : IdIndex (2 ^ k)).run ops).2
    let M := (IdMap.empty.run (2 ^ k) ops).2
    ((IdIndex.new : IdIndex (2 ^ k)).run ops).1 = (IdMap.empty.run (2 ^ k) ops).1 ∧
      (∀ id, x.get id = M.slot id) ∧ x.len = M.size ∧
      (∀ id s, id < pidMax → s < 2 ^ 16 → M.slot id = none →
        ((x.insert id s).1 = false ↔ M.size = 2 ^ k)) ∧
      (∀ id s, (x.insert id s).1 = false → (x.insert id s).2 = x) ∧
      ∀ id, (x.remove id).1 = M.slot id ∧
        ∀ id', (x.remove id).2.get id' = if id' = id then none else M.slot id' := by
  intro x M
  obtain ⟨houts, hrep⟩ := Rep.new.run (k := k) hk ops
  have hsize : M.size ≤ 2 ^ k := IdMap.size_run (by simp [IdMap.empty, IdMap.size]) ops
  refine ⟨houts, hrep.get_eq, hrep.len, fun id s hid hs hnew => ?_, x.insert_false,
    fun id => ⟨(hrep.remove hk id).1, fun id' => ?_⟩⟩
  · rw [(hrep.insert id s).1]
    unfold IdMap.insert
    simp only [show (IdMap.run (2 ^ k) IdMap.empty ops).2 = M from rfl, hid, hs, hnew, true_and,
      Option.isSome_none, Bool.false_eq_true, false_or]
    split
    · exact ⟨nofun, fun he => by omega⟩
    · exact ⟨fun _ => by omega, fun _ => rfl⟩
  · rw [(hrep.remove hk id).2.get_eq]
    by_cases hid : id' = id
    · rw [hid, if_pos rfl]
      exact IdMap.slot_set_self ..
    · rw [if_neg hid]
      exact IdMap.slot_set_ne hid ..

/-- Two ids of one home fill an index of two cells; the third is refused, and after the removal of
the first the second is still found. -/
theorem index_is_map_full :
    (1 : Nat) < 64 ∧
      ((IdIndex.new : IdIndex (2 ^ 1)).run [.insert 4 1, .insert 6 2, .insert 8 3, .remove 4]).1 =
        (IdMap.empty.run (2 ^ 1) [.insert 4 1, .insert 6 2, .insert 8 3, .remove 4]).1 ∧
      ((IdIndex.new : IdIndex (2 ^ 1)).run [.insert 4 1, .insert 6 2, .insert 8 3, .remove 4]).1 =
        [.inserted true, .inserted true, .inserted false, .removed (some 1)] ∧
      ((IdIndex.new : IdIndex (2 ^ 1)).run [.insert 4 1, .insert 6 2, .insert 8 3, .remove 4]).2.get
        6 =
        some 2 := by
  refine ⟨by decide, (index_is_map (by decide) _).1, by decide +kernel, by decide +kernel⟩

end VibeOS.Process
