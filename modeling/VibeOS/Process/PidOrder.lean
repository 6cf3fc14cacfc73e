import VibeOS.Process.PidAlloc

/-!
The pid allocator over every history of allocations, holds and frees. The bitmap is the set of ids
with a use, so an allocation returns the first id without one in the cyclic order after the last;
and an id that stays free is never passed over, so it is handed out before any other id comes again.
-/
namespace VibeOS.Process
namespace PidAlloc
open VibeOS.Lib

variable {P : PidAlloc} {id i n : Nat} {f : BitVec 64 → BitVec 64}

theorem count_setCount (hid : id < pidMax) :
    (P.setCount id n).count i = if i = id then some n else P.count i := by
  unfold count setCount
  rw [dif_pos hid]
  by_cases hi : i = id
  · subst hi
    simp [hid]
  · simp [hi]

theorem inUse_setCount (hid : id < pidMax) :
    (P.setCount id n).inUse i = if i = id then decide (0 < n) else P.inUse i := by
  unfold inUse
  rw [count_setCount hid]
  by_cases hi : i = id
  · simp [hi]
  · simp [hi]

theorem marked_setCount : (P.setCount id n).marked i = P.marked i := by
  unfold setCount
  split <;> rfl

theorem count_setWord : (P.setWord n f).count i = P.count i := by
  unfold setWord
  split <;> rfl

theorem inUse_setWord : (P.setWord n f).inUse i = P.inUse i := by
  unfold setWord
  split <;> rfl

theorem marked_setWord (hid : id < pidMax) {g : Bool → Bool}
    (hself : ∀ w : BitVec 64, (f w).getLsbD (id % 64) = g (w.getLsbD (id % 64)))
    (hother : ∀ w : BitVec 64, ∀ b < 64, b ≠ id % 64 → (f w).getLsbD b = w.getLsbD b) :
    (P.setWord (id / 64) f).marked i = if i = id then g (P.marked i) else P.marked i := by
  have hword : id / 64 < pidWords := by
    unfold pidWords pidMax at *
    omega
  unfold marked setWord word
  rw [dif_pos hword]
  by_cases hsame : i / 64 = id / 64
  · rw [hsame, dif_pos hword, dif_pos hword]
    simp only [Function.update_self]
    by_cases hi : i = id
    · subst hi
      rw [if_pos rfl, hself]
    · rw [if_neg hi, hother _ _ (Nat.mod_lt i (by decide)) (by omega)]
  · have hi : i ≠ id := fun he => hsame (he ▸ rfl)
    rw [if_neg hi]
    by_cases hlt : i / 64 < pidWords
    · have hne : (⟨i / 64, hlt⟩ : Fin pidWords) ≠ ⟨id / 64, hword⟩ :=
        fun he => hsame (congrArg Fin.val he)
      simp [hlt, Function.update_of_ne hne]
    · simp [hlt]

theorem marked_mark (hid : id < pidMax) :
    (P.mark id).marked i = if i = id then true else P.marked i := by
  have hb : id % 64 < 64 := Nat.mod_lt id (by decide)
  have h :=
    marked_setWord (P := P.setCount id 1) (i := i) hid (f := fun w => w ||| 1#64 <<< (id % 64))
    (g := fun _ => true) (fun w => ?_) fun w b _ hne => ?_
  · rw [mark, h, marked_setCount]
  · rw [BitVec.getLsbD_or, getLsbD_one_shiftLeft hb, decide_eq_true rfl, Bool.or_true]
  · rw [BitVec.getLsbD_or, getLsbD_one_shiftLeft hb, decide_eq_false hne, Bool.or_false]

theorem inUse_mark (hid : id < pidMax) :
    (P.mark id).inUse i = if i = id then true else P.inUse i := by
  rw [mark, inUse_setWord, inUse_setCount hid]
  rfl

/-- The bitmap marks the ids with a use, and the ids and counts are in range. -/
structure Inv (P : PidAlloc) : Prop where
  bits : ∀ i, P.marked i = P.inUse i
  wrap : pidWrap < P.max
  max : P.max ≤ pidMax
  last : P.last < P.max
  small : ∀ i, P.uses i ≤ 255

theorem Inv.new (m : Nat) : Inv (PidAlloc.new m) := by
  have hmax : pidWrap < (PidAlloc.new m).max ∧ (PidAlloc.new m).max ≤ pidMax := by
    unfold PidAlloc.new pidWrap pidMax
    dsimp only
    split
    · omega
    · split <;> omega
  refine ⟨fun i => ?_, hmax.1, hmax.2, Nat.lt_of_le_of_lt (Nat.zero_le _) hmax.1, fun i =>
    Nat.zero_le _⟩
  have hmarked : (PidAlloc.new m).marked i = false := by
    unfold marked word
    split
    · rename_i w hw
      split at hw
      · cases hw
        exact BitVec.getLsbD_zero
      · cases hw
    · rfl
  have hinUse : (PidAlloc.new m).inUse i = false := by
    unfold inUse count
    split
    · rename_i n hn
      split at hn
      · cases hn
        rfl
      · cases hn
    · rfl
  rw [hmarked, hinUse]

theorem uses_setCount_le (h : ∀ i, P.uses i ≤ 255) (hn : n ≤ 255) (i : Fin pidMax) :
    (P.setCount id n).uses i ≤ 255 := by
  unfold setCount
  split
  · rename_i hid
    by_cases hi : i = ⟨id, hid⟩
    · subst hi
      simp [hn]
    · simp only [Function.update_of_ne hi]
      exact h i
  · exact h i

theorem setWord_fields :
    (P.setWord n f).uses = P.uses ∧ (P.setWord n f).last = P.last ∧
    (P.setWord n f).max = P.max := by
  unfold setWord
  split <;> exact ⟨rfl, rfl, rfl⟩

theorem setCount_fields : (P.setCount id n).last = P.last ∧ (P.setCount id n).max = P.max := by
  unfold setCount
  split <;> exact ⟨rfl, rfl⟩

/-- An invariant step: the last id and the counts change within their ranges, and the bitmap with
the uses. -/
theorem Inv.update {P' : PidAlloc} (h : Inv P) (hbits : ∀ i, P'.marked i = P'.inUse i)
    (hmax : P'.max = P.max) (hlast : P'.last = P.last) (hsmall : ∀ i, P'.uses i ≤ 255) : Inv P' :=
  ⟨hbits, hmax ▸ h.wrap, hmax ▸ h.max, hlast ▸ hmax ▸ h.last, hsmall⟩

theorem Inv.mark (h : Inv P) (hid : id < pidMax) : Inv (P.mark id) := by
  obtain ⟨huses, hlast, hmax⟩ := setWord_fields (P := P.setCount id 1) (n := id / 64)
    (f := fun w => w ||| 1#64 <<< (id % 64))
  refine h.update (fun i => ?_) (hmax.trans setCount_fields.2)
    (hlast.trans setCount_fields.1) fun i => ?_
  · rw [marked_mark hid, inUse_mark hid, h.bits]
  · rw [PidAlloc.mark, huses]
    exact uses_setCount_le h.small (by decide) i

theorem count_some {m : Nat} (h : P.count id = some m) :
    ∃ hid : id < pidMax, P.uses ⟨id, hid⟩ = m ∧ P.inUse id = decide (0 < m) := by
  have hin : P.inUse id = decide (0 < m) := by
    unfold inUse
    rw [h]
  unfold count at h
  split at h
  · rename_i hid
    cases h
    exact ⟨hid, rfl, hin⟩
  · cases h

theorem hold_cases (P : PidAlloc) (id : Nat) :
    P.hold id = (false, P) ∧ (id = 0 ∨ P.max ≤ id ∨ ∀ n, P.count id = some n → n = 255) ∨
      ∃ n, P.count id = some n ∧ (id ≠ 0 ∧ id < P.max ∧ n ≠ 255) ∧
        P.hold id = (true, if n = 0 then P.mark id else P.setCount id (n + 1)) := by
  unfold PidAlloc.hold
  split
  · rename_i hout
    exact .inl ⟨rfl, hout.imp_right .inl⟩
  · rename_i hin
    split
    · rename_i hc
      exact .inl ⟨rfl, .inr (.inr fun n hn => nomatch hc.symm.trans hn)⟩
    · rename_i n hn
      split
      · rename_i hfull
        refine .inl ⟨rfl, .inr (.inr fun m hm => ?_)⟩
        exact (Option.some.inj (hm.symm.trans hn)).trans hfull
      · rename_i hfull
        refine .inr ⟨n, hn, ⟨by omega, by omega, hfull⟩, ?_⟩
        split <;> rfl

theorem free_cases (P : PidAlloc) (id : Nat) :
    P.free id = (false, P) ∧ (P.count id = none ∨ P.count id = some 0) ∨
      ∃ n, P.count id = some (n + 1) ∧ P.free id = (true, if n = 0 then
        (P.setCount id n).setWord (id / 64) fun w => w &&& ~~~(1#64 <<< (id % 64))
        else P.setCount id n) := by
  unfold PidAlloc.free
  split
  · rename_i hc
    exact .inl ⟨rfl, .inl hc⟩
  · rename_i n hn
    cases n with
    | zero => exact .inl ⟨rfl, .inr hn⟩
    | succ n => exact .inr ⟨n, hn, rfl⟩

theorem Inv.hold (h : Inv P) (id : Nat) : Inv (P.hold id).2 := by
  rcases P.hold_cases id with ⟨he, -⟩ | ⟨n, hn, ⟨-, -, hfull⟩, he⟩
  · rw [he]
    exact h
  · rw [he]
    obtain ⟨hid, huses, hin⟩ := count_some hn
    have hle := h.small ⟨id, hid⟩
    rw [huses] at hle
    dsimp only
    split
    · exact h.mark hid
    · rename_i hpos
      refine h.update (fun i => ?_) setCount_fields.2 setCount_fields.1
        (uses_setCount_le h.small (by omega))
      rw [marked_setCount, inUse_setCount hid, h.bits]
      split
      · rename_i hi
        rw [hi, hin, decide_eq_true (Nat.succ_pos n), decide_eq_true (Nat.pos_of_ne_zero hpos)]
      · rfl

theorem Inv.free (h : Inv P) (id : Nat) : Inv (P.free id).2 := by
  rcases P.free_cases id with ⟨he, -⟩ | ⟨n, hn, he⟩
  · rw [he]
    exact h
  · rw [he]
    obtain ⟨hid, huses, hin⟩ := count_some hn
    have hle := h.small ⟨id, hid⟩
    rw [huses] at hle
    have hb : id % 64 < 64 := Nat.mod_lt id (by decide)
    have hsmall : ∀ i, (P.setCount id n).uses i ≤ 255 := uses_setCount_le h.small (by omega)
    dsimp only
    split
    · rename_i hzero
      obtain ⟨huses', hlast, hmax⟩ := setWord_fields (P := P.setCount id n) (n := id / 64)
        (f := fun w => w &&& ~~~(1#64 <<< (id % 64)))
      refine h.update (fun i => ?_) (hmax.trans setCount_fields.2) (hlast.trans setCount_fields.1)
        fun i => huses' ▸ hsmall i
      rw [inUse_setWord, inUse_setCount hid, marked_setWord hid (g := fun _ => false) (fun w => ?_)
        fun w b hb' hne => ?_, marked_setCount, h.bits, hzero]
      · rfl
      · rw [BitVec.getLsbD_and, BitVec.getLsbD_not, getLsbD_one_shiftLeft hb, decide_eq_true hb]
        simp
      · rw [BitVec.getLsbD_and, BitVec.getLsbD_not, getLsbD_one_shiftLeft hb, decide_eq_true hb',
          decide_eq_false hne]
        simp
    · rename_i hmore
      refine h.update (fun i => ?_) setCount_fields.2 setCount_fields.1 hsmall
      rw [marked_setCount, inUse_setCount hid, h.bits]
      split
      · rename_i hi
        rw [hi, hin, decide_eq_true (Nat.succ_pos n), decide_eq_true (Nat.pos_of_ne_zero hmore)]
      · rfl

theorem count_mark (hid : id < pidMax) :
    (P.mark id).count i = if i = id then some 1 else P.count i := by
  rw [mark, count_setWord, count_setCount hid]

/-- `hold` adds a use, unless the id is out of range or has all the uses a byte can count. -/
theorem Inv.hold_adds (h : Inv P) (id : Nat) :
    ((P.hold id).1 = true ↔ id ≠ 0 ∧ id < P.max ∧ P.count id ≠ some 255) ∧
      ∀ i, (P.hold id).2.count i =
        if i = id ∧ (P.hold id).1 = true then (P.count i).map (· + 1) else P.count i := by
  rcases P.hold_cases id with ⟨he, hno⟩ | ⟨n, hn, ⟨hpos, hlt, hfull⟩, he⟩
  · rw [he]
    refine ⟨iff_of_false nofun ?_, fun i => (if_neg nofun).symm⟩
    rintro ⟨hpos, hlt, hfull⟩
    have hc : P.count id = some _ := dif_pos (Nat.lt_of_lt_of_le hlt h.max)
    rcases hno with hno | hno | hno
    · exact hpos hno
    · omega
    · exact hfull (hc.trans (congrArg some (hno _ hc)))
  · rw [he]
    obtain ⟨hid, -⟩ := count_some hn
    refine ⟨iff_of_true rfl ⟨hpos, hlt, fun hc => hfull (Option.some.inj (hn.symm.trans hc))⟩,
      fun i => ?_⟩
    have hcount : (if n = 0 then P.mark id else P.setCount id (n + 1)).count i =
        if i = id then some (n + 1) else P.count i := by
      split
      · rename_i hzero
        rw [count_mark hid, hzero]
      · exact count_setCount hid
    rw [hcount]
    by_cases hi : i = id
    · simp [hi, hn]
    · simp [hi]

/-- `free` takes a use away and says whether there was one. -/
theorem free_takes (P : PidAlloc) (id : Nat) : (P.free id).1 = P.inUse id ∧
    ∀ i, (P.free id).2.count i = if i = id then (P.count i).map (· - 1) else P.count i := by
  rcases P.free_cases id with ⟨he, hno⟩ | ⟨n, hn, he⟩
  · rw [he]
    have hkeep : (P.count id).map (· - 1) = P.count id ∧ P.inUse id = false := by
      unfold inUse
      rcases hno with hno | hno
      · rw [hno]
        exact ⟨rfl, rfl⟩
      · rw [hno]
        exact ⟨rfl, rfl⟩
    refine ⟨hkeep.2.symm, fun i => ?_⟩
    split
    · rename_i hi
      rw [hi, hkeep.1]
    · rfl
  · rw [he]
    obtain ⟨hid, -, hin⟩ := count_some hn
    refine ⟨by rw [hin]; simp, fun i => ?_⟩
    dsimp only
    have hcount : (P.setCount id n).count i =
        if i = id then (P.count i).map (· - 1) else P.count i := by
      rw [count_setCount hid]
      by_cases hi : i = id
      · simp [hi, hn]
      · simp [hi]
    split
    · exact count_setWord.trans hcount
    · exact hcount

theorem Inv.alloc_fst (h : Inv P) : P.alloc.1 = P.order.find? fun i => !P.inUse i := by
  have hlast := h.last
  have hmax := h.max
  have hstart : Nat.min (P.last + 1) (2 ^ 32 - 1) = P.last + 1 := by
    refine Nat.min_eq_left ?_
    unfold pidMax at hmax
    omega
  have hwrap : Nat.min (P.last + 1) P.max = P.last + 1 := Nat.min_eq_left hlast
  have hone : Nat.max (P.last + 1) 1 = P.last + 1 := Nat.max_eq_left (Nat.succ_pos _)
  have hone' : Nat.max pidWrap 1 = pidWrap := rfl
  have hbits : (fun i => !P.marked i) = fun i => !P.inUse i := funext fun i => by rw [h.bits]
  have hfind : (P.findFree (P.last + 1) P.max).or (P.findFree pidWrap (P.last + 1)) =
      P.order.find? fun i => !P.inUse i := by
    unfold findFree order
    rw [hone, hone', findFrom_eq hmax, findFrom_eq (Nat.le_trans hlast hmax), hbits,
      List.find?_append]
  unfold PidAlloc.alloc
  simp only [hstart, hwrap, hfind]
  split
  · rename_i hnone
    exact hnone.symm
  · rename_i id hsome
    exact hsome.symm

theorem alloc_snd : P.alloc.2 = match P.alloc.1 with
    | none => P
    | some id => { P with last := id }.mark id := by
  unfold PidAlloc.alloc
  dsimp only
  split <;> rfl

theorem Inv.alloc_some (h : Inv P) (hid : P.alloc.1 = some id) :
    P.inUse id = false ∧ id < P.max ∧
      ((P.last < id ∧ ∀ i, P.last < i → i < id → P.inUse i = true) ∨
        (pidWrap ≤ id ∧ id ≤ P.last ∧ (∀ i, P.last < i → i < P.max → P.inUse i = true) ∧
          ∀ i, pidWrap ≤ i → i < id → P.inUse i = true)) := by
  have hlast := h.last
  rw [h.alloc_fst, order, List.find?_append] at hid
  cases hup : (List.range' (P.last + 1) (P.max - (P.last + 1))).find? (fun i => !P.inUse i) with
  | some x =>
    rw [hup] at hid
    cases hid
    obtain ⟨hlo, hhi, hx, hmin⟩ := find?_range'_some hup
    refine ⟨by simpa using hx, by omega, .inl ⟨hlo, fun i hle hlt => ?_⟩⟩
    simpa using hmin i hle hlt
  | none =>
    rw [hup, Option.none_or] at hid
    obtain ⟨hlo, hhi, hx, hmin⟩ := find?_range'_some hid
    refine ⟨by simpa using hx, by omega,
      .inr ⟨hlo, by omega, fun i hle hlt => ?_, fun i hle hlt => ?_⟩⟩
    · have := List.find?_eq_none.mp hup i (List.mem_range'_1.mpr (by omega))
      simpa using this
    · simpa using hmin i hle hlt

theorem Inv.alloc (h : Inv P) : Inv P.alloc.2 := by
  rw [alloc_snd]
  split
  · exact h
  · rename_i id hid
    obtain ⟨-, hlt, -⟩ := h.alloc_some hid
    have hnew : Inv { P with last := id } := ⟨h.bits, h.wrap, h.max, hlt, h.small⟩
    exact hnew.mark (Nat.lt_of_lt_of_le hlt h.max)

theorem Inv.step (h : Inv P) (op : PidOp) : Inv (P.step op) := by
  cases op with
  | alloc => exact h.alloc
  | hold id => exact h.hold id
  | free id => exact h.free id

theorem Inv.foldl (h : Inv P) (ops : List PidOp) : Inv (ops.foldl PidAlloc.step P) := by
  induction ops generalizing P with
  | nil => exact h
  | cons op ops ih => exact ih (h.step op)

theorem step_fields (P : PidAlloc) (op : PidOp) :
    (P.step op).max = P.max ∧ (op ≠ .alloc → (P.step op).last = P.last) := by
  have hmark : ∀ {Q : PidAlloc} {id}, (Q.mark id).max = Q.max ∧ (Q.mark id).last = Q.last :=
    ⟨setWord_fields.2.2.trans setCount_fields.2, setWord_fields.2.1.trans setCount_fields.1⟩
  cases op with
  | alloc =>
    refine ⟨?_, fun hop => absurd rfl hop⟩
    change P.alloc.2.max = P.max
    rw [alloc_snd]
    split
    · rfl
    · exact hmark.1
  | hold id =>
    change (P.hold id).2.max = _ ∧ (_ → (P.hold id).2.last = _)
    rcases P.hold_cases id with ⟨he, -⟩ | ⟨n, -, -, he⟩
    · rw [he]
      exact ⟨rfl, fun _ => rfl⟩
    · rw [he]
      dsimp only
      split
      · exact ⟨hmark.1, fun _ => hmark.2⟩
      · exact ⟨setCount_fields.2, fun _ => setCount_fields.1⟩
  | free id =>
    change (P.free id).2.max = _ ∧ (_ → (P.free id).2.last = _)
    rcases P.free_cases id with ⟨he, -⟩ | ⟨n, -, he⟩
    · rw [he]
      exact ⟨rfl, fun _ => rfl⟩
    · rw [he]
      dsimp only
      split
      · exact ⟨setWord_fields.2.2.trans setCount_fields.2,
          fun _ => setWord_fields.2.1.trans setCount_fields.1⟩
      · exact ⟨setCount_fields.2, fun _ => setCount_fields.1⟩

theorem max_run (m : Nat) (ops : List PidOp) :
    (run m ops).max = Nat.max (pidWrap + 1) (Nat.min m pidMax) := by
  have hfold : ∀ P : PidAlloc, (ops.foldl PidAlloc.step P).max = P.max := by
    induction ops with
    | nil => exact fun P => rfl
    | cons op ops ih => exact fun P => (ih _).trans (P.step_fields op).1
  rw [run, hfold]
  change (if m ≤ 300 then 301 else if 32768 < m then 32768 else m) = Max.max 301 (Min.min m 32768)
  split
  · omega
  · split <;> omega

/-- Going up from `x` and round, `l` comes before `y`. -/
def Ahead (x y l : Nat) : Prop :=
  (x < y ∧ x ≤ l ∧ l < y) ∨ (y < x ∧ (x ≤ l ∨ l < y))

variable {x y z : Nat}

theorem Inv.ahead_alloc (h : Inv P) (hwrap : pidWrap ≤ y) (hmax : y < P.max)
    (hy : P.inUse y = false) (hahead : Ahead x y P.last) (hz : P.alloc.1 = some z) :
    z ≠ x ∧ (z ≠ y → Ahead x y z) := by
  have hfree : ¬ P.inUse y = true := by
    rw [hy]
    exact Bool.false_ne_true
  obtain ⟨-, -, ⟨hup, hbetween⟩ | ⟨hlo, hle, habove, hbelow⟩⟩ := h.alloc_some hz
  · -- going up: `y` is not between the last id and this one
    have hnot : ¬ (P.last < y ∧ y < z) := fun hb => hfree (hbetween y hb.1 hb.2)
    unfold Ahead at *
    omega
  · -- going round: `y` is neither above the last id nor below this one
    have hnot : ¬ P.last < y := fun hb => hfree (habove y hb hmax)
    have hnot' : ¬ y < z := fun hb => hfree (hbelow y hwrap hb)
    unfold Ahead at *
    omega

theorem Inv.not_again (h : Inv P) (hwrap : pidWrap ≤ y) (hmax : y < P.max)
    (hahead : Ahead x y P.last) (ops : List PidOp)
    (hfree : ∀ a b, ops = a ++ b → (a.foldl PidAlloc.step P).inUse y = false) :
    (ops.foldl PidAlloc.step P).alloc.1 ≠ some x := by
  induction ops generalizing P with
  | nil =>
    intro hx
    exact (h.ahead_alloc hwrap hmax (hfree [] [] rfl) hahead hx).1 rfl
  | cons op ops ih =>
    have hnext : Ahead x y (P.step op).last := by
      by_cases hop : op = .alloc
      · subst hop
        have hy' : P.alloc.2.inUse y = false := hfree [.alloc] ops rfl
        change Ahead x y P.alloc.2.last
        rw [alloc_snd] at hy' ⊢
        cases hz : P.alloc.1 with
        | none => exact hahead
        | some z =>
          rw [hz] at hy'
          have hlt := (h.alloc_some hz).2.1
          have hne : z ≠ y := by
            rintro rfl
            rw [inUse_mark (Nat.lt_of_lt_of_le hlt h.max), if_pos rfl] at hy'
            cases hy'
          have hlast : ({ P with last := z }.mark z).last = z :=
            setWord_fields.2.1.trans setCount_fields.1
          change Ahead x y ({ P with last := z }.mark z).last
          rw [hlast]
          exact (h.ahead_alloc hwrap hmax (hfree [] _ rfl) hahead hz).2 hne
      · rw [(P.step_fields op).2 hop]
        exact hahead
    refine ih (h.step op) ((P.step_fields op).1.symm ▸ hmax) hnext fun a b hab => ?_
    exact hfree (op :: a) b (by rw [hab]; rfl)

/-- The bitmap marks exactly the ids with a use; an allocation returns the first id without one in
the order after the last, which is never 0 or at or past the maximum; and between two returns of one
id every other id from `pidWrap` on was in use at some point. -/
theorem pid_allocation (m : Nat) (ops : List PidOp) :
    (∀ i : Fin pidMax, ((run m ops).marked i = true ↔ 0 < (run m ops).uses i) ∧
      (run m ops).uses i ≤ 255) ∧
    (run m ops).max = Nat.max (pidWrap + 1) (Nat.min m pidMax) ∧
    (∀ id, (((run m ops).hold id).1 = true ↔
        id ≠ 0 ∧ id < (run m ops).max ∧ (run m ops).count id ≠ some 255) ∧
      ∀ i, ((run m ops).hold id).2.count i =
        if i = id ∧ ((run m ops).hold id).1 = true then ((run m ops).count i).map (· + 1)
        else (run m ops).count i) ∧
    (∀ id, ((run m ops).free id).1 = (run m ops).inUse id ∧
      ∀ i, ((run m ops).free id).2.count i =
        if i = id then ((run m ops).count i).map (· - 1) else (run m ops).count i) ∧
    (run m ops).alloc.1 = (run m ops).order.find? (fun i => !(run m ops).inUse i) ∧
    ((run m ops).alloc.1 = none ↔ ∀ i ∈ (run m ops).order, (run m ops).inUse i = true) ∧
    (∀ id, (run m ops).alloc.1 = some id →
      id ≠ 0 ∧ id < (run m ops).max ∧ (run m ops).inUse id = false ∧
      ∀ i, (run m ops).alloc.2.count i = if i = id then some 1 else (run m ops).count i) ∧
    ∀ x y ops', (run m ops).alloc.1 = some x → (run m (ops ++ .alloc :: ops')).alloc.1 = some x →
      pidWrap ≤ y → y < (run m ops).max → y ≠ x →
      ∃ a b, ops' = a ++ b ∧ (run m (ops ++ .alloc :: a)).inUse y = true := by
  have h : Inv (run m ops) := (Inv.new m).foldl ops
  refine ⟨fun i => ⟨?_, h.small i⟩, max_run m ops, h.hold_adds, free_takes _, h.alloc_fst, ?_,
    fun id hid => ?_, fun x y ops' hx hx' hwrap hmax hne => ?_⟩
  · rw [h.bits]
    unfold inUse count
    rw [dif_pos i.isLt]
    simp
  · rw [h.alloc_fst, List.find?_eq_none]
    simp
  · obtain ⟨hfree, hlt, hrange⟩ := h.alloc_some hid
    refine ⟨?_, hlt, hfree, ?_⟩
    · rintro rfl
      rcases hrange with ⟨hup, -⟩ | ⟨hlo, -⟩
      · omega
      · exact absurd hlo (by decide)
    · rw [alloc_snd, hid]
      exact fun i => count_mark (Nat.lt_of_lt_of_le hlt h.max)
  · by_contra hno
    have hlast : ((run m ops).step .alloc).last = x := by
      change (run m ops).alloc.2.last = x
      rw [alloc_snd, hx]
      exact setWord_fields.2.1.trans setCount_fields.1
    have hrun : ∀ a, run m (ops ++ .alloc :: a) =
        a.foldl PidAlloc.step ((run m ops).step .alloc) := by
      intro a
      rw [run, List.foldl_append]
      rfl
    have hahead : Ahead x y ((run m ops).step .alloc).last := by
      rw [hlast]
      unfold Ahead
      omega
    rw [hrun] at hx'
    refine (h.step .alloc).not_again hwrap ((step_fields _ _).1.symm ▸ hmax) hahead ops'
      (fun a b hab => ?_) hx'
    rw [← hrun, ← Bool.not_eq_true]
    exact fun hin => hno ⟨a, b, hab, hin⟩

/-- Pids 1 and 2 are held, 2 twice, and each is freed once: 1 is handed out, and 3 after it. -/
theorem pid_allocation_held :
    (run 400 [.hold 1, .hold 2, .hold 2, .free 2, .free 1]).alloc.1 = some 1 ∧
      (run 400 [.hold 1, .hold 2, .hold 2, .free 2]).alloc.1 = some 3 ∧
      (run 400 [.hold 1, .hold 2, .hold 2, .free 2]).max = 400 := by
  obtain ⟨-, -, -, -, hone, -⟩ := pid_allocation 400 [.hold 1, .hold 2, .hold 2, .free 2, .free 1]
  obtain ⟨-, hmax, -, -, hthree, -⟩ := pid_allocation 400 [.hold 1, .hold 2, .hold 2, .free 2]
  exact ⟨hone.trans (by decide +kernel), hthree.trans (by decide +kernel), hmax⟩

end PidAlloc
end VibeOS.Process
