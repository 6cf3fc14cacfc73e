import Mathlib.Order.Interval.Finset.Nat
import VibeOS.Block.Cache
import VibeOS.Block.CacheSpec
import VibeOS.Lib.Bytes
import VibeOS.Lib.Effect
import VibeOS.Lib.Parallel

/-!
Writes to a block device's node. The call reads and writes the device block by block with no lock
held: whole blocks go straight to the device, and a block of which it has a part is read, changed
and written back.
-/
namespace VibeOS.Kernfs
open Lib Block Fs

/-- What a device's handle is asked for. -/
inductive DevOp : Type → Type
  | capacitySectors : DevOp (Except BlockError Nat)
  | logicalBlockSize : DevOp (Except BlockError Nat)
  | read (lba len : Nat) : DevOp (Except BlockError (List UInt8))
  | write (lba : Nat) (bytes : List UInt8) : DevOp (Except BlockError Unit)

/-- The heap is asked for a buffer, which it may refuse. -/
inductive HeapAsk : Type → Type
  | bounce (len : Nat) : HeapAsk Bool

abbrev DevProg := Prog DevOp HeapAsk

def blkErr : BlockError → FsError
  | .inval => .inval
  | _ => .io

/-- A device operation whose error ends the call. -/
def onDev {α β : Type} (op : DevOp (Except BlockError α)) (k : α → DevProg (Except FsError β)) :
    DevProg (Except FsError β) :=
  .act op fun
    | .error e => .ret (.error (blkErr e))
    | .ok a => k a

def blkSize {α : Type} (k : Nat → DevProg (Except FsError α)) : DevProg (Except FsError α) :=
  onDev .capacitySectors fun cap =>
    onDev .logicalBlockSize fun bs =>
      if 2 ^ 64 ≤ cap * bs then .ret (.error .inval) else k (cap * bs)

/-- The bounce buffer, unless there is one. -/
def bounce {α : Type} (tmp : Bool) (bs : Nat) (k : DevProg (Except FsError α)) :
    DevProg (Except FsError α) :=
  if tmp then k
  else .ask (.bounce bs) fun got => if got then k else .ret (.error .noMem)

/-- The bytes of a block with those from `inb` on replaced. -/
def patch (b : List UInt8) (inb : Nat) (bytes : List UInt8) : List UInt8 :=
  b.take inb ++ bytes ++ b.drop (inb + bytes.length)

/-- The loop of `blk_write`, from `done` bytes on. -/
def blkWriteFrom (bs : Nat) (hbs : bs ≠ 0) (off n : Nat) (buf : List UInt8) (tmp : Bool)
    (done : Nat) : DevProg (Except FsError Nat) :=
  if _h : done < n then
    let pos := off + done
    let lba := pos / bs
    let inb := pos % bs
    let want := n - done
    if _hw : inb = 0 ∧ want ≥ bs then
      let len := want - want % bs
      onDev (.write lba ((buf.drop done).take len)) fun _ =>
        blkWriteFrom bs hbs off n buf tmp (done + len)
    else
      bounce tmp bs <|
        onDev (.read lba bs) fun b =>
          let take := min (bs - inb) want
          onDev (.write lba (patch b inb ((buf.drop done).take take))) fun _ =>
            blkWriteFrom bs hbs off n buf true (done + take)
  else .ret (.ok n)
termination_by n - done
decreasing_by
  · have := Nat.mod_lt (n - done) (Nat.pos_of_ne_zero hbs)
    have := Nat.mod_le (n - done) bs
    omega
  · have := Nat.mod_lt (off + done) (Nat.pos_of_ne_zero hbs)
    omega

def blkWrite (off : Nat) (buf : List UInt8) : DevProg (Except FsError Nat) :=
  blkSize fun size =>
    onDev .logicalBlockSize fun bs =>
      if buf.isEmpty then .ret (.ok 0)
      else if h : off ≥ size ∨ bs = 0 then .ret (.error .noSpace)
      else
        let left := size - off
        let n := min buf.length left
        blkWriteFrom bs (fun hbs => h (.inr hbs)) off n buf false 0

/-- A device of `cap` blocks of `bs` bytes whose operations succeed. -/
def devExec (cap bs : Nat) : ∀ {γ : Type}, DevOp γ → Memory → γ × Memory
  | _, .capacitySectors, m => (.ok cap, m)
  | _, .logicalBlockSize, m => (.ok bs, m)
  | _, .read lba len, m => (.ok ((List.range len).map fun i => m (lba * bs + i)), m)
  | _, .write lba bytes, m => (.ok (), m.store (lba * bs) bytes)

/-- The bytes of the blocks that a range touches. -/
def touched (bs off n : Nat) : Set Nat := {c | ∃ i, off ≤ i ∧ i < off + n ∧ c / bs = i / bs}

/-- Of the range, the first `done` bytes are written; the other bytes of its blocks are as in `m₀`.
-/
structure Written (bs off n : Nat) (buf : List UInt8) (m₀ : Memory) (done : Nat) (m : Memory) :
    Prop where
  bytes : ∀ i < done, buf[i]? = some (m (off + i))
  rest : ∀ c ∈ touched bs off n, c < off ∨ off + done ≤ c → m c = m₀ c

section
variable {bs off n len done cap : Nat} {buf : List UInt8} {m₀ m m' : Memory}

theorem mem_touched {c : Nat} (h₁ : off ≤ c) (h₂ : c < off + n) : c ∈ touched bs off n :=
  ⟨c, h₁, h₂, rfl⟩

theorem Written.congr (h : Written bs off n buf m₀ done m) (hd : done ≤ n)
    (hm : Set.EqOn m m' (touched bs off n)) : Written bs off n buf m₀ done m' where
  bytes i hi := by rw [h.bytes i hi, hm (mem_touched (by omega) (by omega))]
  rest c hc hout := by rw [← hm hc, h.rest c hc hout]

theorem Written.store (h : Written bs off n buf m₀ done m) (hlen : done + len ≤ buf.length) :
    Written bs off n buf m₀ (done + len) (m.store (off + done) ((buf.drop done).take len)) := by
  have hl : ((buf.drop done).take len).length = len := by
    rw [List.length_take, List.length_drop]
    omega
  refine ⟨fun i hi => ?_, fun c hc hout => ?_⟩
  · by_cases hlt : i < done
    · rw [Memory.store_of_ne (by omega)]
      exact h.bytes i hlt
    · rw [Memory.store, if_pos (by omega), List.getElem?_take_of_lt (by omega), List.getElem?_drop,
        show done + (off + i - (off + done)) = i by omega,
        List.getElem?_eq_getElem (by omega : i < buf.length), Option.getD_some]
  · rw [Memory.store_of_ne (by omega)]
    exact h.rest c hc (by omega)

theorem store_outside {l : List UInt8} (hl : done + l.length ≤ n) :
    Set.EqOn m (m.store (off + done) l) (touched bs off n)ᶜ := by
  intro c hc
  refine (Memory.store_of_ne ?_).symm
  by_contra hin
  exact hc (mem_touched (by omega) (by omega))

theorem store_patch {a inb : Nat} {l : List UInt8} (hb : ∀ i < bs, m (a + i) = m' (a + i))
    (hfit : inb + l.length ≤ bs) :
    m.store a (patch ((List.range bs).map fun i => m' (a + i)) inb l) = m.store (a + inb) l := by
  funext c
  have hlen : (patch ((List.range bs).map fun i => m' (a + i)) inb l).length = bs := by
    simp only [patch, List.length_append, List.length_take, List.length_drop, List.length_map,
      List.length_range]
    omega
  by_cases hout : c < a ∨ a + bs ≤ c
  · rw [Memory.store_of_ne (by omega), Memory.store_of_ne (by omega)]
  have hsame : m' (a + (c - a)) = m c := by
    rw [← hb _ (by omega), Nat.add_sub_of_le (by omega)]
  rw [Memory.store, if_pos (by omega), patch]
  by_cases hlow : c < a + inb
  · rw [Memory.store_of_ne (.inl hlow), List.append_assoc,
      List.getElem?_append_left (by simp; omega), List.getElem?_take_of_lt (by omega),
      List.getElem?_map, List.getElem?_range (by omega), Option.map_some, Option.getD_some, hsame]
  · have htake : (((List.range bs).map fun i => m' (a + i)).take inb).length = inb := by
      simp only [List.length_take, List.length_map, List.length_range]
      omega
    by_cases hmid : c < a + inb + l.length
    · rw [Memory.store, if_pos (by omega), List.getElem?_append_left (by simp; omega),
        List.getElem?_append_right (by omega), htake, show c - a - inb = c - (a + inb) by omega,
        List.getElem?_eq_getElem (by omega), Option.getD_some]
    · rw [Memory.store_of_ne (by omega), List.getElem?_append_right (by simp; omega),
        List.length_append, htake, List.getElem?_drop,
        show inb + l.length + (c - a - (inb + l.length)) = c - a by omega, List.getElem?_map,
        List.getElem?_range (by omega), Option.map_some, Option.getD_some, hsame]

/-- What the call leaves when it returns: its range is written and the rest of its blocks is not. -/
def Persists (bs off n : Nat) (buf : List UInt8) (m₀ : Memory) (r : Except FsError Nat)
    (m : Memory) : Prop :=
  ∀ k, r = .ok k → k = n ∧ Written bs off n buf m₀ n m

theorem Persists.error (e : FsError) : Persists bs off n buf m₀ (.error e) m := nofun

theorem Persists.congr {r : Except FsError Nat} (hm : Set.EqOn m m' (touched bs off n))
    (h : Persists bs off n buf m₀ r m) : Persists bs off n buf m₀ r m' := fun k hk =>
  ⟨(h k hk).1, (h k hk).2.congr (Nat.le_refl n) hm⟩

theorem blkWriteFrom_inside (hbs : bs ≠ 0) (hn : n ≤ buf.length) {tmp : Bool} (hd : done ≤ n)
    (hw : Written bs off n buf m₀ done m) :
    (blkWriteFrom bs hbs off n buf tmp done).Inside (devExec cap bs) (touched bs off n)
      (Persists bs off n buf m₀) m := by
  induction hk : n - done using Nat.strongRecOn generalizing tmp done m with
  | ind k ih =>
    rw [blkWriteFrom]
    split
    case isFalse =>
      have : done = n := by omega
      subst this
      exact fun k hk => ⟨(Except.ok.inj hk).symm, hw⟩
    rename_i hlt
    have hmod := Nat.mod_lt (off + done) (Nat.pos_of_ne_zero hbs)
    have hdiv := Nat.div_add_mod' (off + done) bs
    -- `len` more bytes stored, and the loop goes on
    have hstore : ∀ (tmp : Bool) (m₁ : Memory) (len : Nat), 0 < len → done + len ≤ n →
        Set.EqOn m m₁ (touched bs off n) →
        Set.EqOn m₁ (m₁.store (off + done) ((buf.drop done).take len)) (touched bs off n)ᶜ ∧
          (blkWriteFrom bs hbs off n buf tmp (done + len)).Inside (devExec cap bs)
            (touched bs off n) (Persists bs off n buf m₀)
            (m₁.store (off + done) ((buf.drop done).take len)) := by
      intro tmp m₁ len hpos hlen hm₁
      have hl : ((buf.drop done).take len).length = len := by
        rw [List.length_take, List.length_drop]
        omega
      exact ⟨store_outside (by omega), ih (n - (done + len)) (by omega) hlen
        ((hw.congr hd hm₁).store (by omega)) rfl⟩
    dsimp only
    split
    · rename_i hwhole
      have hle := Nat.mod_le (n - done) bs
      have hrem := Nat.mod_lt (n - done) (Nat.pos_of_ne_zero hbs)
      intro m₁ hm₁
      have hpos : (off + done) / bs * bs = off + done := by omega
      have hnext := hstore tmp m₁ (n - done - (n - done) % bs) (by omega) (by omega) hm₁
      simp only [devExec, hpos]
      exact hnext
    · have hread : (onDev (.read ((off + done) / bs) bs) fun b =>
          onDev (.write ((off + done) / bs) (patch b ((off + done) % bs)
            ((buf.drop done).take (min (bs - (off + done) % bs) (n - done))))) fun _ =>
          blkWriteFrom bs hbs off n buf true
            (done + min (bs - (off + done) % bs) (n - done))).Inside (devExec cap bs)
            (touched bs off n) (Persists bs off n buf m₀) m := by
        intro m₁ hm₁
        refine ⟨fun _ _ => rfl, fun m₂ hm₂ => ?_⟩
        have hblock : ∀ i < bs, m₂ ((off + done) / bs * bs + i) =
            m₁ ((off + done) / bs * bs + i) := by
          intro i hi
          refine (hm₂ ⟨off + done, by omega, by omega, ?_⟩).symm
          rw [Nat.mul_comm, Nat.mul_add_div (Nat.pos_of_ne_zero hbs), Nat.div_eq_of_lt hi,
            Nat.add_zero]
        have hl : ((buf.drop done).take (min (bs - (off + done) % bs) (n - done))).length =
            min (bs - (off + done) % bs) (n - done) := by
          rw [List.length_take, List.length_drop]
          omega
        have hnext := hstore true m₂ (min (bs - (off + done) % bs) (n - done)) (by omega)
          (by omega) (hm₁.trans hm₂)
        simp only [devExec]
        rw [store_patch hblock (by omega), hdiv]
        exact hnext
      rw [bounce]
      split
      · exact hread
      · intro got
        dsimp only
        split
        · exact hread
        · exact Persists.error _

/-- How many bytes of the buffer a device has room for. -/
def accepted (cap bs off : Nat) (buf : List UInt8) : Nat := min buf.length (cap * bs - off)

theorem blkWrite_inside (cap bs off : Nat) (buf : List UInt8) (m : Memory) :
    (blkWrite off buf).Inside (devExec cap bs) (touched bs off (accepted cap bs off buf))
      (Persists bs off (accepted cap bs off buf) buf m) m := by
  intro m₁ hm₁
  refine ⟨fun _ _ => rfl, fun m₂ hm₂ => ⟨fun _ _ => rfl, ?_⟩⟩
  simp only [devExec]
  split
  · exact Persists.error _
  intro m₃ hm₃
  refine ⟨fun _ _ => rfl, ?_⟩
  simp only [devExec]
  have hzero : Written bs off (accepted cap bs off buf) buf m 0 m₃ :=
    ⟨nofun, fun c hc _ => (((hm₁.trans hm₂).trans hm₃) hc).symm⟩
  split
  · rename_i hempty
    have hn : accepted cap bs off buf = 0 := by
      rw [accepted, List.isEmpty_iff.mp hempty, List.length_nil, Nat.zero_min]
    intro k hk
    rw [hn] at hzero ⊢
    exact ⟨(Except.ok.inj hk).symm, hzero⟩
  split
  · exact Persists.error _
  · exact blkWriteFrom_inside _ (Nat.min_le_left ..) (Nat.zero_le _) hzero

/-- Two calls whose ranges have no block in common, in any interleaving: when both have returned,
the device holds the bytes of both, and its other bytes are as they were. -/
theorem apart_writes_persist {off' n' : Nat} {buf' : List UInt8}
    (hapart : ∀ i < accepted cap bs off buf, ∀ j < accepted cap bs off' buf',
      (off + i) / bs ≠ (off' + j) / bs)
    (h : Pair.Reach (devExec cap bs) ⟨m, blkWrite off buf, blkWrite off' buf'⟩
      ⟨m', .ret (.ok n), .ret (.ok n')⟩) :
    n = accepted cap bs off buf ∧ n' = accepted cap bs off' buf' ∧
      (∀ i < n, buf[i]? = some (m' (off + i))) ∧ (∀ i < n', buf'[i]? = some (m' (off' + i))) ∧
      ∀ c, ¬ (off ≤ c ∧ c < off + n) → ¬ (off' ≤ c ∧ c < off' + n') → m' c = m c := by
  have hdisj : Disjoint (touched bs off (accepted cap bs off buf))
      (touched bs off' (accepted cap bs off' buf')) := by
    refine Set.disjoint_left.mpr fun c ⟨i, hi₁, hi₂, hi⟩ ⟨j, hj₁, hj₂, hj⟩ => ?_
    refine hapart (i - off) (by omega) (j - off') (by omega) ?_
    rw [Nat.add_sub_of_le hi₁, Nat.add_sub_of_le hj₁, ← hi, hj]
  obtain ⟨hl, hr, hm⟩ := Pair.inside_of_reach (fun r _ _ => Persists.congr (r := r))
    (fun r _ _ => Persists.congr (r := r)) hdisj (blkWrite_inside cap bs off buf m)
    (blkWrite_inside cap bs off' buf' m) h
  obtain ⟨rfl, hw⟩ := hl n rfl
  obtain ⟨rfl, hw'⟩ := hr n' rfl
  refine ⟨rfl, rfl, hw.bytes, hw'.bytes, fun c hc hc' => ?_⟩
  by_cases hF : c ∈ touched bs off (accepted cap bs off buf)
  · exact hw.rest c hF (by omega)
  by_cases hG : c ∈ touched bs off' (accepted cap bs off' buf')
  · exact hw'.rest c hG (by omega)
  · exact (hm fun hor => hor.elim hF hG).symm

end

/-- The heap has a buffer for whoever asks. -/
def granted : ∀ {γ : Type}, HeapAsk γ → γ
  | _, .bounce _ => true

/-- What two calls have returned, and the memory they left. -/
def returned : Pair DevOp HeapAsk (Except FsError Nat) (Except FsError Nat) Memory →
    Option (Nat × Nat × Memory)
  | ⟨m, .ret (.ok a), .ret (.ok b)⟩ => some (a, b, m)
  | _ => none

theorem reach_of_returned {cap bs : Nat} {p q : DevProg (Except FsError Nat)} {m : Memory}
    (sides : List Bool) (a b : Nat) (P : Memory → Bool)
    (h : (returned (Pair.play (devExec cap bs) granted sides ⟨m, p, q⟩)).any
      (fun r => r.1 = a && r.2.1 = b && P r.2.2) = true) :
    ∃ m', Pair.Reach (devExec cap bs) ⟨m, p, q⟩ ⟨m', .ret (.ok a), .ret (.ok b)⟩ ∧ P m' = true := by
  have hreach := Pair.reach_play (devExec cap bs) granted sides ⟨m, p, q⟩
  generalize Pair.play (devExec cap bs) granted sides ⟨m, p, q⟩ = s at *
  unfold returned at h
  split at h
  · rename_i m' a' b'
    simp only [Option.any_some, Bool.and_eq_true, decide_eq_true_eq] at h
    obtain ⟨⟨rfl, rfl⟩, hP⟩ := h
    exact ⟨m', hreach, hP⟩
  · cases h

/-- Two calls on neighbouring blocks of two bytes: both read before either writes. -/
theorem apart_writes_persist_neighbours :
    ∃ m', Pair.Reach (devExec 2 2) ⟨fun _ => 0, blkWrite 1 [7], blkWrite 2 [8]⟩
        ⟨m', .ret (.ok 1), .ret (.ok 1)⟩ ∧ m' 1 = 7 ∧ m' 2 = 8 := by
  obtain ⟨m', hreach, -⟩ : ∃ m', Pair.Reach (devExec 2 2)
      ⟨fun _ => 0, blkWrite 1 [7], blkWrite 2 [8]⟩ ⟨m', .ret (.ok 1), .ret (.ok 1)⟩ ∧ true = true :=
    reach_of_returned (List.replicate 5 true ++ List.replicate 5 false ++ [true, false]) 1 1
      (fun _ => true) (by decide +kernel)
  obtain ⟨-, -, hl, hr, -⟩ := apart_writes_persist (by decide) hreach
  exact ⟨m', hreach, (Option.some.inj (hl 0 (by decide))).symm,
    (Option.some.inj (hr 0 (by decide))).symm⟩

/-- Two calls on one block: both read it before either writes it back, and the byte of the first is
gone. -/
theorem shared_block_write_lost :
    ∃ m', Pair.Reach (devExec 1 512) ⟨fun _ => 0, blkWrite 0 [7], blkWrite 256 [8]⟩
        ⟨m', .ret (.ok 1), .ret (.ok 1)⟩ ∧ m' 0 = 0 := by
  obtain ⟨m', hreach, hlost⟩ : ∃ m', Pair.Reach (devExec 1 512)
      ⟨fun _ => 0, blkWrite 0 [7], blkWrite 256 [8]⟩ ⟨m', .ret (.ok 1), .ret (.ok 1)⟩ ∧
        decide (m' 0 = 0) = true :=
    reach_of_returned (List.replicate 5 true ++ List.replicate 5 false ++ [true, false]) 1 1
      (fun m => decide (m 0 = 0)) (by decide +kernel)
  exact ⟨m', hreach, of_decide_eq_true hlost⟩

end VibeOS.Kernfs
