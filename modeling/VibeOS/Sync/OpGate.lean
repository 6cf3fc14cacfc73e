import Mathlib.Data.List.Count
import Mathlib.Data.Nat.Bitwise
import Mathlib.Logic.Relation
import Mathlib.Tactic.Common

/-!
The gate that every operation on a removable object enters. One word holds the number of operations
inside and the dead mark. An operation counts itself in and finds the mark in the same step; one
that finds it backs out. A kill sets the mark and then sleeps until the count is zero. Whoever takes
the count of a dead gate from one to zero runs the wake hook, which wakes the sleepers under the
lock with which a killer looks at the count and goes to sleep. The hook that the kernel installs
leaves the wake out on a CPU that may not take the scheduler's lock, and the killer then goes on at
its deadline; here the hook always wakes, and a deadline may pass at any time.
-/
namespace VibeOS.Sync

/-- The dead mark; the bits below it count the operations inside. -/
def dead : Nat := 2 ^ 63

def fetchAdd (word : Nat) : Nat :=
  (word + 1) % 2 ^ 64

def fetchSub (word : Nat) : Nat :=
  (word + (2 ^ 64 - 1)) % 2 ^ 64

def isDead (word : Nat) : Bool :=
  word &&& dead ≠ 0

def inside (word : Nat) : Nat :=
  word &&& (2 ^ 64 - 1 ^^^ dead)

/-- An `enter` call and the guard it returns. `admitted` tells an operation that was let in from one
that found the mark. -/
inductive OpPc where
  | starting
  | counted (admitted : Bool)
  | waking (admitted : Bool)
  | left (admitted : Bool)
  deriving DecidableEq, Repr

namespace OpPc

/-- After the increment of the word `old`: a dead gate is left again at once. -/
def enter (old : Nat) : OpPc :=
  .counted (!isDead old)

/-- After the decrement of the word `old`: the last one out of a dead gate wakes the killers. -/
def drop (old : Nat) (admitted : Bool) : OpPc :=
  if old = dead ||| 1 then .waking admitted else .left admitted

def isCounted : OpPc → Bool
  | .counted _ => true
  | _ => false

def admitted : OpPc → Bool
  | .starting => false
  | .counted a | .waking a | .left a => a

end OpPc

/-- A `kill_and_wake` call: before its mark, before the caller's own wake, before it looks at the
count, in the sleep before it has the lock, with the lock before it looks again, with the lock and
about to queue itself, in the queue, and at its end. -/
inductive KillPc where
  | marking | hooking | checking | sleepy | looking | queuing | asleep | returned
  deriving DecidableEq, Repr

namespace KillPc

def check (word : Nat) : KillPc :=
  if inside word = 0 then .returned else .sleepy

/-- The look with the lock held; it is given up again when nothing is inside. -/
def look (word : Nat) : KillPc :=
  if inside word = 0 then .checking else .queuing

def wake : KillPc → KillPc
  | .asleep => .checking
  | pc => pc

def locked : KillPc → Bool
  | .looking | .queuing => true
  | _ => false

def marked : KillPc → Bool
  | .marking => false
  | _ => true

/-- In the queue, or bound to get there. -/
def waits : KillPc → Bool
  | .queuing | .asleep => true
  | _ => false

end KillPc

/-- The word, the calls so far, and whether a killer holds the lock of the sleepers. -/
structure Gate where
  word : Nat
  ops : List OpPc
  kills : List KillPc
  locked : Bool
  deriving DecidableEq, Repr

namespace Gate

def new : Gate :=
  ⟨0, [], [], false⟩

inductive Step : Gate → Gate → Prop
  | enterStart (g : Gate) : Step g { g with ops := g.ops ++ [.starting] }
  | countIn (w : Nat) (l r : List OpPc) (ks : List KillPc) (b : Bool) :
      Step ⟨w, l ++ .starting :: r, ks, b⟩ ⟨fetchAdd w, l ++ .enter w :: r, ks, b⟩
  | countOut (w : Nat) (l r : List OpPc) (a : Bool) (ks : List KillPc) (b : Bool) :
      Step ⟨w, l ++ .counted a :: r, ks, b⟩ ⟨fetchSub w, l ++ .drop w a :: r, ks, b⟩
  | wake (w : Nat) (l r : List OpPc) (a : Bool) (ks : List KillPc) :
      Step ⟨w, l ++ .waking a :: r, ks, false⟩ ⟨w, l ++ .left a :: r, ks.map .wake, false⟩
  | killStart (g : Gate) : Step g { g with kills := g.kills ++ [.marking] }
  | mark (w : Nat) (os : List OpPc) (l r : List KillPc) (b : Bool) :
      Step ⟨w, os, l ++ .marking :: r, b⟩ ⟨w ||| dead, os, l ++ .hooking :: r, b⟩
  | hook (w : Nat) (os : List OpPc) (l r : List KillPc) (b : Bool) :
      Step ⟨w, os, l ++ .hooking :: r, b⟩ ⟨w, os, l ++ .checking :: r, b⟩
  | check (w : Nat) (os : List OpPc) (l r : List KillPc) (b : Bool) :
      Step ⟨w, os, l ++ .checking :: r, b⟩ ⟨w, os, l ++ .check w :: r, b⟩
  | spin (w : Nat) (os : List OpPc) (l r : List KillPc) (b : Bool) :
      Step ⟨w, os, l ++ .sleepy :: r, b⟩ ⟨w, os, l ++ .checking :: r, b⟩
  | lock (w : Nat) (os : List OpPc) (l r : List KillPc) :
      Step ⟨w, os, l ++ .sleepy :: r, false⟩ ⟨w, os, l ++ .looking :: r, true⟩
  | look (w : Nat) (os : List OpPc) (l r : List KillPc) :
      Step ⟨w, os, l ++ .looking :: r, true⟩ ⟨w, os, l ++ .look w :: r, (KillPc.look w).locked⟩
  | queue (w : Nat) (os : List OpPc) (l r : List KillPc) :
      Step ⟨w, os, l ++ .queuing :: r, true⟩ ⟨w, os, l ++ .asleep :: r, false⟩
  | deadline (w : Nat) (os : List OpPc) (l r : List KillPc) (b : Bool) :
      Step ⟨w, os, l ++ .asleep :: r, b⟩ ⟨w, os, l ++ .checking :: r, b⟩

/-- How many operations are counted in, let in or not. -/
def count (g : Gate) : Nat :=
  g.ops.countP OpPc.isCounted

def killed (g : Gate) : Bool :=
  g.kills.any KillPc.marked

/-- The states reached with fewer than `2 ^ 63` operations at once. -/
def Reach : Gate → Gate → Prop :=
  Relation.ReflTransGen fun g g' => Step g g' ∧ g'.count < dead

/-- The word of a gate with `n` operations inside. -/
def wordOf (killed : Bool) (n : Nat) : Nat :=
  (if killed then dead else 0) + n

section Word
variable {k : Bool} {n : Nat}

theorem isDead_wordOf (h : n < dead) : isDead (wordOf k n) = k := by
  have hbit : (wordOf k n).testBit 63 = k := by
    unfold wordOf dead at *
    rw [Nat.testBit_eq_decide_div_mod_eq]
    cases k with
    | false => exact decide_eq_false (by rw [if_neg nofun]; omega)
    | true => exact decide_eq_true (by rw [if_pos rfl]; omega)
  unfold isDead dead
  rw [Nat.and_two_pow, hbit]
  cases k <;> rfl

theorem inside_wordOf (h : n < dead) : inside (wordOf k n) = n := by
  have hmask : 2 ^ 64 - 1 ^^^ dead = 2 ^ 63 - 1 := by decide
  rw [inside, hmask, Nat.and_two_pow_sub_one_eq_mod]
  unfold wordOf dead at *
  split <;> omega

theorem dead_or (h : n < dead) : dead ||| n = dead + n := by
  have hor := Nat.two_pow_add_eq_or_of_lt h 1
  rw [Nat.mul_one] at hor
  exact hor.symm

theorem wordOf_or_dead (h : n < dead) : wordOf k n ||| dead = wordOf true n := by
  rw [Nat.or_comm]
  cases k with
  | false => exact (congrArg (dead ||| ·) (Nat.zero_add n)).trans (dead_or h)
  | true =>
    change dead ||| (dead + n) = dead + n
    rw [← dead_or h, ← Nat.or_assoc, Nat.or_self]

theorem fetchAdd_wordOf (h : n + 1 < dead) : fetchAdd (wordOf k n) = wordOf k (n + 1) := by
  unfold fetchAdd wordOf dead at *
  split <;> omega

theorem fetchSub_wordOf (h : n + 1 < dead) : fetchSub (wordOf k (n + 1)) = wordOf k n := by
  unfold fetchSub wordOf dead at *
  split <;> omega

theorem wordOf_eq_last (h : n < dead) : wordOf k n = dead ||| 1 ↔ k = true ∧ n = 1 := by
  rw [dead_or (by decide)]
  cases k with
  | false =>
    have : wordOf false n = n := Nat.zero_add n
    simp only [this, Bool.false_eq_true, false_and, iff_false]
    omega
  | true =>
    have : wordOf true n = dead + n := rfl
    simp only [this, true_and]
    omega

end Word

/-- The word tells the count and the mark; one killer at most has the lock; a kill that has returned
left nobody inside; and a killer bound to sleep has somebody inside or a wake to come. -/
structure Inv (g : Gate) : Prop where
  few : g.count < dead
  word : g.word = wordOf g.killed g.count
  lock : g.kills.countP KillPc.locked = if g.locked then 1 else 0
  empty : .returned ∈ g.kills → .counted true ∉ g.ops
  roused : ∀ pc ∈ g.kills, pc.waits = true → g.count ≠ 0 ∨ ∃ a, .waking a ∈ g.ops

theorem Inv.new : Inv Gate.new :=
  ⟨by decide, rfl, rfl, nofun, nofun⟩

variable {g g' : Gate} {w : Nat} {os l r : List OpPc} {ks kl kr : List KillPc} {a b : Bool}

theorem mem_split {α : Type} {x y z : α} {l r : List α} :
    z ∈ l ++ x :: r → z = x ∨ z ∈ l ++ y :: r := by
  simp only [List.mem_append, List.mem_cons]
  tauto

theorem count_split (w : Nat) (l r : List OpPc) (pc : OpPc) (ks : List KillPc) (b : Bool) :
    (⟨w, l ++ pc :: r, ks, b⟩ : Gate).count = (l ++ r).countP OpPc.isCounted +
    pc.isCounted.toNat := by
  rw [count, List.countP_append, List.countP_append, List.countP_cons, Nat.add_assoc]
  cases pc.isCounted <;> rfl

theorem Inv.enterStart (h : Inv g) : Inv { g with ops := g.ops ++ [.starting] } := by
  have hcount : ({ g with ops := g.ops ++ [.starting] } : Gate).count = g.count := by
    simp [count, OpPc.isCounted]
  refine ⟨by rw [hcount]; exact h.few, by rw [hcount]; exact h.word, h.lock, ?_, ?_⟩
  · intro hret
    simpa using h.empty hret
  · intro pc hpc hw
    rw [hcount]
    exact (h.roused pc hpc hw).imp_right fun ⟨a, ha⟩ => ⟨a, List.mem_append_left _ ha⟩

theorem Inv.countIn (h : Inv ⟨w, l ++ .starting :: r, ks, b⟩)
    (hfew : (⟨fetchAdd w, l ++ .enter w :: r, ks, b⟩ : Gate).count < dead) :
    Inv ⟨fetchAdd w, l ++ .enter w :: r, ks, b⟩ := by
  have hcount : (⟨fetchAdd w, l ++ .enter w :: r, ks, b⟩ : Gate).count =
      (⟨w, l ++ .starting :: r, ks, b⟩ : Gate).count + 1 := by
    rw [count_split, count_split]
    rfl
  have hword := h.word
  dsimp only at hword
  refine ⟨hfew, ?_, h.lock, fun hret => ?_, fun pc hpc hw => .inl (by omega)⟩
  · rw [hcount] at hfew ⊢
    exact (congrArg fetchAdd hword).trans (fetchAdd_wordOf hfew)
  · -- the mark of the kill that returned refuses the newcomer
    have hdead : isDead w = true := by
      rw [hword, isDead_wordOf h.few]
      exact List.any_eq_true.mpr ⟨.returned, hret, rfl⟩
    intro hin
    rcases mem_split (y := .starting) hin with heq | hin
    · rw [OpPc.enter, hdead] at heq
      cases heq
    · exact h.empty hret hin

theorem Inv.countOut (h : Inv ⟨w, l ++ .counted a :: r, ks, b⟩) :
    Inv ⟨fetchSub w, l ++ .drop w a :: r, ks, b⟩ := by
  have hdrop : (OpPc.drop w a).isCounted = false := by
    unfold OpPc.drop
    split <;> rfl
  have hcount : (⟨w, l ++ .counted a :: r, ks, b⟩ : Gate).count =
      (⟨fetchSub w, l ++ .drop w a :: r, ks, b⟩ : Gate).count + 1 := by
    rw [count_split, count_split, hdrop]
    rfl
  have hword : w = wordOf (ks.any KillPc.marked) _ := h.word
  have hfew := h.few
  rw [hcount] at hfew hword
  refine ⟨by omega, ?_, h.lock, fun hret hin => ?_, fun pc hpc hw => ?_⟩
  · change fetchSub w = wordOf (ks.any KillPc.marked) _
    exact (congrArg fetchSub hword).trans (fetchSub_wordOf hfew)
  · rcases mem_split (y := .counted a) hin with heq | hin
    · rw [← heq] at hdrop
      cases hdrop
    · exact h.empty hret hin
  · by_cases hz : (⟨fetchSub w, l ++ .drop w a :: r, ks, b⟩ : Gate).count = 0
    · -- the killer has set its mark, so this is the last one out of a dead gate
      have hkilled : ks.any KillPc.marked = true :=
        List.any_eq_true.mpr ⟨pc, hpc, by cases pc <;> first | rfl | cases hw⟩
      rw [hz, hkilled] at hword
      have hlast := (wordOf_eq_last (by decide)).mpr ⟨rfl, rfl⟩
      refine .inr ⟨a, ?_⟩
      simp [OpPc.drop, hword, hlast]
    · exact .inl hz

theorem Inv.wake (h : Inv ⟨w, l ++ .waking a :: r, ks, false⟩) :
    Inv ⟨w, l ++ .left a :: r, ks.map .wake, false⟩ := by
  have hcount : (⟨w, l ++ .left a :: r, ks.map .wake, false⟩ : Gate).count =
      (⟨w, l ++ .waking a :: r, ks, false⟩ : Gate).count := by
    rw [count_split, count_split]
    rfl
  have hlocked : ∀ pc : KillPc, pc.wake.locked = pc.locked := by intro pc; cases pc <;> rfl
  have hmarked : ∀ pc : KillPc, pc.wake.marked = pc.marked := by intro pc; cases pc <;> rfl
  have hkilled : (⟨w, l ++ .left a :: r, ks.map .wake, false⟩ : Gate).killed =
      (⟨w, l ++ .waking a :: r, ks, false⟩ : Gate).killed := by
    simp [killed, List.any_map, Function.comp_def, hmarked]
  refine ⟨by rw [hcount]; exact h.few, by rw [hcount, hkilled]; exact h.word, ?_,
    fun hret hin => ?_, fun pc hpc hw => ?_⟩
  · have hlock := h.lock
    simp only [List.countP_map, Function.comp_def, hlocked] at hlock ⊢
    exact hlock
  · obtain ⟨pc, hpc, heq⟩ := List.mem_map.mp hret
    have hret' : pc = .returned := by
      cases pc <;> first | rfl | cases heq
    rcases mem_split (y := .waking a) hin with heq' | hin
    · cases heq'
    · exact h.empty (hret' ▸ hpc) hin
  · -- nobody sleeps, and nobody holds the lock on the way to the queue
    obtain ⟨pc', hpc', rfl⟩ := List.mem_map.mp hpc
    have hlock := List.countP_eq_zero.mp h.lock pc' hpc'
    cases pc' with
    | queuing => exact absurd rfl hlock
    | marking | hooking | checking | sleepy | looking | asleep | returned => cases hw

theorem Inv.killMove {pc pc' : KillPc} {b' : Bool} (h : Inv ⟨w, os, kl ++ pc :: kr, b⟩)
    (hmark : pc.marked = true) (hmark' : pc'.marked = true)
    (hlock : (if b' then 1 else 0) + (if pc.locked then 1 else 0) =
      (if b then 1 else 0) + if pc'.locked then 1 else 0)
    (hret : pc' = .returned → .counted true ∉ os)
    (hwait : pc'.waits = true →
      (⟨w, os, kl ++ pc :: kr, b⟩ : Gate).count ≠ 0 ∨ ∃ a, OpPc.waking a ∈ os) :
    Inv ⟨w, os, kl ++ pc' :: kr, b'⟩ := by
  have hkilled : (⟨w, os, kl ++ pc' :: kr, b'⟩ : Gate).killed =
      (⟨w, os, kl ++ pc :: kr, b⟩ : Gate).killed := by
    simp [killed, hmark, hmark']
  refine ⟨h.few, by rw [hkilled]; exact h.word, ?_, fun hin => ?_, fun x hx hw => ?_⟩
  · have hold := h.lock
    simp only [List.countP_append, List.countP_cons] at hold ⊢
    omega
  · rcases mem_split (y := pc) hin with heq | hin
    · exact hret heq.symm
    · exact h.empty hin
  · rcases mem_split (y := pc) hx with rfl | hx
    · exact hwait hw
    · exact h.roused x hx hw

theorem Inv.killStart (h : Inv g) : Inv { g with kills := g.kills ++ [.marking] } := by
  have hkilled : ({ g with kills := g.kills ++ [.marking] } : Gate).killed = g.killed := by
    simp [killed, KillPc.marked]
  refine ⟨h.few, by rw [hkilled]; exact h.word, ?_, fun hret => ?_, fun pc hpc hw => ?_⟩
  · rw [List.countP_append, h.lock]
    rfl
  · rcases List.mem_append.mp hret with hret | hret
    · exact h.empty hret
    · simp at hret
  · rcases List.mem_append.mp hpc with hpc | hpc
    · exact h.roused pc hpc hw
    · rw [List.mem_singleton.mp hpc] at hw
      cases hw

theorem Inv.mark (h : Inv ⟨w, os, kl ++ .marking :: kr, b⟩) :
    Inv ⟨w ||| dead, os, kl ++ .hooking :: kr, b⟩ := by
  have hword := h.word
  dsimp only at hword
  have hkilled : (⟨w ||| dead, os, kl ++ .hooking :: kr, b⟩ : Gate).killed = true := by
    simp [killed, KillPc.marked]
  refine ⟨h.few, ?_, ?_, fun hin => ?_, fun pc hpc hw => ?_⟩
  · dsimp only
    rw [hkilled, hword, wordOf_or_dead h.few]
    rfl
  · have hold := h.lock
    simp only [List.countP_append, List.countP_cons] at hold ⊢
    exact hold
  · rcases mem_split (y := .marking) hin with heq | hin
    · cases heq
    · exact h.empty hin
  · rcases mem_split (y := .marking) hpc with rfl | hpc
    · cases hw
    · exact h.roused pc hpc hw

theorem Inv.step (h : Inv g) (hs : Step g g') (hfew : g'.count < dead) : Inv g' := by
  cases hs with
  | enterStart => exact h.enterStart
  | countIn w l r ks b => exact h.countIn hfew
  | countOut w l r a ks b => exact h.countOut
  | wake w l r a ks => exact h.wake
  | killStart => exact h.killStart
  | mark w os l r b => exact h.mark
  | hook w os l r b => exact h.killMove rfl rfl rfl nofun nofun
  | check w os l r b =>
    have hword : inside w = (⟨w, os, l ++ .checking :: r, b⟩ : Gate).count := by
      rw [← inside_wordOf h.few, ← h.word]
    unfold KillPc.check at *
    split
    · refine h.killMove rfl rfl rfl (fun _ hin => ?_) nofun
      have hnone := List.countP_eq_zero.mp (hword.symm.trans ‹_›)
      exact absurd rfl (hnone _ hin)
    · exact h.killMove rfl rfl rfl nofun nofun
  | spin w os l r b | lock w os l r => exact h.killMove rfl rfl rfl nofun nofun
  | look w os l r =>
    have hword : inside w = (⟨w, os, l ++ .looking :: r, true⟩ : Gate).count := by
      rw [← inside_wordOf h.few, ← h.word]
    unfold KillPc.look at *
    split
    · exact h.killMove rfl rfl rfl nofun nofun
    · exact h.killMove rfl rfl rfl nofun fun _ => .inl (hword ▸ ‹_›)
  | queue w os l r =>
    refine h.killMove rfl rfl rfl nofun fun _ => ?_
    exact h.roused .queuing (by simp) rfl
  | deadline w os l r b => exact h.killMove rfl rfl rfl nofun nofun

theorem Inv.reach (h : Inv g) (hr : Reach g g') : Inv g' := by
  induction hr with
  | refl => exact h
  | tail _ hstep ih => exact ih.step hstep.1 hstep.2

theorem getElem?_split {α : Type} {x y z : α} {l r : List α} {i : Nat}
    (h : (l ++ y :: r)[i]? = some z) :
    z = y ∧ (l ++ x :: r)[i]? = some x ∨ (l ++ x :: r)[i]? = some z := by
  rcases Nat.lt_trichotomy i l.length with hlt | rfl | hgt
  · rw [List.getElem?_append_left hlt] at h ⊢
    exact .inr h
  · simp only [List.getElem?_append_right (Nat.le_refl _), Nat.sub_self, List.getElem?_cons_zero,
      Option.some.injEq] at h ⊢
    exact .inl ⟨h.symm, trivial⟩
  · obtain ⟨k, hk⟩ : ∃ k, i - l.length = k + 1 := ⟨i - l.length - 1, by omega⟩
    rw [List.getElem?_append_right (by omega), hk, List.getElem?_cons_succ] at h ⊢
    exact .inr h

theorem killed_step (hk : g.killed = true) (hs : Step g g') : g'.killed = true := by
  have hmoved : ∀ {l r : List KillPc} {pc : KillPc}, pc.marked = true →
      (l ++ pc :: r).any KillPc.marked = true := by
    intro l r pc h
    exact List.any_eq_true.mpr ⟨pc, by simp, h⟩
  cases hs with
  | enterStart => exact hk
  | countIn w l r ks b | countOut w l r a ks b =>
    change ks.any KillPc.marked = true at hk
    exact hk
  | wake w l r a ks =>
    obtain ⟨pc, hpc, hmark⟩ := List.any_eq_true.mp hk
    refine List.any_eq_true.mpr ⟨pc.wake, List.mem_map_of_mem hpc, ?_⟩
    cases pc <;> first | rfl | cases hmark
  | killStart => exact List.any_append.trans (by rw [show g.kills.any _ = true from hk]; rfl)
  | mark | hook | spin | lock | queue | deadline => exact hmoved rfl
  | check w os l r b =>
    refine hmoved ?_
    unfold KillPc.check
    split <;> rfl
  | look w os l r =>
    refine hmoved ?_
    unfold KillPc.look
    split <;> rfl

theorem Inv.admitted_step (h : Inv g) (hk : g.killed = true) (hs : Step g g') {i : Nat} {pc : OpPc}
    (hpc : g'.ops[i]? = some pc) (ha : pc.admitted = true) :
    ∃ pc', g.ops[i]? = some pc' ∧ pc'.admitted = true := by
  have hmoved : ∀ {l r : List OpPc} {x y : OpPc}, (y.admitted = true → x.admitted = true) →
      (l ++ y :: r)[i]? = some pc → ∃ pc', (l ++ x :: r)[i]? = some pc' ∧ pc'.admitted = true := by
    intro l r x y hxy hy
    rcases getElem?_split (x := x) hy with ⟨rfl, hx⟩ | hx
    · exact ⟨x, hx, hxy ha⟩
    · exact ⟨pc, hx, ha⟩
  cases hs with
  | enterStart =>
    rw [List.getElem?_append] at hpc
    split at hpc
    · exact ⟨pc, hpc, ha⟩
    · obtain rfl := List.mem_singleton.mp (List.mem_of_getElem? hpc)
      cases ha
  | countIn w l r ks b =>
    refine hmoved (fun henter => ?_) hpc
    have hdead : isDead w = true := by
      rw [show w = _ from h.word, isDead_wordOf h.few]
      exact hk
    rw [OpPc.enter, OpPc.admitted, hdead] at henter
    cases henter
  | countOut w l r a ks b =>
    refine hmoved (fun hdrop => ?_) hpc
    unfold OpPc.drop at hdrop
    split at hdrop <;> exact hdrop
  | wake w l r a ks => exact hmoved (x := .waking a) (y := .left a) id hpc
  | killStart | mark | hook | check | spin | lock | look | queue | deadline => exact ⟨pc, hpc, ha⟩

theorem Inv.admitted_reach (h : Inv g) (hk : g.killed = true) (hr : Reach g g') {i : Nat}
    {pc : OpPc} (hpc : g'.ops[i]? = some pc) (ha : pc.admitted = true) :
    ∃ pc', g.ops[i]? = some pc' ∧ pc'.admitted = true := by
  have hkept : ∀ {g'}, Reach g g' → g'.killed = true := by
    intro g' hr
    induction hr with
    | refl => exact hk
    | tail _ hstep ih => exact killed_step ih hstep.1
  induction hr generalizing pc with
  | refl => exact ⟨pc, hpc, ha⟩
  | tail hr hstep ih =>
    obtain ⟨pc', hpc', ha'⟩ := (h.reach hr).admitted_step (hkept hr) hstep.1 hpc ha
    exact ih hpc' ha'

theorem Inv.last_out (h : Inv g) (hk : g.killed = true) (hs : Step g g') (hone : g.count = 1)
    (hzero : g'.count = 0) :
    ∃ (i : Nat) (a : Bool), g.ops[i]? = some (.counted a) ∧ g'.ops[i]? = some (.waking a) := by
  have hword := h.word
  rw [hk, hone] at hword
  cases hs with
  | countOut w l r a ks b =>
    have hlast : w = dead ||| 1 := hword.trans ((wordOf_eq_last (by decide)).mpr ⟨rfl, rfl⟩)
    refine ⟨l.length, a, by simp, ?_⟩
    simp [OpPc.drop, hlast]
  | enterStart =>
    rw [count, List.countP_append] at hzero
    exact absurd hone (by rw [count]; omega)
  | countIn w l r ks b =>
    rw [count_split] at hone hzero
    have hstart : OpPc.starting.isCounted.toNat = 0 := rfl
    omega
  | wake w l r a ks =>
    rw [count_split] at hone hzero
    exact absurd (hone.symm.trans hzero) nofun
  | killStart | mark | hook | check | spin | lock | look | queue | deadline =>
    exact absurd (hone.symm.trans hzero) nofun

/-- In every interleaving: once a kill has set its mark no operation is let in any more; when a
kill has returned no operation that was let in is inside; whoever takes the count of a dead gate
from one to zero wakes the killers next; and a killer sleeps only while an operation is inside or a
wake is to come. -/
theorem gate_runs (h : Reach Gate.new g) :
    (∀ g', g.killed = true → Reach g g' → ∀ (i : Nat) (pc : OpPc), g'.ops[i]? = some pc →
      pc.admitted = true → ∃ pc', g.ops[i]? = some pc' ∧ pc'.admitted = true) ∧
    (.returned ∈ g.kills → .counted true ∉ g.ops) ∧
    (∀ g', g.killed = true → Step g g' → g.count = 1 → g'.count = 0 →
      ∃ (i : Nat) (a : Bool), g.ops[i]? = some (.counted a) ∧ g'.ops[i]? = some (.waking a)) ∧
    (.asleep ∈ g.kills → g.count ≠ 0 ∨ ∃ a, .waking a ∈ g.ops) := by
  have hinv := Inv.new.reach h
  refine ⟨?_, hinv.empty, ?_, fun hin => hinv.roused .asleep hin rfl⟩
  · exact fun g' hk hr i pc => hinv.admitted_reach hk hr
  · exact fun g' hk hs => hinv.last_out hk hs

/-- An operation inside, and a killer asleep until it leaves. -/
def sleeping : Gate :=
  ⟨dead + 1, [.counted true], [.asleep], false⟩

theorem reach_sleeping : Reach Gate.new sleeping := by
  have hin : (⟨0, [.starting], [], false⟩ : Gate).Step ⟨1, [.counted true], [], false⟩ :=
    .countIn 0 [] [] [] false
  have hmark : (⟨1, [.counted true], [.marking], false⟩ : Gate).Step
      ⟨dead + 1, [.counted true], [.hooking], false⟩ := .mark 1 _ [] [] false
  have hcheck : (⟨dead + 1, [.counted true], [.checking], false⟩ : Gate).Step
      ⟨dead + 1, [.counted true], [.sleepy], false⟩ := .check (dead + 1) _ [] [] false
  have hlook : (⟨dead + 1, [.counted true], [.looking], true⟩ : Gate).Step
      ⟨dead + 1, [.counted true], [.queuing], true⟩ := .look (dead + 1) _ [] []
  have hfew : ∀ w ks b, (⟨w, [.counted true], ks, b⟩ : Gate).count < dead :=
    fun _ _ _ => Nat.one_lt_two_pow (by decide)
  refine .head ⟨.enterStart _, Nat.two_pow_pos _⟩ (.head ⟨hin, hfew _ _ _⟩ ?_)
  refine .head ⟨.killStart _, hfew _ _ _⟩ (.head ⟨hmark, hfew _ _ _⟩ ?_)
  refine .head ⟨.hook _ _ [] [] _, hfew _ _ _⟩ (.head ⟨hcheck, hfew _ _ _⟩ ?_)
  refine .head ⟨.lock _ _ [] [], hfew _ _ _⟩ (.head ⟨hlook, hfew _ _ _⟩ ?_)
  exact .single ⟨.queue _ _ [] [], hfew _ _ _⟩

theorem gate_runs_sleeping : Reach Gate.new sleeping ∧
    (.asleep ∈ sleeping.kills → sleeping.count ≠ 0 ∨ ∃ a, .waking a ∈ sleeping.ops) :=
  ⟨reach_sleeping, (gate_runs reach_sleeping).2.2.2⟩

end Gate
end VibeOS.Sync
