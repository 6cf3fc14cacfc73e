import VibeOS.Block.BlockRef
import VibeOS.Lib.Table

/-!
The table of registered block devices. A device is published while it stands in a slot; a partition
is published only below a published parent, and `unpublish` takes a device out with everything
below it, deepest first. The table also owns the holder of each slot, the volume a filesystem has
built on the device. Each device carries two marks of its own: that it is published, and that it
was killed.
-/
namespace VibeOS.Block
open Lib

def maxBlockdevs : Nat := 32

namespace BlockRef

def id : BlockRef → Nat
  | .disk id _ _ => id
  | .part id _ _ _ => id

def name : BlockRef → BlockName
  | .disk _ name _ => name
  | .part _ name _ _ => name

/-- The device a partition is a window on. -/
def parent : BlockRef → Option BlockRef
  | .disk _ _ _ => none
  | .part _ _ parent _ => some parent

def same (r other : BlockRef) : Bool :=
  r.id == other.id

def depthFrom (d : Nat) : BlockRef → Nat
  | .disk _ _ _ => d
  | .part _ _ parent _ => parent.depthFrom (saturatingAdd d 1)

def depth (r : BlockRef) : Nat :=
  r.depthFrom 0

def under : BlockRef → (root : BlockRef) → Bool
  | .disk id name info, root => (disk id name info).same root
  | .part id name parent info, root => (part id name parent info).same root || parent.under root

/-- A device and its ancestors, from itself up. -/
def line : BlockRef → List BlockRef
  | .disk id name info => [.disk id name info]
  | .part id name parent info => .part id name parent info :: parent.line

def level : BlockRef → Nat
  | .disk _ _ _ => 0
  | .part _ _ parent _ => parent.level + 1

theorem mem_line_self (r : BlockRef) : r ∈ r.line := by
  cases r with
  | disk => exact List.mem_singleton_self _
  | part => exact List.mem_cons_self

theorem length_line (r : BlockRef) : r.line.length = r.level + 1 := by
  induction r with
  | disk => rfl
  | part id name parent info ih => rw [line, List.length_cons, ih, level]

theorem level_le_of_mem_line {r q : BlockRef} (h : q ∈ r.line) : q.level ≤ r.level := by
  induction r with
  | disk =>
    rw [List.mem_singleton.mp h]
  | part id name parent info ih =>
    rcases List.mem_cons.mp h with rfl | h
    · exact Nat.le_refl _
    · exact (ih h).trans (Nat.le_succ _)

theorem nodup_line (r : BlockRef) : r.line.Nodup := by
  induction r with
  | disk => exact List.nodup_singleton _
  | part id name parent info ih =>
    refine List.nodup_cons.mpr ⟨fun h => ?_, ih⟩
    exact absurd (level_le_of_mem_line h) (Nat.not_succ_le_self _)

theorem level_of_parent {r p : BlockRef} (h : r.parent = some p) : r.level = p.level + 1 := by
  cases r with
  | disk => cases h
  | part id name parent info =>
    obtain rfl := Option.some.inj h
    rfl

theorem line_of_parent {r p : BlockRef} (h : r.parent = some p) : r.line = r :: p.line := by
  cases r with
  | disk => cases h
  | part id name parent info =>
    obtain rfl := Option.some.inj h
    rfl

theorem depthFrom_eq {d : Nat} (r : BlockRef) (h : d + r.level ≤ u64Max) :
    r.depthFrom d = d + r.level := by
  induction r generalizing d with
  | disk => rfl
  | part id name parent info ih =>
    rw [level] at h ⊢
    rw [depthFrom, saturatingAdd_eq (show d + 1 ≤ u64Max by omega), ih (by omega)]
    omega

theorem under_iff_id {r root : BlockRef} :
    r.under root = true ↔ ∃ q ∈ r.line, q.id = root.id := by
  induction r with
  | disk => simp [under, line, same]
  | part id name parent info ih => simp [under, line, same, ih]

end BlockRef

/-- The slots and their holders, the two marks of every device, and the holders put aside to be
released later. -/
structure Registry (H : Type) where
  slots : Fin maxBlockdevs → Option BlockRef
  holders : Fin maxBlockdevs → Option H
  published : BlockRef → Bool
  dead : BlockRef → Bool
  deferred : List H

namespace Registry
variable {H : Type}

def new : Registry H :=
  ⟨fun _ => none, fun _ => none, fun _ => false, fun _ => false, []⟩

def findId (s : Registry H) (id : Nat) : Option (Fin maxBlockdevs) :=
  (List.finRange maxBlockdevs).find? fun i => (s.slots i).any fun r => r.id == id

/-- A slot holds a device of the same id or name. -/
def taken (s : Registry H) (dev : BlockRef) : Bool :=
  (List.finRange maxBlockdevs).any fun i =>
    (s.slots i).any fun r => r.id == dev.id || r.name == dev.name

def free (s : Registry H) : Option (Fin maxBlockdevs) :=
  (List.finRange maxBlockdevs).find? fun i => (s.slots i).isNone

def publish (dev : BlockRef) (i : Fin maxBlockdevs) (s : Registry H) : Registry H :=
  { s with
    slots := Function.update s.slots i (some dev)
    published := Function.update s.published dev true }

def insert (dev : BlockRef) : Eff (Registry H) BlockError Unit := do
  let s ← Eff.get
  Eff.require (¬ s.taken dev) .exists
  Eff.require (dev.parent.all fun p => (s.findId p.id).isSome) .gone
  let slot ← Eff.ofExcept (s.free.elim (.error .noMem) .ok)
  Eff.modify (publish dev slot)

def setHolder (dev : BlockRef) (h : H) : Eff (Registry H) BlockError Unit := do
  let s ← Eff.get
  match s.findId dev.id with
  | none => do
    Eff.modify fun s => { s with deferred := s.deferred ++ [h] }
    Eff.fail .gone
  | some i =>
    if (s.holders i).isNone then
      Eff.modify fun s => { s with holders := Function.update s.holders i (some h) }
    else do
      Eff.modify fun s => { s with deferred := s.deferred ++ [h] }
      Eff.fail .exists

/-- Take a device's holder out of its slot. -/
def takeHolder (dev : BlockRef) (s : Registry H) : Option H × Registry H :=
  match s.findId dev.id with
  | none => (none, s)
  | some i => (s.holders i, { s with holders := Function.update s.holders i none })

/-- The deepest published device at or below `dev`, with its depth. -/
def pick (s : Registry H) (dev : BlockRef) : Option (Fin maxBlockdevs × Nat) :=
  pickMax (fun i => ((s.slots i).filter fun r => r.under dev).map BlockRef.depth) none
    (List.finRange maxBlockdevs)

/-- Empty a slot that holds `r`; its holder is put aside. -/
def take (r : BlockRef) (i : Fin maxBlockdevs) (s : Registry H) : Registry H :=
  { s with
    slots := Function.update s.slots i none
    holders := Function.update s.holders i none
    published := Function.update s.published r false
    deferred := s.deferred ++ (s.holders i).toList }

/-- `n` rounds of taking the deepest device out, from the `k`th place of the output on. -/
def takeSubtree (dev : BlockRef) (outLen : Nat) :
    (n k : Nat) → Registry H → List BlockRef × Registry H
  | 0, _, s => ([], s)
  | n + 1, k, s =>
    match s.pick dev with
    | none => ([], s)
    | some (i, _) =>
      match s.slots i with
      | none => ([], s)
      | some r =>
        if k < outLen then
          let rest := takeSubtree dev outLen n (k + 1) (s.take r i)
          (r :: rest.1, rest.2)
        else ([], s.take r i)

/-- How many published devices are at or below `dev`. -/
def countUnder (s : Registry H) (dev : BlockRef) : Nat :=
  (List.finRange maxBlockdevs).countP fun i => (s.slots i).any fun r => r.under dev

/-- The handles moved into an output of `outLen` places, in order. -/
def unpublish (dev : BlockRef) (outLen : Nat) : Eff (Registry H) BlockError (List BlockRef) := do
  let s ← Eff.get
  Eff.require (s.findId dev.id).isSome .gone
  Eff.require (s.countUnder dev ≤ outLen) .inval
  let taken := takeSubtree dev outLen (s.countUnder dev) 0 s
  Eff.modify fun _ => taken.2
  return taken.1

def kill (dev : BlockRef) : Eff (Registry H) BlockError Unit := do
  let s ← Eff.get
  Eff.require (¬ s.published dev) .inval
  Eff.modify fun s => { s with dead := Function.update s.dead dev true }

inductive Call (H : Type) where
  | insert (dev : BlockRef)
  | setHolder (dev : BlockRef) (h : H)
  | takeHolder (dev : BlockRef)
  | unpublish (dev : BlockRef) (outLen : Nat)
  | kill (dev : BlockRef)

def Call.dev : Call H → BlockRef
  | .insert dev | .setHolder dev _ | .takeHolder dev | .unpublish dev _ | .kill dev => dev

def step (s : Registry H) : Call H → Registry H
  | .insert dev => (insert dev s).2
  | .setHolder dev h => (setHolder dev h s).2
  | .takeHolder dev => (takeHolder dev s).2
  | .unpublish dev outLen => (unpublish dev outLen s).2
  | .kill dev => (kill dev s).2

def run (s : Registry H) (calls : List (Call H)) : Registry H :=
  calls.foldl step s

end Registry
end VibeOS.Block
