import VibeOS.Lib.Chain
import VibeOS.Lib.Cover
import VibeOS.Lib.Heapsort

/-!
The allocator of kernel virtual ranges: first fit over a list of free ranges, threaded through a
pool of `maxRanges` nodes, with the indices of the unused nodes on a stack. A freed range goes to
the end of the list; when no node is left for it the whole list is first sorted and merged in
place. Every assertion and checked addition of the code is an explicit fault, and so is a search
of the list that does not end. `Listed` says which ranges the pool represents; taking space from a
listed node and appending a node from the stack change that list as a list of ranges would change.
-/
namespace VibeOS.Mm
open Lib

namespace Kva

def pageSize : Nat := 4096

inductive Fault where
  | overflow | bounds | misaligned | empty | notLive | noNode | spins
  deriving DecidableEq, Repr

inductive Error where
  | exhausted
  deriving DecidableEq, Repr

structure Range where
  start : Nat
  len : Nat
  deriving DecidableEq, Repr

def add64 (a b : Nat) : Except Fault Nat :=
  if a + b < 2 ^ 64 then .ok (a + b) else .error .overflow

def mul64 (a b : Nat) : Except Fault Nat :=
  if a * b < 2 ^ 64 then .ok (a * b) else .error .overflow

def asU16 (i : Nat) : Nat := i % 2 ^ 16

def sortByStart (v : Nat → Range) (n : Nat) : Nat → Range :=
  heapsort Range.start v n

/-- Live ranges handed out at most. -/
def liveCap (maxRanges : Nat) : Nat := maxRanges - 2

end Kva

structure Kva where
  nodes : Nat → Kva.Range
  next : Nat → Option Nat
  head : Option Nat
  tail : Option Nat
  slots : Nat → Nat
  nslots : Nat
  live : Nat
  used : Nat
  capacity : Nat

namespace Kva

def allocSlot (k : Kva) : Option (Nat × Kva) :=
  if k.nslots = 0 then none
  else some (k.slots (k.nslots - 1), { k with nslots := k.nslots - 1 })

def freeSlot (maxRanges : Nat) (k : Kva) (i : Nat) : Except Fault Kva :=
  if k.nslots < maxRanges then
    .ok { k with
      slots := Function.update k.slots k.nslots i
      nslots := k.nslots + 1
      nodes := Function.update k.nodes i ⟨0, 0⟩ }
  else .error .bounds

def unlink (k : Kva) (prev : Option Nat) (i : Nat) : Kva :=
  { k with
    next := unchain k.next prev i
    head := match prev with
      | some _ => k.head
      | none => k.next i
    tail := if k.tail = some i then prev else k.tail }

/-- One free range, the whole window. -/
def init (maxRanges start size : Nat) : Except Fault (Except Error Kva) :=
  if size % pageSize ≠ 0 then .error .misaligned
  else if start % pageSize ≠ 0 then .error .misaligned
  else
    let cleared : Kva :=
      { nodes := fun _ => ⟨0, 0⟩
        next := fun _ => none
        head := none
        tail := none
        slots := asU16
        nslots := maxRanges
        live := 0
        used := 0
        capacity := size }
    match cleared.allocSlot with
    | none => .ok (.error .exhausted)
    | some (i, k) =>
      .ok (.ok { k with
        nodes := Function.update k.nodes i ⟨start, size⟩
        next := Function.update k.next i none
        head := some i
        tail := some i })

/-- Hand out the front `len` bytes of node `i`, which comes after `prev` in the list. -/
def take (maxRanges : Nat) (k : Kva) (len : Nat) (prev : Option Nat) (i : Nat) :
    Except Fault (Nat × Kva) := do
  let r := k.nodes i
  let k ←
    if r.len = len then freeSlot maxRanges (k.unlink prev i) i
    else do
      let start ← add64 r.start len
      pure { k with nodes := Function.update k.nodes i ⟨start, r.len - len⟩ }
  let used ← add64 k.used len
  pure (r.start, { k with used := used, live := k.live + 1 })

def alloc (maxRanges : Nat) (k : Kva) (len : Nat) : Except Fault (Option Nat × Kva) :=
  if len = 0 ∨ len % pageSize ≠ 0 ∨ liveCap maxRanges ≤ k.live then .ok (none, k)
  else
    match searchChain k.next (fun i => decide (len ≤ (k.nodes i).len))
      (maxRanges + 1) none k.head with
    | none => .error .spins
    | some none => .ok (none, k)
    | some (some (prev, i)) => do
      let (start, k) ← take maxRanges k len prev i
      pure (some start, k)

/-- The guard page comes first in the range. -/
def allocGuarded (maxRanges : Nat) (k : Kva) (pages : Nat) : Except Fault (Option Nat × Kva) :=
  if pages = 0 then .ok (none, k)
  else do
    let count ← add64 pages 1
    let len ← mul64 count pageSize
    alloc maxRanges k len

/-- The first `r` turns of the loop that moves the listed nodes to the front: the nodes and how
many are there. -/
def compact (nodes : Nat → Range) : Nat → (Nat → Range) × Nat
  | 0 => (nodes, 0)
  | r + 1 =>
    let (v, n) := compact nodes r
    if 0 < (v r).len then (Function.update v n (v r), n + 1) else (v, n)

/-- Put `x` behind the `w` merged nodes, or onto the last of them when it starts where that one
ends. -/
def mergeOne (v : Nat → Range) (w : Nat) (x : Range) : Except Fault ((Nat → Range) × Nat) :=
  if 0 < w then do
    let prev := v (w - 1)
    let stop ← add64 prev.start prev.len
    if stop = x.start then do
      let len ← add64 prev.len x.len
      pure (Function.update v (w - 1) ⟨prev.start, len⟩, w)
    else pure (Function.update v w x, w + 1)
  else .ok (Function.update v w x, w + 1)

/-- The first `r` turns of the merging loop. -/
def mergeAdjacent (nodes : Nat → Range) : Nat → Except Fault ((Nat → Range) × Nat)
  | 0 => .ok (nodes, 0)
  | r + 1 => do
    let (v, w) ← mergeAdjacent nodes r
    mergeOne v w (v r)

/-- The pool with its first `w` nodes listed in order and the others on the stack. -/
def relist (maxRanges : Nat) (k : Kva) (v : Nat → Range) (w : Nat) : Kva :=
  { k with
    nodes := fun i => if i < w then v i else ⟨0, 0⟩
    next := fun i => if i + 1 < w then some (asU16 (i + 1)) else none
    head := if 0 < w then some 0 else none
    tail := if 0 < w then some (asU16 (w - 1)) else none
    slots := fun j => if j < maxRanges - w then asU16 (w + j) else k.slots j
    nslots := maxRanges - w }

def coalesceAll (maxRanges : Nat) (k : Kva) : Except Fault Kva := do
  let (v, n) := compact k.nodes maxRanges
  let (v, w) ← mergeAdjacent (sortByStart v n) n
  pure (relist maxRanges k v w)

/-- Append a range as node `i`, just off the stack. -/
def append (k : Kva) (i : Nat) (r : Range) : Kva :=
  { k with
    nodes := Function.update k.nodes i r
    next := chainLast k.next k.tail i
    head := match k.tail with
      | some _ => k.head
      | none => some i
    tail := some i }

def free (maxRanges : Nat) (k : Kva) (start len : Nat) : Except Fault Kva :=
  if ¬ (len % pageSize = 0 ∧ start % pageSize = 0) then .error .misaligned
  else if len = 0 then .error .empty
  else if ¬ (len ≤ k.used ∧ 0 < k.live) then .error .notLive
  else do
    let k ← if k.nslots = 0 then coalesceAll maxRanges k else pure k
    match k.allocSlot with
    | none => .error .noNode
    | some (i, k) =>
      pure { k.append i ⟨start, len⟩ with used := k.used - len, live := k.live - 1 }

variable {maxRanges len i : Nat} {k : Kva} {ids l₁ l₂ : List Nat} {r : Range}

namespace Range

def stop (r : Range) : Nat := r.start + r.len

def span (r : Range) : Nat × Nat := (r.start, r.stop)

/-- What is left of a range after its front `len` bytes. -/
def rest (r : Range) (len : Nat) : List Range :=
  if r.len = len then [] else [⟨r.start + len, r.len - len⟩]

end Range

/-- The nodes on the list, in its order. -/
def listed (maxRanges : Nat) (k : Kva) : List Nat := chainList k.next maxRanges k.head

def freeList (maxRanges : Nat) (k : Kva) : List Range := (k.listed maxRanges).map k.nodes

def spare (k : Kva) : List Nat := firstCells k.slots k.nslots

/-- The nodes `ids` are the list, and the others are spare. -/
structure Listed (maxRanges : Nat) (k : Kva) (ids : List Nat) : Prop where
  chain : Chained k.next k.head ids
  last : k.tail = ids.getLast?
  once : (ids ++ k.spare).Perm (List.range maxRanges)
  pos : ∀ i ∈ ids, 0 < (k.nodes i).len
  zero : ∀ i ∈ k.spare, (k.nodes i).len = 0

namespace Listed

section
variable (h : Listed maxRanges k ids)
include h

theorem nodup : (ids ++ k.spare).Nodup :=
  h.once.nodup_iff.mpr List.nodup_range

theorem length_add : ids.length + k.nslots = maxRanges := by
  have := h.once.length_eq
  rwa [List.length_append, spare, firstCells_length, List.length_range] at this

theorem listed_eq : k.listed maxRanges = ids :=
  h.chain.chainList_eq (by have := h.length_add; omega)

theorem freeList_eq : k.freeList maxRanges = ids.map k.nodes := by
  rw [freeList, h.listed_eq]

theorem search (len : Nat) :
    (searchChain k.next (fun i => decide (len ≤ (k.nodes i).len)) (maxRanges + 1) none k.head =
        some none ∧ ∀ i ∈ ids, (k.nodes i).len < len) ∨
      ∃ l₁ i l₂, ids = l₁ ++ i :: l₂ ∧ len ≤ (k.nodes i).len ∧
        (∀ j ∈ l₁, (k.nodes j).len < len) ∧
        searchChain k.next (fun i => decide (len ≤ (k.nodes i).len)) (maxRanges + 1) none k.head =
          some (some (l₁.getLast?, i)) := by
  have hf : ids.length < maxRanges + 1 := by
    have := h.length_add
    omega
  rcases searchChain_eq (p := fun i => decide (len ≤ (k.nodes i).len)) (q := none) h.chain hf with
    ⟨hs, hnone⟩ | ⟨l₁, i, l₂, he, hi, hl₁, hs⟩
  · exact .inl ⟨hs, fun i hi => Nat.lt_of_not_le (of_decide_eq_false (hnone i hi))⟩
  · rw [Option.or_none] at hs
    exact .inr ⟨l₁, i, l₂, he, of_decide_eq_true hi,
      fun j hj => Nat.lt_of_not_le (of_decide_eq_false (hl₁ j hj)), hs⟩

theorem append (hn : k.nslots ≠ 0) (hr : 0 < r.len) :
    ∃ i k', k.allocSlot = some (i, k') ∧ k'.used = k.used ∧ k'.live = k.live ∧
      k'.capacity = k.capacity ∧ Listed maxRanges (k'.append i r) (ids ++ [i]) ∧
      (ids ++ [i]).map (k'.append i r).nodes = ids.map k.nodes ++ [r] := by
  obtain ⟨n, hn'⟩ := Nat.exists_eq_succ_of_ne_zero hn
  have hspare : k.spare = firstCells k.slots n ++ [k.slots n] := by
    rw [spare, hn', Nat.succ_eq_add_one, firstCells_succ]
  obtain ⟨hnd, hnds, hapart⟩ := List.nodup_append.mp h.nodup
  have hi : k.slots n ∉ ids := by
    intro hm
    exact hapart _ hm (k.slots n) (by simp [hspare]) rfl
  have hcells : k.slots n ∉ firstCells k.slots n := by
    rw [hspare] at hnds
    intro hm
    exact (List.nodup_append.mp hnds).2.2 _ hm _ (List.mem_singleton_self _) rfl
  have hmap : ids.map (Function.update k.nodes (k.slots n) r) = ids.map k.nodes :=
    List.map_congr_left fun j hj => Function.update_of_ne (ne_of_mem_of_not_mem hj hi) ..
  refine ⟨k.slots n, { k with nslots := n }, ?_, rfl, rfl, rfl, ⟨?_, ?_, ?_, fun j hj => ?_,
    fun j hj => ?_⟩, ?_⟩
  · rw [allocSlot, if_neg hn, hn']
    rfl
  · have hchain := h.chain.chainLast hnd hi
    rw [← h.last] at hchain
    have hempty : ids = [] ↔ k.tail = none := by
      rw [h.last, List.getLast?_eq_none_iff]
    cases ht : k.tail with
    | none =>
      rw [if_pos (hempty.mpr ht), ht] at hchain
      simpa only [Kva.append, ht] using hchain
    | some t =>
      rw [if_neg fun he => by simp [hempty.mp he] at ht, ht] at hchain
      simpa only [Kva.append, ht] using hchain
  · exact (List.getLast?_concat ..).symm
  · refine .trans ?_ h.once
    change (ids ++ [k.slots n] ++ firstCells k.slots n).Perm _
    rw [hspare, List.append_assoc]
    exact List.perm_append_comm.append_left ids
  · change 0 < (Function.update k.nodes (k.slots n) r j).len
    by_cases he : j = k.slots n
    · rw [he, Function.update_self]
      exact hr
    · rw [Function.update_of_ne he]
      exact h.pos j ((List.mem_append.mp hj).resolve_right (by simpa using he))
  · change (Function.update k.nodes (k.slots n) r j).len = 0
    have hj' : j ∈ firstCells k.slots n := hj
    have hne : j ≠ k.slots n := fun e => hcells (e ▸ hj')
    rw [Function.update_of_ne hne]
    exact h.zero j (by rw [hspare]; exact List.mem_append_left _ hj')
  · change (ids ++ [k.slots n]).map (Function.update k.nodes (k.slots n) r) = _
    rw [List.map_append, hmap, List.map_singleton, Function.update_self]

end

variable (h : Listed maxRanges k (l₁ ++ i :: l₂))
include h

theorem freeSlot_unlink :
    ∃ k', freeSlot maxRanges (k.unlink l₁.getLast? i) i = .ok k' ∧
      Listed maxRanges k' (l₁ ++ l₂) ∧ (l₁ ++ l₂).map k'.nodes = (l₁ ++ l₂).map k.nodes ∧
      k'.used = k.used ∧ k'.live = k.live ∧ k'.capacity = k.capacity := by
  have hslots : k.nslots < maxRanges := by
    have := h.length_add
    rw [List.length_append, List.length_cons] at this
    omega
  have hnd := (List.nodup_append.mp h.nodup).1
  have hmid : i ∉ l₁ ++ l₂ := (List.nodup_cons.mp (List.nodup_middle.mp hnd)).1
  have hi : ∀ j ∈ l₁ ++ l₂, j ≠ i := fun j hj e => hmid (e ▸ hj)
  have hsub : ∀ j ∈ l₁ ++ l₂, j ∈ l₁ ++ i :: l₂ := by
    intro j hj
    rw [List.mem_append] at hj ⊢
    exact hj.imp_right (List.mem_cons_of_mem _)
  have hspare : ∀ k' : Kva, k'.slots = Function.update k.slots k.nslots i →
      k'.nslots = k.nslots + 1 → k'.spare = k.spare ++ [i] := by
    intro k' hs hn
    rw [spare, hs, hn, firstCells_push, spare]
  refine ⟨_, if_pos hslots, ⟨?_, ?_, ?_, fun j hj => ?_, fun j hj => ?_⟩, ?_, rfl, rfl, rfl⟩
  · have hchain := h.chain.unchain hnd
    cases l₁ with
    | nil => exact hchain
    | cons y l₁ =>
      rw [List.getLast?_cons] at hchain ⊢
      exact hchain
  · change (if k.tail = some i then l₁.getLast? else k.tail) = _
    rw [h.last]
    cases l₂ with
    | nil => simp
    | cons y l₂ =>
      have hlast : (l₁ ++ i :: y :: l₂).getLast? = (l₁ ++ y :: l₂).getLast? := by
        simp [List.getLast?_append, List.getLast?_cons]
      rw [hlast, if_neg fun he => hmid (List.mem_of_getLast? he)]
  · rw [hspare _ rfl rfl]
    have hfront : (l₁ ++ l₂ ++ (k.spare ++ [i])).Perm (i :: (l₁ ++ l₂) ++ k.spare) := by
      rw [← List.append_assoc]
      exact List.perm_append_singleton i _
    exact (hfront.trans (List.perm_middle.symm.append_right _)).trans h.once
  · change 0 < (Function.update k.nodes i ⟨0, 0⟩ j).len
    rw [Function.update_of_ne (hi j hj)]
    exact h.pos j (hsub j hj)
  · rw [hspare _ rfl rfl, List.mem_append, List.mem_singleton] at hj
    change (Function.update k.nodes i ⟨0, 0⟩ j).len = 0
    by_cases he : j = i
    · rw [he, Function.update_self]
    · rw [Function.update_of_ne he]
      exact h.zero j (hj.resolve_right he)
  · exact List.map_congr_left fun j hj => Function.update_of_ne (hi j hj) ..

theorem shrink (hr : 0 < r.len) :
    Listed maxRanges { k with nodes := Function.update k.nodes i r } (l₁ ++ i :: l₂) ∧
      (l₁ ++ i :: l₂).map (Function.update k.nodes i r) =
        l₁.map k.nodes ++ r :: l₂.map k.nodes := by
  obtain ⟨hnd, -, hapart⟩ := List.nodup_append.mp h.nodup
  have hmid : i ∉ l₁ ++ l₂ := (List.nodup_cons.mp (List.nodup_middle.mp hnd)).1
  rw [List.mem_append, not_or] at hmid
  have hsame : ∀ l : List Nat, i ∉ l → l.map (Function.update k.nodes i r) = l.map k.nodes :=
    fun l hl =>
    List.map_congr_left fun j hj => Function.update_of_ne (ne_of_mem_of_not_mem hj hl) ..
  refine ⟨⟨h.chain, h.last, h.once, fun j hj => ?_, fun j hj => ?_⟩, ?_⟩
  · change 0 < (Function.update k.nodes i r j).len
    by_cases he : j = i
    · rw [he, Function.update_self]
      exact hr
    · rw [Function.update_of_ne he]
      exact h.pos j hj
  · change (Function.update k.nodes i r j).len = 0
    have hne : j ≠ i := fun e => hapart i (by simp) j hj e.symm
    rw [Function.update_of_ne hne]
    exact h.zero j hj
  · rw [List.map_append, List.map_cons, hsame l₁ hmid.1, hsame l₂ hmid.2, Function.update_self]

theorem take (hlen : len ≤ (k.nodes i).len) (hstop : (k.nodes i).stop ≤ 2 ^ 64)
    (hused : k.used + len < 2 ^ 64) :
    ∃ k' ids', take maxRanges k len l₁.getLast? i = .ok ((k.nodes i).start, k') ∧
      Listed maxRanges k' ids' ∧
      ids'.map k'.nodes = l₁.map k.nodes ++ ((k.nodes i).rest len ++ l₂.map k.nodes) ∧
      k'.used = k.used + len ∧ k'.live = k.live + 1 ∧ k'.capacity = k.capacity := by
  by_cases he : (k.nodes i).len = len
  · obtain ⟨k', hk', hl, hmap, hu, hlive, hcap⟩ := h.freeSlot_unlink
    have hu' : add64 k'.used len = .ok (k.used + len) := by
      rw [hu]
      exact if_pos hused
    refine ⟨{ k' with used := k.used + len, live := k'.live + 1 }, l₁ ++ l₂, ?_,
      ⟨hl.chain, hl.last, hl.once, hl.pos, hl.zero⟩, ?_, rfl, congrArg Nat.succ hlive, hcap⟩
    · simp only [Kva.take, if_pos he, hk', bind, Except.bind, hu', pure, Except.pure]
    · rw [Range.rest, if_pos he, List.nil_append, ← List.map_append]
      exact hmap
  · have hlt : len < (k.nodes i).len := Nat.lt_of_le_of_ne hlen fun e => he e.symm
    have hstart : add64 (k.nodes i).start len = .ok ((k.nodes i).start + len) := by
      refine if_pos (Nat.lt_of_lt_of_le ?_ hstop)
      exact Nat.add_lt_add_left hlt _
    have hu' : add64 k.used len = .ok (k.used + len) := if_pos hused
    obtain ⟨hl, hmap⟩ := h.shrink (r := ⟨(k.nodes i).start + len, (k.nodes i).len - len⟩)
      (Nat.sub_pos_of_lt hlt)
    refine ⟨{ k with
        nodes := Function.update k.nodes i ⟨(k.nodes i).start + len, (k.nodes i).len - len⟩
        used := k.used + len
        live := k.live + 1 }, l₁ ++ i :: l₂, ?_, ⟨hl.chain, hl.last, hl.once, hl.pos, hl.zero⟩, ?_,
      rfl, rfl, rfl⟩
    · simp only [Kva.take, if_neg he, hstart, bind, Except.bind, hu', pure, Except.pure]
    · rw [Range.rest, if_neg he]
      exact hmap

end Listed
end Kva
end VibeOS.Mm
