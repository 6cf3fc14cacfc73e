import VibeOS.Lib.Bytes
import VibeOS.Process.AddrSpace

/-!
The arguments of an `execve` and the initial stack they go on, with the reader that a program's
start code is. Strings are collected in one block, each with its NUL; `grow` says which lengths the
block's buffer can grow to. The addresses of the strings are found again by a scan of the block for
NULs. A string is accepted, in whatever parts it comes, exactly when it is short enough and fits the
limit with those before it.
-/
namespace VibeOS.Process
open Lib

def maxArgStrlen : Nat := 131072

def atNull : Nat := 0
def atRandom : Nat := 25

structure Auxv where
  tag : Nat
  val : Nat
  deriving DecidableEq, Repr

inductive ArgError where
  | tooBig | noMem
  deriving DecidableEq, Repr

/-- A call of the collection: a string that comes in parts, or the end of `argv`. -/
inductive ArgOp where
  | string (env : Bool) (parts : List (List UInt8))
  | finishArgv

structure ExecArgs where
  strings : List UInt8
  argc : Nat
  envc : Nat
  used : Nat
  limit : Nat
  cur : Option Nat
  curEnv : Bool
  argvDone : Bool

namespace ExecArgs

def new (limit : Nat) : ExecArgs := ⟨[], 0, 0, 0, limit, none, false, false⟩

def charge (a : ExecArgs) (n : Nat) : Except ArgError Nat :=
  match (checkedAdd a.used n).filter fun u => u ≤ a.limit with
  | some u => .ok u
  | none => .error .tooBig

def begin (a : ExecArgs) (env : Bool) : Except ArgError ExecArgs :=
  (a.charge 8).map fun used => { a with used, cur := some 0, curEnv := env }

def extend (grow : Nat → Bool) (a : ExecArgs) (part : List UInt8) : Except ArgError ExecArgs :=
  match (checkedAdd (a.cur.getD 0) part.length).filter fun l => l < maxArgStrlen with
  | none => .error .tooBig
  | some len =>
    match a.charge part.length with
    | .error e => .error e
    | .ok used =>
      if grow (a.strings.length + part.length) then
        .ok { a with strings := a.strings ++ part, used, cur := some len }
      else .error .noMem

def finish (grow : Nat → Bool) (a : ExecArgs) : Except ArgError ExecArgs :=
  match a.charge 1 with
  | .error e => .error e
  | .ok used =>
    if grow (a.strings.length + 1) then
      .ok { a with
        strings := a.strings ++ [0], used, cur := none
        argc := if a.curEnv then a.argc else saturatingAdd a.argc 1
        envc := if a.curEnv then saturatingAdd a.envc 1 else a.envc }
    else .error .noMem

/-- A string that comes in parts: `begin`, an `extend` for each, and `end`. -/
def pushParts (grow : Nat → Bool) (a : ExecArgs) (env : Bool) (parts : List (List UInt8)) :
    Except ArgError ExecArgs :=
  (a.begin env).bind fun a => (parts.foldlM (extend grow) a).bind (finish grow)

def push (grow : Nat → Bool) (a : ExecArgs) (env : Bool) (s : List UInt8) :
    Except ArgError ExecArgs :=
  (a.begin env).bind fun a => (extend grow a s).bind (finish grow)

def pushArg (grow : Nat → Bool) (a : ExecArgs) (s : List UInt8) :
    Except ArgError ExecArgs := a.push grow false s

def pushEnv (grow : Nat → Bool) (a : ExecArgs) (s : List UInt8) :
    Except ArgError ExecArgs := a.push grow true s

def finishArgv (grow : Nat → Bool) (a : ExecArgs) : Except ArgError ExecArgs :=
  (if a.argc = 0 then a.pushArg grow [] else .ok a).map fun a => { a with argvDone := true }

def call (grow : Nat → Bool) (a : ExecArgs) : ArgOp → Except ArgError ExecArgs
  | .string env parts => a.pushParts grow env parts
  | .finishArgv => a.finishArgv grow

/-- The block of an `execve`. -/
def collect (grow : Nat → Bool) (limit : Nat) (argv envp : List (List UInt8)) :
    Except ArgError ExecArgs :=
  (argv.foldlM (pushArg grow) (new limit)).bind fun a =>
    (a.finishArgv grow).bind fun a => envp.foldlM (pushEnv grow) a

end ExecArgs

structure StackImage where
  rsp : Nat
  stringsVa : Nat

def checkedSub (a b : Nat) : Option Nat := if b ≤ a then some (a - b) else none

def tableWords (args : ExecArgs) (naux : Nat) : Option Nat := do
  let ptrs ← checkedAdd args.argc args.envc
  let ptrs ← checkedAdd ptrs 3
  let aux ← checkedAdd naux 2
  let aux ← checkedMul aux 2
  checkedAdd aux ptrs

def align16 (x : Nat) : Option Nat := (checkedAdd x 15).map fun y => y - y % 16

/-- The layout as offsets down from the top: the strings, the random bytes and the stack pointer. -/
def stackOffsets (args : ExecArgs) (naux : Nat) : Option (Nat × Nat × Nat) := do
  let strings ← checkedAdd args.strings.length 8
  let random ← checkedAdd strings 16
  let random ← align16 random
  let table ← tableWords args naux
  let table ← checkedMul table 8
  let rsp ← checkedAdd random table
  let rsp ← align16 rsp
  some (strings, random, rsp)

def initialStackLen (args : ExecArgs) (naux : Nat) :
    Option Nat := (stackOffsets args naux).map fun t => t.2.2

/-- Bytes copied over a part of a buffer. -/
def splice (t : List UInt8) (o : Nat) (l : List UInt8) : Option (List UInt8) :=
  if o + l.length ≤ t.length then some (t.take o ++ l ++ t.drop (o + l.length)) else none

def pokeU64 (s : List UInt8 × Nat) (v : Nat) : Option (List UInt8 × Nat) := do
  let e ← checkedAdd s.2 8
  let t ← splice s.1 s.2 (leBytes 8 v)
  some (t, e)

/-- The loop over the bytes of the strings from index `i` on; `start` is where the present string
began and `n` how many have ended. -/
def pokePtrs (stringsVa argc : Nat) :
    List UInt8 → Nat → Nat → Nat → List UInt8 × Nat → Option (Nat × (List UInt8 × Nat))
  | [], _, _, n, s => some (n, s)
  | b :: bs, i, start, n, s =>
    if b ≠ 0 then pokePtrs stringsVa argc bs (i + 1) start n s
    else do
      let va ← checkedAdd stringsVa start
      let s ← pokeU64 s va
      let n ← checkedAdd n 1
      let s ← if n = argc then pokeU64 s 0 else some s
      let start ← checkedAdd i 1
      pokePtrs stringsVa argc bs (i + 1) start n s

def pokeAux (s : List UInt8 × Nat) (aux : List Auxv) : Option (List UInt8 × Nat) :=
  aux.foldlM (fun s a => (pokeU64 s a.tag).bind fun s => pokeU64 s a.val) s

/-- The table for a buffer, and where it goes. -/
def build (stackTop : Nat) (args : ExecArgs) (aux : List Auxv) (random table : List UInt8) :
    Option (StackImage × List UInt8) :=
  if stackTop % 16 ≠ 0 then none
  else do
    let (stringsOff, randomOff, rspOff) ← stackOffsets args aux.length
    let stringsVa ← checkedSub stackTop stringsOff
    let randomVa ← checkedSub stackTop randomOff
    let rsp ← checkedSub stackTop rspOff
    let tableLen ← checkedSub rspOff stringsOff
    if table.length ≠ tableLen then none
    else do
      let r ← checkedSub rspOff randomOff
      let t ← splice (List.replicate tableLen 0) r random
      let s ← pokeU64 (t, 0) args.argc
      let s ← if args.argc = 0 then pokeU64 s 0 else some s
      let (n, s) ← pokePtrs stringsVa args.argc args.strings 0 0 0 s
      let all ← checkedAdd args.argc args.envc
      if n ≠ all then none
      else do
        let s ← pokeU64 s 0
        let s ← pokeAux s aux
        let s ← pokeU64 s atRandom
        let s ← pokeU64 s randomVa
        let s ← pokeU64 s atNull
        let s ← pokeU64 s 0
        some (⟨rsp, stringsVa⟩, s.1)

structure Start where
  argc : Nat
  argv : List (List UInt8)
  envp : List (List UInt8)
  auxv : List Auxv
  deriving DecidableEq, Repr

namespace Start
variable (m : Memory)

/-- Pointers up to a NULL, and the address after it. -/
def readPtrs : Nat → Nat → Option (List Nat × Nat)
  | 0, _ => none
  | fuel + 1, a =>
    if m.readLE 8 a = 0 then some ([], a + 8)
    else (readPtrs fuel (a + 8)).map fun r => (m.readLE 8 a :: r.1, r.2)

def readStr : Nat → Nat → Option (List UInt8)
  | 0, _ => none
  | fuel + 1, a => if m a = 0 then some [] else (readStr fuel (a + 1)).map (m a :: ·)

/-- Pairs up to one of tag `AT_NULL`. -/
def readAux : Nat → Nat → Option (List Auxv)
  | 0, _ => none
  | fuel + 1, a =>
    if m.readLE 8 a = atNull then some []
    else (readAux fuel (a + 16)).map (⟨m.readLE 8 a, m.readLE 8 (a + 8)⟩ :: ·)

/-- The start code: `argc`, the `argv` and `envp` strings and the auxiliary vector. -/
def read (fuel rsp : Nat) : Option Start := do
  let (argv, a) ← readPtrs m fuel (rsp + 8)
  let argv ← argv.mapM (readStr m fuel)
  let (envp, a) ← readPtrs m fuel a
  let envp ← envp.mapM (readStr m fuel)
  let auxv ← readAux m fuel a
  some ⟨m.readLE 8 rsp, argv, envp, auxv⟩

end Start

/-- Strings as a block keeps them. -/
def block (ss : List (List UInt8)) : List UInt8 := ss.flatMap fun s => s ++ [0]

/-- What strings count against the limit: their bytes, a NUL and a pointer each. -/
def cost (ss : List (List UInt8)) : Nat := (ss.map fun s => s.length + 9).sum

/-- The strings after one more call, each with whether it is one of `envp`. The end of an `argv`
without strings adds an empty one. -/
def collected (ss : List (Bool × List UInt8)) : ArgOp → List (Bool × List UInt8)
  | .string env parts => ss ++ [(env, parts.flatten)]
  | .finishArgv => if ss.all (·.1) then ss ++ [(false, [])] else ss

theorem cost_cons (s : List UInt8) (ss : List (List UInt8)) :
    cost (s :: ss) = s.length + 9 + cost ss := by
  rw [cost, List.map_cons, List.sum_cons]
  rfl

theorem cost_append (ss ss' : List (List UInt8)) : cost (ss ++ ss') = cost ss + cost ss' := by
  rw [cost, List.map_append, List.sum_append]
  rfl

theorem length_le_cost (ss : List (List UInt8)) : 9 * ss.length ≤ cost ss := by
  induction ss with
  | nil => exact Nat.zero_le _
  | cons s ss ih =>
    rw [cost_cons, List.length_cons]
    omega

theorem block_append (ss ss' : List (List UInt8)) : block (ss ++ ss') = block ss ++ block ss' :=
  List.flatMap_append

theorem checkedAdd_filter (p : Nat → Bool) (hp : ∀ x, p x = true → x < 2 ^ 64) (a b : Nat) :
    (checkedAdd a b).filter p = if p (a + b) then some (a + b) else none := by
  unfold checkedAdd
  by_cases hlt : a + b < 2 ^ 64
  · rw [if_pos hlt, Option.filter_some]
  · rw [if_neg hlt, Option.filter_none, if_neg fun h => hlt (hp _ h)]

namespace ExecArgs
variable {grow : Nat → Bool} {a : ExecArgs}

def added (a : ExecArgs) (env : Bool) (s : List UInt8) : ExecArgs :=
  { a with
    strings := a.strings ++ (s ++ [0]), used := a.used + (s.length + 9), cur := none, curEnv := env
    argc := if env then a.argc else saturatingAdd a.argc 1
    envc := if env then saturatingAdd a.envc 1 else a.envc }

section
variable (hlimit : a.limit < 2 ^ 64)
include hlimit

theorem charge_eq (n : Nat) :
    a.charge n = if a.used + n ≤ a.limit then .ok (a.used + n) else .error .tooBig := by
  unfold charge
  rw [checkedAdd_filter _ fun x hx => by have := of_decide_eq_true hx; omega]
  by_cases hfit : a.used + n ≤ a.limit
  · rw [if_pos hfit, decide_eq_true hfit]
    rfl
  · rw [if_neg hfit, decide_eq_false hfit]
    rfl

variable (hgrow : ∀ n, grow n = true)
include hgrow

theorem extend_eq (part : List UInt8) {c : Nat} (hcur : a.cur = some c) :
    a.extend grow part =
      if c + part.length < maxArgStrlen ∧ a.used + part.length ≤ a.limit then
        .ok { a with
          strings := a.strings ++ part, used := a.used + part.length, cur :=
            some (c + part.length) }
      else .error .tooBig := by
  have hmax : maxArgStrlen < 2 ^ 64 := by decide
  unfold extend
  rw [charge_eq hlimit, hcur, Option.getD_some,
    checkedAdd_filter _ fun x hx => by have := of_decide_eq_true hx; omega]
  by_cases hshort : c + part.length < maxArgStrlen
  · rw [decide_eq_true hshort]
    by_cases hfit : a.used + part.length ≤ a.limit
    · simp only [hshort, hfit, and_self, if_true, hgrow]
    · simp only [hfit, and_false, if_true, if_false]
  · rw [decide_eq_false hshort]
    simp only [hshort, false_and, if_false, Bool.false_eq_true]

theorem finish_eq :
    a.finish grow =
      if a.used + 1 ≤ a.limit then
        .ok { a with
          strings := a.strings ++ [0], used := a.used + 1, cur := none
          argc := if a.curEnv then a.argc else saturatingAdd a.argc 1
          envc := if a.curEnv then saturatingAdd a.envc 1 else a.envc }
      else .error .tooBig := by
  unfold finish
  rw [charge_eq hlimit]
  by_cases hfit : a.used + 1 ≤ a.limit
  · simp only [hfit, if_true, hgrow]
  · simp only [hfit, if_false]

theorem extends_eq (parts : List (List UInt8)) {c : Nat} (hcur : a.cur = some c)
    (hc : c < maxArgStrlen) (hused : a.used ≤ a.limit) :
    parts.foldlM (extend grow) a =
      if c + parts.flatten.length < maxArgStrlen ∧ a.used + parts.flatten.length ≤ a.limit then
        .ok { a with
          strings := a.strings ++ parts.flatten, used := a.used + parts.flatten.length
          cur := some (c + parts.flatten.length) }
      else .error .tooBig := by
  induction parts generalizing a c with
  | nil =>
    rw [List.flatten_nil, List.length_nil, Nat.add_zero, Nat.add_zero, if_pos ⟨hc, hused⟩,
      List.append_nil]
    cases a
    cases hcur
    rfl
  | cons part parts ih =>
    rw [List.foldlM_cons, extend_eq hlimit hgrow part hcur, List.flatten_cons, List.length_append]
    by_cases hfirst : c + part.length < maxArgStrlen ∧ a.used + part.length ≤ a.limit
    · rw [if_pos hfirst]
      have hrest := ih (a := { a with
        strings := a.strings ++ part, used := a.used + part.length, cur := some (c + part.length) })
        hlimit rfl hfirst.1 hfirst.2
      simp only [Nat.add_assoc, List.append_assoc] at hrest
      exact hrest
    · rw [if_neg hfirst, if_neg fun h => hfirst ⟨by omega, by omega⟩]
      rfl

theorem pushParts_eq (env : Bool) (parts : List (List UInt8)) :
    a.pushParts grow env parts =
      if parts.flatten.length < maxArgStrlen ∧ a.used + (parts.flatten.length + 9) ≤ a.limit then
        .ok (a.added env parts.flatten)
      else .error .tooBig := by
  unfold pushParts begin
  rw [charge_eq hlimit]
  by_cases hptr : a.used + 8 ≤ a.limit
  · rw [if_pos hptr]
    have hparts :=
      extends_eq (a := { a with used := a.used + 8, cur := some 0, curEnv := env }) (c := 0)
      hlimit hgrow parts rfl (by decide) hptr
    rw [Nat.zero_add] at hparts
    change (List.foldlM (extend grow)
      { a with used := a.used + 8, cur := some 0, curEnv := env } parts).bind
      (finish grow) = _
    rw [hparts]
    by_cases hbody : parts.flatten.length < maxArgStrlen ∧ a.used + 8 + parts.flatten.length ≤
      a.limit
    · rw [if_pos hbody]
      refine Eq.trans (finish_eq ?_ hgrow) ?_
      · exact hlimit
      simp only [hbody.1, true_and, added, List.append_assoc,
        show a.used + 8 + parts.flatten.length + 1 = a.used + (parts.flatten.length + 9) by omega]
    · rw [if_neg hbody, if_neg fun h => hbody ⟨h.1, by omega⟩]
      rfl
  · rw [if_neg hptr, if_neg fun h => hptr (by omega)]
    rfl

theorem push_eq (env : Bool) (s : List UInt8) :
    a.push grow env s =
      if s.length < maxArgStrlen ∧ a.used + (s.length + 9) ≤ a.limit then .ok (a.added env s)
      else .error .tooBig := by
  have hone : a.push grow env s = a.pushParts grow env [s] := by
    unfold push pushParts
    congr 1
    funext b
    rw [List.foldlM_cons]
    cases b.extend grow s <;> rfl
  have hflat : [s].flatten = s := by simp
  rw [hone, pushParts_eq hlimit hgrow, hflat]

end

/-- What the calls that gave a block the strings `ss` leave in it. -/
structure Tally (limit : Nat) (ss : List (Bool × List UInt8)) (a : ExecArgs) : Prop where
  bound : a.limit = limit
  used : a.used = cost (ss.map Prod.snd)
  argc : a.argc = 0 ↔ ss.all (·.1) = true

variable {limit : Nat} {ss : List (Bool × List UInt8)}

theorem Tally.added (h : Tally limit ss a) (env : Bool) (s : List UInt8) :
    Tally limit (ss ++ [(env, s)]) (a.added env s) := by
  refine ⟨h.bound, ?_, ?_⟩
  · change a.used + (s.length + 9) = _
    rw [h.used, List.map_append, cost_append]
    rfl
  · rw [List.all_append, Bool.and_eq_true, ← h.argc]
    cases env with
    | true => simp [ExecArgs.added]
    | false =>
      refine iff_of_false ?_ fun hall => Bool.noConfusion hall.2
      change ¬ min (a.argc + 1) (2 ^ 64 - 1) = 0
      omega

theorem Tally.call (h : Tally limit ss a) (hlimit : limit < 2 ^ 64) (hgrow : ∀ n, grow n = true)
    {op : ArgOp} {b : ExecArgs} (hok : a.call grow op = .ok b) :
    Tally limit (collected ss op) b := by
  cases op with
  | string env parts =>
    rw [ExecArgs.call, pushParts_eq (h.bound ▸ hlimit) hgrow] at hok
    split at hok
    · cases hok
      exact h.added env parts.flatten
    · cases hok
  | finishArgv =>
    rw [ExecArgs.call, finishArgv] at hok
    unfold collected
    by_cases hargc : a.argc = 0
    · rw [if_pos hargc, pushArg, push_eq (h.bound ▸ hlimit) hgrow] at hok
      rw [if_pos (h.argc.mp hargc)]
      split at hok
      · cases hok
        have hadded := h.added false []
        exact ⟨hadded.bound, hadded.used, hadded.argc⟩
      · cases hok
    · rw [if_neg hargc] at hok
      rw [if_neg fun hall => hargc (h.argc.mpr hall)]
      cases hok
      exact ⟨h.bound, h.used, h.argc⟩

theorem Tally.calls (h : Tally limit ss a) (hlimit : limit < 2 ^ 64) (hgrow : ∀ n, grow n = true)
    {ops : List ArgOp} {b : ExecArgs} (hok : ops.foldlM (ExecArgs.call grow) a = .ok b) :
    Tally limit (ops.foldl collected ss) b := by
  induction ops generalizing a ss with
  | nil =>
    cases hok
    exact h
  | cons op ops ih =>
    rw [List.foldlM_cons] at hok
    cases hcall : a.call grow op with
    | error e =>
      rw [hcall] at hok
      cases hok
    | ok c =>
      rw [hcall] at hok
      exact ih (h.call hlimit hgrow hcall) hok

/-- The block has the strings and their counts. -/
structure Kept (limit : Nat) (argv envp : List (List UInt8)) (a : ExecArgs) : Prop where
  strings : a.strings = block (argv ++ envp)
  argc : a.argc = argv.length
  envc : a.envc = envp.length
  used : a.used = cost (argv ++ envp)
  bound : a.limit = limit
  fits : a.used ≤ limit

section Collect
variable {b : ExecArgs} {argv envp : List (List UInt8)} {s : List UInt8}
  (hlimit : limit < 2 ^ 64) (hgrow : ∀ n, grow n = true)
include hlimit

theorem Kept.saturating (h : Kept limit argv envp a) :
    saturatingAdd argv.length 1 = argv.length + 1 ∧ saturatingAdd envp.length 1 = envp.length +
      1 := by
  have hcost := length_le_cost (argv ++ envp)
  have hfits := h.fits
  rw [h.used] at hfits
  rw [List.length_append] at hcost
  exact ⟨Nat.min_eq_left (by omega), Nat.min_eq_left (by omega)⟩

theorem Kept.added_arg (h : Kept limit argv [] a) (hfit : a.used + (s.length + 9) ≤ a.limit) :
    Kept limit (argv ++ [s]) [] (a.added false s) := by
  refine ⟨?_, ?_, h.envc, ?_, h.bound, h.bound ▸ hfit⟩
  · change a.strings ++ (s ++ [0]) = _
    rw [h.strings, List.append_nil, List.append_nil, block_append]
    simp [block]
  · change saturatingAdd a.argc 1 = _
    rw [h.argc, (h.saturating hlimit).1, List.length_append]
    rfl
  · change a.used + (s.length + 9) = _
    rw [h.used, List.append_nil, List.append_nil, cost_append]
    rfl

theorem Kept.added_env (h : Kept limit argv envp a) (hfit : a.used + (s.length + 9) ≤ a.limit) :
    Kept limit argv (envp ++ [s]) (a.added true s) := by
  refine ⟨?_, h.argc, ?_, ?_, h.bound, h.bound ▸ hfit⟩
  · change a.strings ++ (s ++ [0]) = _
    rw [h.strings, ← List.append_assoc argv, block_append (argv ++ envp)]
    simp [block]
  · change saturatingAdd a.envc 1 = _
    rw [h.envc, (h.saturating hlimit).2, List.length_append]
    rfl
  · change a.used + (s.length + 9) = _
    rw [h.used, ← List.append_assoc argv, cost_append (argv ++ envp)]
    rfl

include hgrow

theorem Kept.pushArgs (h : Kept limit argv [] a) (ss : List (List UInt8))
    (hok : ss.foldlM (pushArg grow) a = .ok b) : Kept limit (argv ++ ss) [] b := by
  induction ss generalizing a argv with
  | nil =>
    cases hok
    rwa [List.append_nil]
  | cons s ss ih =>
    rw [List.foldlM_cons, pushArg, push_eq (h.bound ▸ hlimit) hgrow] at hok
    split at hok
    · rename_i hfit
      have := ih (h.added_arg hlimit hfit.2) hok
      rwa [List.append_assoc] at this
    · cases hok

theorem Kept.pushEnvs (h : Kept limit argv envp a) (ss : List (List UInt8))
    (hok : ss.foldlM (pushEnv grow) a = .ok b) :
    Kept limit argv (envp ++ ss) b := by
  induction ss generalizing a envp with
  | nil =>
    cases hok
    rwa [List.append_nil]
  | cons s ss ih =>
    rw [List.foldlM_cons, pushEnv, push_eq (h.bound ▸ hlimit) hgrow] at hok
    split at hok
    · rename_i hfit
      have := ih (h.added_env hlimit hfit.2) hok
      rwa [List.append_assoc] at this
    · cases hok

/-- `argv` as a program gets it, which is never empty. -/
def given (argv : List (List UInt8)) : List (List UInt8) := if argv = [] then [[]] else argv

omit hlimit hgrow in
theorem kept_new : Kept limit [] [] (new limit) :=
  ⟨rfl, rfl, rfl, rfl, rfl, Nat.zero_le _⟩

theorem kept_collect (h : collect grow limit argv envp = .ok a) :
    Kept limit (given argv) envp a := by
  unfold collect at h
  cases hargs : argv.foldlM (pushArg grow) (new limit) with
  | error e =>
    rw [hargs] at h
    cases h
  | ok b =>
    rw [hargs] at h
    have hb : Kept limit argv [] b := kept_new.pushArgs hlimit hgrow argv hargs
    have hfinish : ∀ c, b.finishArgv grow = .ok c → Kept limit (given argv) [] c := by
      intro c hc
      have hargc : b.argc = 0 ↔ argv = [] := by rw [hb.argc, List.length_eq_zero_iff]
      unfold finishArgv at hc
      unfold given
      by_cases hempty : argv = []
      · rw [if_pos hempty]
        rw [if_pos (hargc.mpr hempty), pushArg, push_eq (hb.bound ▸ hlimit) hgrow] at hc
        split at hc
        · rename_i hfit
          cases hc
          have hadded := hb.added_arg hlimit hfit.2
          rw [hempty] at hadded
          exact ⟨hadded.strings, hadded.argc, hadded.envc, hadded.used, hadded.bound, hadded.fits⟩
        · cases hc
      · rw [if_neg hempty]
        rw [if_neg fun h => hempty (hargc.mp h)] at hc
        cases hc
        exact ⟨hb.strings, hb.argc, hb.envc, hb.used, hb.bound, hb.fits⟩
    change (b.finishArgv grow).bind (fun a => envp.foldlM (pushEnv grow) a) = .ok a at h
    cases hfin : b.finishArgv grow with
    | error e =>
      rw [hfin] at h
      cases h
    | ok c =>
      rw [hfin] at h
      exact (hfinish c hfin).pushEnvs hlimit hgrow envp h

end Collect
end ExecArgs
end VibeOS.Process
