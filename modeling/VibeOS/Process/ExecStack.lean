import VibeOS.Process.ExecArgs

/-!
The initial stack read back. The writer turns the block of strings into one list of words: a pointer
for each string, in order, with a NULL after `argc` of them, then the auxiliary vector. A program
that reads memory from the stack pointer finds that list again, and through it the strings.
-/
namespace VibeOS.Process
open Lib

theorem align16_eq_some {x y : Nat} (h : align16 x = some y) : x ≤ y ∧ y % 16 = 0 ∧ y < 2 ^ 64 := by
  unfold align16 at h
  rw [Option.map_eq_some_iff] at h
  obtain ⟨z, hz, rfl⟩ := h
  obtain ⟨rfl, hlt⟩ := checkedAdd_eq_some.mp hz
  omega

def wordCount (args : ExecArgs) (naux : Nat) : Nat := args.argc + args.envc + 3 + 2 * (naux + 2)

theorem tableWords_eq_some {args : ExecArgs} {naux n : Nat} (h : tableWords args naux = some n) :
    n = wordCount args naux := by
  simp only [tableWords, Option.bind_eq_bind, Option.bind_eq_some_iff, checkedAdd_eq_some,
    checkedMul_eq_some] at h
  obtain ⟨p, ⟨rfl, -⟩, q, ⟨rfl, -⟩, a, ⟨rfl, -⟩, b, ⟨rfl, -⟩, rfl, -⟩ := h
  unfold wordCount
  omega

theorem stackOffsets_eq_some {args : ExecArgs} {naux strings random rsp : Nat}
    (h : stackOffsets args naux = some (strings, random, rsp)) :
    strings = args.strings.length + 8 ∧ strings + 16 ≤ random ∧ random % 16 = 0 ∧
      random + 8 * wordCount args naux ≤ rsp ∧ rsp % 16 = 0 ∧ rsp < 2 ^ 64 := by
  simp only [stackOffsets, Option.bind_eq_bind, Option.bind_eq_some_iff, checkedAdd_eq_some,
    checkedMul_eq_some, Option.some.injEq, Prod.mk.injEq] at h
  obtain ⟨s, ⟨rfl, -⟩, r, ⟨rfl, -⟩, r', hr, n, hn, n', ⟨rfl, -⟩, e, ⟨rfl, -⟩, e', he, rfl, rfl,
    rfl⟩ := h
  have hrandom := align16_eq_some hr
  have hrsp := align16_eq_some he
  rw [tableWords_eq_some hn] at hrsp
  omega

def wordBytes (ws : List Nat) : List UInt8 := ws.flatMap (leBytes 8)

theorem length_wordBytes (ws : List Nat) : (wordBytes ws).length = 8 * ws.length := by
  induction ws with
  | nil => rfl
  | cons w ws ih =>
    rw [wordBytes, List.flatMap_cons, List.length_append, length_leBytes, List.length_cons]
    change 8 + (wordBytes ws).length = _
    omega

theorem wordBytes_append (ws ws' : List Nat) :
    wordBytes (ws ++ ws') = wordBytes ws ++ wordBytes ws' :=
  List.flatMap_append

/-- A buffer whose first words have been written. -/
def filled (t : List UInt8) (ws : List Nat) : List UInt8 × Nat :=
  (wordBytes ws ++ t.drop (8 * ws.length), 8 * ws.length)

section Poke
variable {t : List UInt8} (ht : t.length < 2 ^ 64)
include ht

theorem pokeU64_filled {ws : List Nat} (v : Nat) (hroom : 8 * (ws.length + 1) ≤ t.length) :
    pokeU64 (filled t ws) v = some (filled t (ws ++ [v])) := by
  have hlen := length_wordBytes ws
  have hadd : checkedAdd (8 * ws.length) 8 = some (8 * ws.length + 8) :=
    checkedAdd_eq_some.mpr ⟨rfl, by omega⟩
  have hsplice : splice (filled t ws).1 (8 * ws.length) (leBytes 8 v) =
      some (wordBytes ws ++ leBytes 8 v ++ t.drop (8 * ws.length + 8)) := by
    unfold splice filled
    rw [if_pos (by rw [length_leBytes, List.length_append, hlen, List.length_drop]; omega), ← hlen,
      List.take_left, length_leBytes, List.drop_append, List.drop_eq_nil_of_le (by omega),
      List.nil_append, List.drop_drop, Nat.add_sub_cancel_left]
  simp only [pokeU64, Option.bind_eq_bind]
  change (checkedAdd (8 * ws.length) 8).bind _ = _
  rw [hadd, Option.bind_some]
  change (splice (filled t ws).1 (8 * ws.length) (leBytes 8 v)).bind _ = _
  rw [hsplice, Option.bind_some, filled, wordBytes_append, List.length_append]
  simp [wordBytes, Nat.mul_add]

/-- The words for the strings of a block, `n` of which have gone before: a pointer to each, and a
NULL after `argc` of them. -/
def linked (argc n va : Nat) : List (List UInt8) → List Nat
  | [] => []
  | s :: ss => va :: (if n + 1 = argc then [0] else []) ++
      linked argc (n + 1) (va + s.length + 1) ss

omit ht in
theorem pokePtrs_string {va argc i start n : Nat} {s rest : List UInt8} (hs : 0 ∉ s)
    (st : List UInt8 × Nat) :
    pokePtrs va argc (s ++ rest) i start n st =
      pokePtrs va argc rest (i + s.length) start n st := by
  induction s generalizing i with
  | nil => rfl
  | cons b s ih =>
    rw [List.mem_cons, not_or] at hs
    rw [List.cons_append, pokePtrs, if_pos (Ne.symm hs.1), ih hs.2, List.length_cons]
    congr 1
    omega

theorem pokePtrs_block (va argc i n : Nat) (ws : List Nat) {ss : List (List UInt8)}
    (hss : ∀ s ∈ ss, 0 ∉ s)
    (hroom : 8 * (ws.length + (linked argc n (va + i) ss).length) ≤ t.length)
    (hva : va + i + (block ss).length < 2 ^ 64) (hn : n + ss.length < 2 ^ 64) :
    pokePtrs va argc (block ss) i i n (filled t ws) =
      some (n + ss.length, filled t (ws ++ linked argc n (va + i) ss)) := by
  induction ss generalizing i n ws with
  | nil => simp [block, pokePtrs, linked]
  | cons s ss ih =>
    have hblock : block (s :: ss) = s ++ 0 :: block ss := by simp [block]
    have hlen : (block (s :: ss)).length = s.length + 1 + (block ss).length := by
      rw [hblock, List.length_append, List.length_cons]
      omega
    have hlinked : linked argc n (va + i) (s :: ss) =
        (va + i) :: ((if n + 1 = argc then [0] else []) ++
          linked argc (n + 1) (va + (i + s.length + 1)) ss) := by
      rw [linked, List.cons_append]
      simp only [Nat.add_assoc]
    rw [hlinked, List.length_cons, List.length_append] at hroom
    rw [List.length_cons] at hn
    rw [hlen] at hva
    have hn1 : checkedAdd n 1 = some (n + 1) := checkedAdd_eq_some.mpr ⟨rfl, by omega⟩
    have hstart : checkedAdd (i + s.length) 1 = some (i + s.length + 1) :=
      checkedAdd_eq_some.mpr ⟨rfl, by omega⟩
    have hptr : checkedAdd va i = some (va + i) := checkedAdd_eq_some.mpr ⟨rfl, by omega⟩
    rw [hblock, pokePtrs_string (hss s (List.mem_cons_self ..)), pokePtrs, if_neg (by simp)]
    simp only [hptr, hn1, hstart, Option.bind_eq_bind, Option.bind_some]
    rw [pokeU64_filled ht _ (by omega), Option.bind_some]
    -- the loop goes on with the words so far
    have hgo : ∀ zs : List Nat, zs = (if n + 1 = argc then [0] else []) →
        pokePtrs va argc (block ss) (i + s.length + 1) (i + s.length + 1) (n + 1)
            (filled t (ws ++ [va + i] ++ zs)) =
          some (n + (s :: ss).length, filled t (ws ++ linked argc n (va + i) (s :: ss))) := by
      rintro zs rfl
      rw [ih _ _ _ (fun s' hs' => hss s' (List.mem_cons_of_mem _ hs')) ?_ (by omega) (by omega),
        hlinked, List.length_cons]
      · simp only [List.append_assoc, List.singleton_append, Nat.add_assoc, Nat.add_comm 1]
        rfl
      · simp only [List.length_append, List.length_singleton]
        omega
    split
    · rename_i hlast
      rw [if_pos hlast] at hroom hgo
      rw [pokeU64_filled ht _
        (by rw [List.length_append]; simp only [List.length_singleton] at hroom ⊢; omega),
          Option.bind_some]
      exact hgo [0] rfl
    · rename_i hlast
      rw [if_neg hlast] at hgo
      have hrest := hgo [] rfl
      rwa [List.append_nil] at hrest

/-- The words of the auxiliary vector's pairs. -/
def pairs (aux : List Auxv) : List Nat := aux.flatMap fun a => [a.tag, a.val]

theorem pokeAux_filled (ws : List Nat) (aux : List Auxv)
    (hroom : 8 * (ws.length + (pairs aux).length) ≤ t.length) :
    pokeAux (filled t ws) aux = some (filled t (ws ++ pairs aux)) := by
  induction aux generalizing ws with
  | nil => simp [pokeAux, pairs]
  | cons a aux ih =>
    have hpairs : pairs (a :: aux) = a.tag :: a.val :: pairs aux := rfl
    rw [hpairs, List.length_cons, List.length_cons] at hroom
    have hboth : (pokeU64 (filled t ws) a.tag).bind (fun s => pokeU64 s a.val) =
        some (filled t (ws ++ [a.tag] ++ [a.val])) := by
      rw [pokeU64_filled ht _ (by omega), Option.bind_some,
        pokeU64_filled ht _ (by rw [List.length_append, List.length_singleton]; omega)]
    have hrest := ih (ws ++ [a.tag] ++ [a.val])
      (by simp only [List.length_append, List.length_singleton]; omega)
    rw [pokeAux, List.foldlM_cons, hboth]
    rw [pokeAux] at hrest
    rw [hpairs]
    simpa using hrest

end Poke

/-- The addresses of strings that start at `va`. -/
def ptrsOf (va : Nat) : List (List UInt8) → List Nat
  | [] => []
  | s :: ss => va :: ptrsOf (va + s.length + 1) ss

theorem length_ptrsOf (va : Nat) (ss : List (List UInt8)) : (ptrsOf va ss).length = ss.length := by
  induction ss generalizing va with
  | nil => rfl
  | cons s ss ih => rw [ptrsOf, List.length_cons, ih, List.length_cons]

theorem linked_past {argc n va : Nat} (h : argc ≤ n) (ss : List (List UInt8)) :
    linked argc n va ss = ptrsOf va ss := by
  induction ss generalizing n va with
  | nil => rfl
  | cons s ss ih =>
    rw [linked, if_neg (by omega), ih (by omega), ptrsOf]
    rfl

theorem linked_eq {argc n : Nat} (va : Nat) {argv : List (List UInt8)} (envp : List (List UInt8))
    (hargv : argv ≠ []) (hn : n + argv.length = argc) :
    linked argc n va (argv ++ envp) = ptrsOf va argv ++ 0 ::
      ptrsOf (va + (block argv).length) envp := by
  induction argv generalizing n va with
  | nil => exact absurd rfl hargv
  | cons s argv ih =>
    rw [List.length_cons] at hn
    have hlen : va + (block (s :: argv)).length = va + s.length + 1 + (block argv).length := by
      simp only [block, List.flatMap_cons, List.length_append, List.length_singleton]
      omega
    rw [List.cons_append, linked, ptrsOf, hlen]
    by_cases hlast : argv = []
    · subst hlast
      rw [List.length_nil] at hn
      rw [if_pos (by omega), List.nil_append, linked_past (by omega)]
      rfl
    · have hpos := List.length_pos_iff.mpr hlast
      rw [if_neg (by omega), ih _ hlast (by omega)]
      rfl

def stackWords (stringsVa randomVa : Nat) (argv envp : List (List UInt8)) (aux : List Auxv) :
    List Nat :=
  argv.length :: (ptrsOf stringsVa argv ++ 0 ::
    (ptrsOf (stringsVa + (block argv).length) envp ++ 0 ::
      (pairs aux ++ [atRandom, randomVa, atNull, 0])))

theorem length_pairs (aux : List Auxv) : (pairs aux).length = 2 * aux.length := by
  induction aux with
  | nil => rfl
  | cons a aux ih =>
    change (pairs aux).length + 1 + 1 = _
    rw [ih, List.length_cons]
    omega

theorem length_stackWords (stringsVa randomVa : Nat) (argv envp : List (List UInt8))
    (aux : List Auxv) :
    (stackWords stringsVa randomVa argv envp aux).length = argv.length + envp.length + 3 + 2 *
    (aux.length + 2) := by
  simp only [stackWords, List.length_cons, List.length_append, length_ptrsOf, length_pairs,
    List.length_nil]
  omega

/-- The buffer with the random bytes in place. -/
def ground (strings randomOff rsp : Nat) (random : List UInt8) : List UInt8 :=
  List.replicate (rsp - randomOff) 0 ++ random ++ List.replicate (randomOff - strings - 16) 0

theorem build_eq {limit top strings randomOff rsp : Nat} {args : ExecArgs}
    {argv envp : List (List UInt8)} {aux : List Auxv} {random table : List UInt8}
    (hargs : args.Kept limit argv envp) (hargv : argv ≠ []) (hnul : ∀ s ∈ argv ++ envp, 0 ∉ s)
    (htop : top < 2 ^ 64) (halign : top % 16 = 0)
    (hoffs : stackOffsets args aux.length = some (strings, randomOff, rsp)) (hhigh : rsp ≤ top)
    (hrandom : random.length = 16) (htable : table.length = rsp - strings) :
    build top args aux random table =
      some (⟨top - rsp, top - strings⟩,
        (filled (ground strings randomOff rsp random)
          (stackWords (top - strings) (top - randomOff) argv envp aux)).1) := by
  obtain ⟨hstrings, hbetween, -, hroom, -, -⟩ := stackOffsets_eq_some hoffs
  rw [wordCount, hargs.argc, hargs.envc] at hroom
  have hlen : args.strings.length = (block (argv ++ envp)).length := by rw [hargs.strings]
  have hground : (ground strings randomOff rsp random).length = rsp - strings := by
    simp only [ground, List.length_append, List.length_replicate, hrandom]
    omega
  have hsub : ∀ x, x ≤ top → checkedSub top x = some (top - x) := fun x hx => if_pos hx
  have hsplice : splice (List.replicate (rsp - strings) 0) (rsp - randomOff) random =
      some (ground strings randomOff rsp random) := by
    unfold splice ground
    rw [if_pos (by rw [List.length_replicate, hrandom]; omega), List.take_replicate,
      List.drop_replicate, hrandom, Nat.min_eq_left (by omega),
      show rsp - strings - (rsp - randomOff + 16) = randomOff - strings - 16 by omega]
  have hsmall : (ground strings randomOff rsp random).length < 2 ^ 64 := by omega
  have hargc : argv.length ≠ 0 := fun h => hargv (List.length_eq_zero_iff.mp h)
  have hzero : ((ground strings randomOff rsp random), 0) =
      filled (ground strings randomOff rsp random) [] := by
    simp [filled, wordBytes]
  have hva : top - strings + (block (argv ++ envp)).length < 2 ^ 64 := by omega
  have hlinked := linked_eq (top - strings) envp hargv (Nat.zero_add _)
  have hptrs := pokePtrs_block hsmall (top - strings) argv.length 0 0 [argv.length] hnul
    (by
      rw [Nat.add_zero, hlinked]
      simp only [List.length_cons, List.length_append, length_ptrsOf, List.length_nil]
      omega)
    hva (by rw [List.length_append]; omega)
  rw [Nat.add_zero, hlinked, Nat.zero_add, List.length_append, ← hargs.strings] at hptrs
  unfold build
  rw [if_neg (by omega), hoffs]
  have hlenSub : checkedSub rsp strings = some (rsp - strings) := if_pos (by omega)
  have hrandomSub : checkedSub rsp randomOff = some (rsp - randomOff) := if_pos (by omega)
  have hall : checkedAdd argv.length envp.length = some (argv.length + envp.length) :=
    checkedAdd_eq_some.mpr ⟨rfl, by omega⟩
  simp only [Option.bind_eq_bind, Option.bind_some, hsub strings (by omega),
    hsub randomOff (by omega), hsub rsp hhigh, hlenSub, hrandomSub, hsplice, hargs.argc,
    hargs.envc, hzero]
  rw [if_neg (fun h => h htable), pokeU64_filled hsmall _ (by rw [List.length_nil]; omega),
    Option.bind_some, if_neg hargc, List.nil_append, hptrs, Option.bind_some, hall,
    Option.bind_some, if_neg (fun h => h rfl)]
  -- every further word has room: the table is as long as its words
  have hwords : ∀ ws : List Nat, ws.length + 1 ≤ argv.length + envp.length + 3 + 2 *
    (aux.length + 2) →
      ∀ v, pokeU64 (filled (ground strings randomOff rsp random) ws) v =
        some (filled (ground strings randomOff rsp random) (ws ++ [v])) := by
    intro ws hws v
    exact pokeU64_filled hsmall v (by omega)
  have haux : ∀ ws : List Nat, ws.length + 2 * aux.length ≤ argv.length + envp.length + 3 + 2 *
    (aux.length + 2) →
      pokeAux (filled (ground strings randomOff rsp random) ws) aux =
        some (filled (ground strings randomOff rsp random) (ws ++ pairs aux)) := by
    intro ws hws
    exact pokeAux_filled hsmall ws aux (by rw [length_pairs]; omega)
  simp (disch := (simp only [List.length_append, List.length_cons, List.length_nil, length_ptrsOf,
    length_pairs]; omega)) only
    [hwords, haux, Option.bind_some]
  simp only [stackWords, List.append_assoc, List.cons_append, List.nil_append]

namespace Start
variable {m : Memory} {a : Nat}

theorem has_word {w : Nat} {ws : List Nat} (h : m.Has a (wordBytes (w :: ws))) (hw : w < 2 ^ 64) :
    m.readLE 8 a = w ∧ m.Has (a + 8) (wordBytes ws) := by
  rw [wordBytes, List.flatMap_cons, Memory.has_append, length_leBytes] at h
  exact ⟨h.1.readLE_eq hw, h.2⟩

theorem readPtrs_eq {ps rest : List Nat} (fuel : Nat) (hps : ∀ p ∈ ps, p ≠ 0 ∧ p < 2 ^ 64)
    (h : m.Has a (wordBytes (ps ++ 0 :: rest))) (hfuel : ps.length < fuel) :
    readPtrs m fuel a = some (ps, a + 8 * (ps.length + 1)) := by
  induction ps generalizing a fuel with
  | nil =>
    obtain ⟨fuel, rfl⟩ := Nat.exists_eq_succ_of_ne_zero (by omega : fuel ≠ 0)
    rw [readPtrs, if_pos (has_word h (by decide)).1]
    rfl
  | cons p ps ih =>
    obtain ⟨fuel, rfl⟩ := Nat.exists_eq_succ_of_ne_zero (by omega : fuel ≠ 0)
    rw [List.forall_mem_cons] at hps
    obtain ⟨hword, hrest⟩ := has_word h hps.1.2
    rw [List.length_cons] at hfuel
    rw [readPtrs, hword, if_neg hps.1.1, ih fuel hps.2 hrest (by omega), List.length_cons,
      Option.map_some]
    simp only
    congr 2
    omega

theorem readStr_eq {s rest : List UInt8} {fuel : Nat} (hs : 0 ∉ s) (h : m.Has a (s ++ 0 :: rest))
    (hfuel : s.length < fuel) : readStr m fuel a = some s := by
  induction s generalizing a fuel with
  | nil =>
    obtain ⟨fuel, rfl⟩ := Nat.exists_eq_succ_of_ne_zero (by omega : fuel ≠ 0)
    rw [readStr, if_pos (Memory.has_cons.mp h).1]
  | cons b s ih =>
    obtain ⟨fuel, rfl⟩ := Nat.exists_eq_succ_of_ne_zero (by omega : fuel ≠ 0)
    rw [List.mem_cons, not_or] at hs
    obtain ⟨hb, hrest⟩ := Memory.has_cons.mp h
    rw [List.length_cons] at hfuel
    rw [readStr, hb, if_neg (Ne.symm hs.1), ih hs.2 hrest (by omega), Option.map_some]

theorem readStrs_eq {ss : List (List UInt8)} {fuel : Nat} (hnul : ∀ s ∈ ss, 0 ∉ s)
    (h : m.Has a (block ss)) (hfuel : ∀ s ∈ ss, s.length < fuel) :
    (ptrsOf a ss).mapM (readStr m fuel) = some ss := by
  induction ss generalizing a with
  | nil => rfl
  | cons s ss ih =>
    rw [List.forall_mem_cons] at hnul hfuel
    have hblock : block (s :: ss) = s ++ 0 :: block ss := by simp [block]
    rw [hblock] at h
    have hrest := (Memory.has_cons.mp (Memory.has_append.mp h).2).2
    rw [ptrsOf, List.mapM_cons, readStr_eq hnul.1 h hfuel.1, ih hnul.2 hrest hfuel.2]
    rfl

theorem readAux_eq {aux : List Auxv} {rest : List Nat} (fuel : Nat)
    (haux : ∀ x ∈ aux, x.tag ≠ atNull ∧ x.tag < 2 ^ 64 ∧ x.val < 2 ^ 64)
    (h : m.Has a (wordBytes (pairs aux ++ atNull :: rest))) (hfuel : aux.length < fuel) :
    readAux m fuel a = some aux := by
  induction aux generalizing a fuel with
  | nil =>
    obtain ⟨fuel, rfl⟩ := Nat.exists_eq_succ_of_ne_zero (by omega : fuel ≠ 0)
    rw [readAux, if_pos (has_word h (by decide)).1]
  | cons x aux ih =>
    obtain ⟨fuel, rfl⟩ := Nat.exists_eq_succ_of_ne_zero (by omega : fuel ≠ 0)
    rw [List.forall_mem_cons] at haux
    obtain ⟨htag, hrest⟩ := has_word h haux.1.2.1
    obtain ⟨hval, hrest⟩ := has_word hrest haux.1.2.2
    rw [List.length_cons] at hfuel
    rw [readAux, htag, if_neg haux.1.1, hval, ih fuel haux.2 hrest (by omega), Option.map_some]

theorem ptrsOf_bound {ss : List (List UInt8)} {p : Nat} (hp : p ∈ ptrsOf a ss) :
    a ≤ p ∧ p < a + (block ss).length := by
  induction ss generalizing a with
  | nil => cases hp
  | cons s ss ih =>
    have hlen : (block (s :: ss)).length = s.length + 1 + (block ss).length := by
      simp only [block, List.flatMap_cons, List.length_append, List.length_singleton]
    rw [hlen]
    rcases List.mem_cons.mp hp with rfl | hp
    · omega
    · have := ih hp
      omega

theorem length_lt_block {ss : List (List UInt8)} {s : List UInt8} (hs : s ∈ ss) :
    s.length < (block ss).length := by
  induction ss with
  | nil => cases hs
  | cons x ss ih =>
    rw [block, List.flatMap_cons, List.length_append, List.length_append]
    change s.length < x.length + 1 + (block ss).length
    rcases List.mem_cons.mp hs with rfl | hs
    · omega
    · have := ih hs
      omega

theorem has_after {ws rest : List Nat} (h : m.Has a (wordBytes (ws ++ 0 :: rest))) :
    m.Has (a + 8 * (ws.length + 1)) (wordBytes rest) := by
  rw [List.append_cons, wordBytes_append, Memory.has_append, length_wordBytes, List.length_append]
    at h
  exact h.2

theorem read_eq {rsp stringsVa randomVa fuel : Nat} {argv envp : List (List UInt8)}
    {aux : List Auxv} {tail : List UInt8} (hnul : ∀ s ∈ argv ++ envp, 0 ∉ s)
    (haux : ∀ x ∈ aux, x.tag ≠ atNull ∧ x.tag < 2 ^ 64 ∧ x.val < 2 ^ 64)
    (hva : 0 < stringsVa) (hva' : stringsVa + (block (argv ++ envp)).length < 2 ^ 64)
    (hrandom : randomVa < 2 ^ 64) (hargc : argv.length < 2 ^ 64)
    (htable : m.Has rsp (wordBytes (stackWords stringsVa randomVa argv envp aux) ++ tail))
    (hstrings : m.Has stringsVa (block (argv ++ envp)))
    (hfuel : argv.length + envp.length + aux.length + (block (argv ++ envp)).length + 2 ≤ fuel) :
    Start.read m fuel rsp = some ⟨argv.length, argv, envp, aux ++ [⟨atRandom, randomVa⟩]⟩ := by
  have hlong : ∀ s ∈ argv ++ envp, s.length < fuel := by
    intro s hs
    have := length_lt_block hs
    omega
  rw [block_append, List.length_append] at hva'
  rw [block_append, Memory.has_append] at hstrings
  rw [List.forall_mem_append] at hnul hlong
  obtain ⟨hcount, hptrs⟩ := has_word (Memory.has_append.mp htable).1 hargc
  have hargv := readPtrs_eq fuel (fun p hp => by have := ptrsOf_bound hp; omega) hptrs
    (by rw [length_ptrsOf]; omega)
  have hptrs := has_after hptrs
  have henvp := readPtrs_eq fuel (fun p hp => by have := ptrsOf_bound hp; omega) hptrs
    (by rw [length_ptrsOf]; omega)
  have hpairs := has_after hptrs
  have hsplit : pairs aux ++ [atRandom, randomVa, atNull, 0] =
      pairs (aux ++ [⟨atRandom, randomVa⟩]) ++ atNull :: [0] := by
    simp [pairs]
  rw [hsplit] at hpairs
  have hauxv := readAux_eq fuel (fun x hx => ?_) hpairs (by rw [List.length_append]; simp; omega)
  · simp only [Start.read, Option.bind_eq_bind, hargv, henvp, hauxv, Option.bind_some, hcount,
      readStrs_eq hnul.1 hstrings.1 hlong.1, readStrs_eq hnul.2 hstrings.2 hlong.2]
  · rcases List.mem_append.mp hx with hx | hx
    · exact haux x hx
    · rw [List.mem_singleton] at hx
      subst hx
      exact ⟨show atRandom ≠ atNull by decide, show atRandom < 2 ^ 64 by decide, hrandom⟩

end Start

/-- Collecting arguments and building the stack are undone by the start code. Where the block of
some `argv` and `envp` was accepted and the stack top is high enough, the table is built, lies with
the random bytes and the strings one below the other, and any memory that has table and strings
where they belong reads back as the strings and the auxiliary vector; an empty `argv` reads as one
empty string. After any calls, the end of `argv` among them, the block accepts a string exactly when
it is short enough and fits with those before. -/
theorem initial_stack_round_trip {grow : Nat → Bool} (hgrow : ∀ n, grow n = true)
    {limit top len : Nat} {argv envp : List (List UInt8)} {aux : List Auxv}
    {random table : List UInt8} {args : ExecArgs} (hlimit : limit < 2 ^ 64)
    (hnul : ∀ s ∈ argv ++ envp, 0 ∉ s) (hargs : ExecArgs.collect grow limit argv envp = .ok args)
    (haux : ∀ x ∈ aux, x.tag ≠ atNull ∧ x.tag ≠ atRandom ∧ x.tag < 2 ^ 64 ∧ x.val < 2 ^ 64)
    (hrandom : random.length = 16) (htop : top < 2 ^ 64) (halign : top % 16 = 0)
    (hlen : initialStackLen args aux.length = some len) (hhigh : len ≤ top)
    (htable : table.length = len - (args.strings.length + 8)) :
    (∃ img t randomVa, build top args aux random table = some (img, t) ∧ img.rsp % 16 = 0 ∧
        img.rsp + 8 * wordCount args aux.length ≤ randomVa ∧ randomVa + 16 ≤ img.stringsVa ∧
        img.stringsVa + args.strings.length ≤ top ∧
        ∀ m : Memory, m.Has img.rsp t → m.Has img.stringsVa args.strings →
          m.Has randomVa random ∧ ∃ N, ∀ fuel ≥ N, ∃ start, Start.read m fuel img.rsp = some start ∧
            start = ⟨(ExecArgs.given argv).length, ExecArgs.given argv, envp,
              aux ++ [⟨atRandom, randomVa⟩]⟩ ∧
            start.auxv.find? (fun x => x.tag = atRandom) = some ⟨atRandom, randomVa⟩) ∧
      ∀ (ops : List ArgOp) (b : ExecArgs),
        ops.foldlM (ExecArgs.call grow) (ExecArgs.new limit) = .ok b → ∀ env parts,
          ((∃ c, b.pushParts grow env parts = .ok c) ↔ parts.flatten.length < maxArgStrlen ∧
            cost ((ops.foldl collected []).map Prod.snd ++ [parts.flatten]) ≤ limit) := by
  refine ⟨?_, fun ops b hb env parts => ?_⟩
  · have hkept := ExecArgs.kept_collect hlimit hgrow hargs
    have hgiven : ExecArgs.given argv ≠ [] := by
      unfold ExecArgs.given
      split
      · exact List.cons_ne_nil _ _
      · assumption
    have hnul' : ∀ s ∈ ExecArgs.given argv ++ envp, 0 ∉ s := by
      unfold ExecArgs.given
      split
      · intro s hs
        rcases List.mem_append.mp hs with hs | hs
        · rw [List.mem_singleton.mp hs]
          exact List.not_mem_nil
        · exact hnul s (List.mem_append_right _ hs)
      · exact hnul
    unfold initialStackLen at hlen
    rw [Option.map_eq_some_iff] at hlen
    obtain ⟨⟨strings, randomOff, rsp⟩, hoffs, rfl⟩ := hlen
    obtain ⟨hstrings, hbetween, hralign, hroom, hspalign, -⟩ := stackOffsets_eq_some hoffs
    simp only at hhigh htable
    rw [← hstrings] at htable
    have hbuild := build_eq hkept hgiven hnul' htop halign hoffs hhigh hrandom htable
    have hblock : args.strings.length =
      (block (ExecArgs.given argv ++ envp)).length := by rw [hkept.strings]
    refine ⟨_, _, top - randomOff,
      hbuild, by simp only; omega, by simp only; omega, by simp only; omega, by simp only; omega,
      fun m hmt hms => ?_⟩
    have hwords :=
      length_stackWords (top - strings) (top - randomOff) (ExecArgs.given argv) envp aux
    rw [wordCount, hkept.argc, hkept.envc, ← hwords] at hroom
    simp only [filled] at hmt
    rw [hkept.strings] at hms
    refine ⟨?_, _, fun fuel hfuel =>
      ⟨_, Start.read_eq hnul' (fun x hx => ?_) ?_ ?_ ?_ ?_ hmt hms hfuel, rfl, ?_⟩⟩
    · rw [Memory.has_append, length_wordBytes, ground, List.append_assoc,
        List.drop_append_of_le_length (by rw [List.length_replicate]; omega), List.drop_replicate,
        Memory.has_append, Memory.has_append, List.length_replicate] at hmt
      have hrandom := hmt.2.2.1
      rwa [show top - rsp + 8 *
        (stackWords (top - strings) (top - randomOff) (ExecArgs.given argv) envp aux).length +
        (rsp - randomOff - 8 *
          (stackWords (top - strings) (top - randomOff) (ExecArgs.given argv) envp aux).length) =
          top - randomOff by omega] at hrandom
    · exact ⟨(haux x hx).1, (haux x hx).2.2⟩
    · omega
    · omega
    · omega
    · omega
    · rw [List.find?_append, List.find?_eq_none.mpr fun x hx => by simpa using (haux x hx).2.1]
      rfl
  · have hnew : ExecArgs.Tally limit [] (.new limit) := ⟨rfl, rfl, iff_of_true rfl rfl⟩
    obtain ⟨hbound, hused, -⟩ := hnew.calls hlimit hgrow hb
    rw [ExecArgs.pushParts_eq (hbound ▸ hlimit) hgrow, hbound, hused, cost_append]
    have hone : cost [parts.flatten] = parts.flatten.length + 9 := rfl
    rw [hone]
    split
    · rename_i hfit
      exact ⟨fun _ => hfit, fun _ => ⟨_, rfl⟩⟩
    · rename_i hfit
      exact ⟨nofun, fun h => absurd h hfit⟩

/-- Two arguments, one environment string and one pair, on a stack of 128 bytes. -/
theorem initial_stack_round_trip_two :
    ∃ args img t, ExecArgs.collect (fun _ => true) 1000 [[97], [98, 99]] [[75]] = .ok args ∧
      build 4096 args [⟨6, 4096⟩] (List.replicate 16 7) (List.replicate 113 0) = some (img, t) ∧
      img.rsp % 16 = 0 ∧
      ∀ m : Memory, m.Has img.rsp t → m.Has img.stringsVa args.strings →
        ∃ N, ∀ fuel ≥ N, ∃ start, Start.read m fuel img.rsp = some start ∧
          start.argv = [[97], [98, 99]] ∧ start.envp = [[75]] := by
  have hargs : ExecArgs.collect (fun _ => true) 1000 [[97], [98, 99]] [[75]] =
      .ok ⟨[97, 0, 98, 99, 0, 75, 0], 2, 1, 31, 1000, none, true, true⟩ := rfl
  obtain ⟨⟨img, t, randomVa, hbuild, hsp, -, -, -, hread⟩, -⟩ :=
    initial_stack_round_trip (fun _ => rfl) (by decide) (by decide) hargs
      (show ∀ x ∈ ([⟨6, 4096⟩] : List Auxv), _ by decide)
        (List.length_replicate (n := 16) (a := (7 : UInt8)))
      (show 4096 < 2 ^ 64 by decide) (by decide) (show initialStackLen _ 1 = some 128 from rfl)
        (by decide)
      (show (List.replicate 113 (0 : UInt8)).length = _ from rfl)
  refine ⟨_, img, t, hargs, hbuild, hsp, fun m hmt hms => ?_⟩
  obtain ⟨-, N, hN⟩ := hread m hmt hms
  refine ⟨N, fun fuel hfuel => ?_⟩
  obtain ⟨start, hstart, rfl, -⟩ := hN fuel hfuel
  exact ⟨_, hstart, rfl, rfl⟩

/-- The memory a table and the strings are written to. -/
def writtenStack (img : StackImage) (t strings : List UInt8) : Memory :=
  (Memory.store (fun _ => 0) img.rsp t).store img.stringsVa strings

/-- An empty `argv` is read back as one empty string. -/
theorem empty_argv_reads_one_string :
    ∃ args img t, ExecArgs.collect (fun _ => true) 1000 [] [] = .ok args ∧
      build 4096 args [] (List.replicate 16 7) (List.replicate 87 0) = some (img, t) ∧
      ∃ m : Memory, m.Has img.rsp t ∧ m.Has img.stringsVa args.strings ∧
        ∃ start, Start.read m 8 img.rsp = some start ∧ start.argc = 1 ∧ start.argv = [[]] ∧
          start.argv ≠ [] := by
  have hbuild : ∃ r, build 4096 ⟨[0], 1, 0, 9, 1000, none, false, true⟩ [] (List.replicate 16 7)
      (List.replicate 87 0) = some r ∧ r.1.rsp + r.2.length ≤ r.1.stringsVa ∧
        Start.read (writtenStack r.1 r.2 [0]) 8 r.1.rsp = some ⟨1, [[]], [], [⟨25, 4064⟩]⟩ := by
    refine ⟨_, rfl, ?_, ?_⟩
    · decide +kernel
    · decide +kernel
  obtain ⟨⟨img, t⟩, hbuild, hbelow, hread⟩ := hbuild
  refine ⟨_, img, t, rfl, hbuild, writtenStack img t [0], ?_, Memory.has_store _ _ _, _, hread,
    rfl, rfl, List.cons_ne_nil _ _⟩
  exact (Memory.has_store _ _ _).store (.inl hbelow)

end VibeOS.Process
