import VibeOS.Lib.Bytes
import VibeOS.Process.AddrSpace

/-!
Copies from user memory. The port copies a range and says how many bytes it left when it met a page
that is not mapped; the range is checked before it is asked. A string is copied in chunks that end
at page boundaries, so that no page behind the one with its end is read.
-/
namespace VibeOS.Process
open Mm (pageSize4K)
open Lib

/-- `user_range_ok`: the range may be handed to the port. -/
def userRangeOk (addr len : Nat) : Bool :=
  if len = 0 then decide (addr < userMapEnd)
  else if addr + len < 2 ^ 64 then decide (nullGuardLen ≤ addr ∧ addr + len ≤ userMapEnd)
  else false

inductive Fault where
  | fault
  deriving DecidableEq, Repr

/-- The port's copy from a user address into a buffer: the bytes it left uncopied, and the
buffer. -/
abbrev CopyIn : Type := Nat → List UInt8 → Nat × List UInt8

/-- What a copy from user memory returned, the buffer it left, and the ranges it had the port read,
with their lengths. -/
structure Copied (α : Type) where
  result : α
  buf : List UInt8
  reads : List (Nat × Nat)
  deriving DecidableEq

def copyFromUserPartial (port : CopyIn) (dst : List UInt8) (src : Nat) : Copied Nat :=
  let n := dst.length
  if !userRangeOk src n then ⟨0, dst, []⟩
  else if n = 0 then ⟨0, dst, []⟩
  else
    let (left, dst) := port src dst
    ⟨n - left, dst, [(src, n)]⟩

def copyFromUser (port : CopyIn) (dst : List UInt8) (src : Nat) : Copied (Except Fault Unit) :=
  if userRangeOk src dst.length then
    let c := copyFromUserPartial port dst src
    ⟨if c.result = dst.length then .ok () else .error .fault, c.buf, c.reads⟩
  else ⟨.error .fault, dst, []⟩

/-- The chunk of a string at `va`: up to the end of its page, of the buffer or of user space. -/
def chunkLen (va room : Nat) : Nat :=
  min (min room (pageSize4K - va % pageSize4K)) (userMapEnd - va)

/-- The loop of `strncpy_from_user`, into a buffer of `n` bytes, from `pos` on. -/
def strncpyFrom (port : CopyIn) (src n : Nat) (out : List UInt8) (pos : Nat)
    (reads : List (Nat × Nat)) : Copied (Except Fault Nat) :=
  if _h : pos < n then
    let va := src + pos
    if 2 ^ 64 ≤ va then ⟨.error .fault, out, reads⟩
    else if _hend : userMapEnd ≤ va then ⟨.error .fault, out, reads⟩
    else
      let chunk := chunkLen va (n - pos)
      if n < pos + chunk then ⟨.error .fault, out, reads⟩
      else
        let c := copyFromUser port ((out.drop pos).take chunk) va
        let out := out.take pos ++ c.buf ++ out.drop (pos + chunk)
        let reads := reads ++ c.reads
        match c.result with
        | .error e => ⟨.error e, out, reads⟩
        | .ok () =>
          match c.buf.findIdx? (· == 0) with
          | some i => ⟨.ok (pos + i), out, reads⟩
          | none => strncpyFrom port src n out (pos + chunk) reads
  else ⟨.ok n, out, reads⟩
termination_by n - pos
decreasing_by
  have hpage := Nat.mod_lt (src + pos) (show 0 < pageSize4K by decide)
  unfold chunkLen
  omega

def strncpyFromUser (port : CopyIn) (out : List UInt8) (src : Nat) : Copied (Except Fault Nat) :=
  strncpyFrom port src out.length out 0 []

/-- User memory: which pages are mapped, and its bytes. -/
structure UserMem where
  mapped : Nat → Bool
  bytes : Memory

/-- The port copies a range in full exactly when all its pages are mapped. -/
structure CopyIn.Copies (port : CopyIn) (u : UserMem) : Prop where
  length : ∀ src dst, (port src dst).2.length = dst.length
  all : ∀ src dst, dst ≠ [] →
    ((port src dst).1 = 0 ↔ ∀ i < dst.length, u.mapped ((src + i) / pageSize4K) = true)
  bytes : ∀ src dst, (port src dst).1 = 0 → (port src dst).2 = u.bytes.slice src dst.length

/-- The page of `a` is mapped and lies in user space. -/
def UserMem.Readable (u : UserMem) (a : Nat) : Prop :=
  u.mapped (a / pageSize4K) = true ∧ nullGuardLen ≤ a / pageSize4K * pageSize4K ∧
    a / pageSize4K * pageSize4K + pageSize4K ≤ userMapEnd

/-- The length of the string at `src` in the first `n` bytes: where the first NUL is, or `n`. -/
def UserMem.strLen (u : UserMem) (src n : Nat) : Nat :=
  (u.bytes.slice src n).findIdx (· == 0)

section
variable {port : CopyIn} {u : UserMem} {src n pos k : Nat} {out : List UInt8}
  {reads : List (Nat × Nat)}

/-- What a call has done that returned, when the string's length is `k`: it is copied when its
pages can be read, and no page behind that of its end was read. -/
structure StringCopied (u : UserMem) (src n k : Nat) (r : Copied (Except Fault Nat)) : Prop where
  ok : (∀ i < n, i ≤ k → u.Readable (src + i)) →
    r.result = .ok k ∧ r.buf.take (min (k + 1) n) = u.bytes.slice src (min (k + 1) n)
  error : ¬ (∀ i < n, i ≤ k → u.Readable (src + i)) → r.result = .error .fault
  reads : k < n → ∀ a ∈ r.reads, ∀ j < a.2, (a.1 + j) / pageSize4K ≤ (src + k) / pageSize4K

theorem readable_iff {a : Nat} : u.Readable a ↔
    u.mapped (a / pageSize4K) = true ∧ nullGuardLen ≤ a ∧ a < userMapEnd := by
  have hpage : pageSize4K = 4096 := rfl
  have hguard : nullGuardLen = 4096 := rfl
  have hend : userMapEnd = 0x7FFFFFFFF * 4096 := rfl
  unfold UserMem.Readable
  rw [hpage, hguard, hend]
  refine and_congr_right fun _ => ?_
  omega

theorem copyFromUser_chunk (hport : port.Copies u) {va : Nat} {dst : List UInt8}
    (hdst : dst ≠ []) (hend : va + dst.length ≤ userMapEnd)
    (hpage : ∀ i < dst.length, (va + i) / pageSize4K = va / pageSize4K) :
    u.Readable va ∧ copyFromUser port dst va =
        ⟨.ok (), u.bytes.slice va dst.length, [(va, dst.length)]⟩ ∨
      ¬ u.Readable va ∧ (copyFromUser port dst va).result = .error .fault ∧
        ∀ a ∈ (copyFromUser port dst va).reads, a = (va, dst.length) := by
  have hlen : 0 < dst.length := List.length_pos_iff.mpr hdst
  have hfit : userMapEnd < 2 ^ 64 := by decide
  have hrange : userRangeOk va dst.length = decide (nullGuardLen ≤ va) := by
    unfold userRangeOk
    rw [if_neg (by omega), if_pos (by omega)]
    simp [hend]
  by_cases hguard : nullGuardLen ≤ va
  · have hcopy : copyFromUser port dst va =
        ⟨if dst.length - (port va dst).1 = dst.length then .ok () else .error .fault,
          (port va dst).2, [(va, dst.length)]⟩ := by
      simp [copyFromUser, copyFromUserPartial, hrange, hguard, hdst]
    rw [hcopy]
    by_cases hall : (port va dst).1 = 0
    · left
      have hmapped := (hport.all va dst hdst).mp hall 0 hlen
      refine ⟨readable_iff.mpr ⟨hmapped, hguard, by omega⟩, ?_⟩
      rw [if_pos (by omega), hport.bytes va dst hall]
    · right
      refine ⟨fun hread => hall ((hport.all va dst hdst).mpr fun i hi => ?_), ?_, by simp⟩
      · rw [hpage i hi]
        exact (readable_iff.mp hread).1
      · exact if_neg (by omega)
  · right
    have hcopy : copyFromUser port dst va = ⟨.error .fault, dst, []⟩ := by
      simp [copyFromUser, hrange, hguard]
    rw [hcopy]
    exact ⟨fun hread => hguard (readable_iff.mp hread).2.1, rfl, by simp⟩

theorem chunkLen_spec {va room : Nat} (hva : va < userMapEnd) (hroom : 0 < room) :
    0 < chunkLen va room ∧ chunkLen va room ≤ room ∧ va + chunkLen va room ≤ userMapEnd ∧
      ∀ i < chunkLen va room, (va + i) / pageSize4K = va / pageSize4K := by
  have hpage : pageSize4K = 4096 := rfl
  unfold chunkLen
  rw [hpage]
  exact ⟨by omega, by omega, by omega, fun i hi => by omega⟩

theorem getElem_slice {m : Memory} {a i : Nat} (h : i < (m.slice a n).length) :
    (m.slice a n)[i] = m (a + i) := by
  simp [Memory.slice]

/-- No access goes to a page behind page `p`. -/
def ReadsTo (p : Nat) (reads : List (Nat × Nat)) : Prop :=
  ∀ a ∈ reads, ∀ j < a.2, (a.1 + j) / pageSize4K ≤ p

theorem ReadsTo.append {p q va len : Nat} {new : List (Nat × Nat)} (h : ReadsTo p reads)
    (hpq : p ≤ q) (hnew : ∀ a ∈ new, a = (va, len))
    (hpage : ∀ j < len, (va + j) / pageSize4K = p) : ReadsTo q (reads ++ new) := by
  intro a ha j hj
  rcases List.mem_append.mp ha with ha | ha
  · exact (h a ha j hj).trans hpq
  · rw [hnew a ha] at hj ⊢
    exact (hpage j hj).le.trans hpq

variable (hnul : ∀ i < k, u.bytes (src + i) ≠ 0) (hstop : k < n → u.bytes (src + k) = 0)
  (hpos : pos ≤ k)

include hnul hstop hpos in
theorem eq_of_nul_found {chunk i : Nat} (hroom : pos + chunk ≤ n)
    (hi : (u.bytes.slice (src + pos) chunk).findIdx? (· == 0) = some i) :
    k = pos + i ∧ i < chunk := by
  obtain ⟨hin, hzero, hbefore⟩ := List.findIdx?_eq_some_iff_getElem.mp hi
  simp only [getElem_slice, beq_iff_eq, Memory.length_slice] at hin hzero hbefore
  refine ⟨le_antisymm ?_ ?_, hin⟩
  · by_contra hgt
    exact hnul (pos + i) (by omega) (by rwa [← Nat.add_assoc])
  · by_contra hgt
    refine hbefore (k - pos) (by omega) ?_
    rw [show src + pos + (k - pos) = src + k by omega]
    exact hstop (by omega)

include hstop hpos in
theorem le_of_no_nul {chunk : Nat} (hroom : pos + chunk ≤ n)
    (hnone : (u.bytes.slice (src + pos) chunk).findIdx? (· == 0) = none) : pos + chunk ≤ k := by
  by_contra hgt
  have hmem : u.bytes (src + k) ∈ u.bytes.slice (src + pos) chunk :=
    List.mem_map.mpr ⟨k - pos, List.mem_range.mpr (by omega), congrArg u.bytes (by omega)⟩
  simpa [hstop (by omega)] using List.findIdx?_eq_none_iff.mp hnone _ hmem

include hnul hstop hpos in
theorem strncpyFrom_copied (hport : port.Copies u) (hk : k ≤ n) (hlen : out.length = n)
    (hout : out.take pos = u.bytes.slice src pos)
    (hread : ∀ i < pos, u.Readable (src + i))
    (hreads : ReadsTo ((src + pos) / pageSize4K) reads) :
    StringCopied u src n k (strncpyFrom port src n out pos reads) := by
  induction hm : n - pos using Nat.strongRecOn generalizing pos out reads with
  | ind m ih =>
    rw [strncpyFrom]
    split
    case isFalse h =>
      obtain rfl : pos = n := by omega
      obtain rfl : k = pos := by omega
      refine ⟨fun _ => ⟨rfl, ?_⟩, fun h => absurd (fun i hi _ => hread i hi) h, by omega⟩
      rw [Nat.min_eq_right (by omega)]
      exact hout
    case isTrue hlt =>
      have hnear : (src + pos) / pageSize4K ≤ (src + k) / pageSize4K :=
        Nat.div_le_div_right (by omega)
      -- a page outside of user space ends the call
      have houtside (h : userMapEnd ≤ src + pos) :
          StringCopied u src n k ⟨.error .fault, out, reads⟩ := by
        refine ⟨fun hall => ?_, fun _ => rfl, fun _ a ha j hj => (hreads a ha j hj).trans hnear⟩
        have := (readable_iff.mp (hall pos hlt hpos)).2.2
        omega
      have hfit : userMapEnd < 2 ^ 64 := by decide
      dsimp only
      split
      · exact houtside (by omega)
      split
      · exact houtside (by omega)
      rename_i hend
      obtain ⟨hchunk, hroom, hspace, hpage⟩ := chunkLen_spec (Nat.lt_of_not_le hend)
        (Nat.sub_pos_of_lt hlt)
      generalize chunkLen (src + pos) (n - pos) = chunk at *
      rw [if_neg (by omega)]
      have hdst : ((out.drop pos).take chunk).length = chunk := by
        rw [List.length_take, List.length_drop]
        omega
      have hne : (out.drop pos).take chunk ≠ [] := by
        rw [← List.length_pos_iff, hdst]
        exact hchunk
      have hcopy := copyFromUser_chunk hport hne (by rwa [hdst]) (by rwa [hdst])
      rw [hdst] at hcopy
      rcases hcopy with ⟨hpos', hcopy⟩ | ⟨hpos', hfault, honly⟩
      · rw [hcopy]
        dsimp only
        have hchunkRead : ∀ i < pos + chunk, u.Readable (src + i) := by
          intro i hi
          rcases Nat.lt_or_ge i pos with hi' | hi'
          · exact hread i hi'
          · obtain ⟨hmapped, hguard, -⟩ := readable_iff.mp hpos'
            have hsame := hpage (i - pos) (by omega)
            rw [show src + pos + (i - pos) = src + i by omega] at hsame
            exact readable_iff.mpr ⟨by rwa [hsame], by omega, by omega⟩
        have htaken : (out.take pos ++ u.bytes.slice (src + pos) chunk ++
            out.drop (pos + chunk)).take (pos + chunk) = u.bytes.slice src (pos + chunk) := by
          rw [hout, ← Memory.slice_add]
          exact List.take_left' Memory.length_slice
        split
        · rename_i i hi
          obtain ⟨rfl, hin⟩ := eq_of_nul_found hnul hstop hpos (by omega) hi
          refine ⟨fun _ => ⟨rfl, ?_⟩, fun h => absurd (fun j _ hj => hchunkRead j (by omega)) h,
            fun _ => hreads.append hnear (by simp) hpage⟩
          rw [Nat.min_eq_left (by omega)]
          calc _ = ((out.take pos ++ u.bytes.slice (src + pos) chunk ++
                out.drop (pos + chunk)).take (pos + chunk)).take (pos + i + 1) := by
                rw [List.take_take, Nat.min_eq_left (by omega)]
            _ = u.bytes.slice src (pos + i + 1) := by
                have hcut := Memory.take_drop_slice (m := u.bytes) (a := src) (i := 0)
                  (show 0 + (pos + i + 1) ≤ pos + chunk by omega)
                rwa [htaken]
        · rename_i hnone
          have hpast := le_of_no_nul hstop hpos (by omega) hnone
          refine ih (n - (pos + chunk)) (by omega) hpast ?_ htaken hchunkRead ?_ rfl
          · simp only [List.length_append, List.length_take, List.length_drop,
              Memory.length_slice]
            omega
          · exact hreads.append (Nat.div_le_div_right (by omega)) (by simp) hpage
      · generalize copyFromUser port ((out.drop pos).take chunk) (src + pos) = c at *
        rw [hfault]
        exact ⟨fun hall => absurd (hall pos hlt hpos) hpos', fun _ => rfl,
          fun _ => hreads.append hnear honly hpage⟩

/-- Copying a user string gives its length and its bytes exactly when every page of them can be
read, a fault otherwise, and never reads a page behind the one with its NUL. -/
theorem user_string (port : CopyIn) (u : UserMem) (hport : port.Copies u) (out : List UInt8)
    (src : Nat) :
    StringCopied u src out.length (u.strLen src out.length) (strncpyFromUser port out src) := by
  have hle : u.strLen src out.length ≤ out.length := by
    have h : u.strLen src out.length ≤ (u.bytes.slice src out.length).length :=
      List.findIdx_le_length
    rwa [Memory.length_slice] at h
  refine strncpyFrom_copied ?_ ?_ (Nat.zero_le _) hport hle rfl (by simp [Memory.slice]) nofun nofun
  · intro i hi
    have := List.not_of_lt_findIdx hi
    simpa [getElem_slice] using this
  · intro hlt
    have hfound : (u.bytes.slice src out.length).findIdx? (· == 0) =
        some (u.strLen src out.length) :=
      List.findIdx?_eq_some_iff_findIdx_eq.mpr ⟨by rwa [Memory.length_slice], rfl⟩
    obtain ⟨_, hzero, _⟩ := List.findIdx?_eq_some_iff_getElem.mp hfound
    simpa [getElem_slice] using hzero

/-- A port that copies nothing of a range it cannot copy in full. -/
def exactPort (u : UserMem) : CopyIn := fun src dst =>
  if (List.range dst.length).all fun i => u.mapped ((src + i) / pageSize4K) then
    (0, u.bytes.slice src dst.length)
  else (dst.length, dst)

theorem exactPort_copies (u : UserMem) : (exactPort u).Copies u where
  length src dst := by
    unfold exactPort
    split <;> simp
  all src dst hdst := by
    unfold exactPort
    split
    · rename_i hall
      simpa using hall
    · rename_i hnot
      simpa [hdst] using hnot
  bytes src dst hleft := by
    unfold exactPort at *
    split
    · rfl
    · rename_i hnot
      rw [if_neg hnot] at hleft
      obtain rfl : dst = [] := List.eq_nil_of_length_eq_zero hleft
      rfl

end

/-- A string that ends with the last byte of its page, in front of one that is not mapped. -/
theorem user_string_pageEnd :
    let u : UserMem := ⟨fun page => page == 1, fun a => if a = 8191 then 0 else 97⟩
    (strncpyFromUser (exactPort u) [1, 2, 3, 4] 8190).result = .ok 1 ∧
      ∀ a ∈ (strncpyFromUser (exactPort u) [1, 2, 3, 4] 8190).reads, ∀ j < a.2,
        (a.1 + j) / pageSize4K ≤ 1 := by
  intro u
  have hlen : u.strLen 8190 4 = 1 := by decide
  have hcopied := user_string (exactPort u) u (exactPort_copies u) [1, 2, 3, 4] 8190
  have hread : ∀ i < 4, i ≤ 1 → u.Readable (8190 + i) := by
    unfold UserMem.Readable
    decide
  rw [show [1, 2, 3, (4 : UInt8)].length = 4 from rfl, hlen] at hcopied
  exact ⟨(hcopied.ok hread).1, hcopied.reads (by decide)⟩

end VibeOS.Process
