import Mathlib.Data.List.Basic
import VibeOS.Lib.Framing

/-!
Lines on the console UART. A kernel line starts with the frame byte, and the bytes that could end it
or start another print as a substitute; the bytes of a process carry no frame. A write for a process
keeps the flag of an open line in step with every byte, since a panic dump may cut it off between
two of its stores and go on with kernel lines. Whenever the flag is down, the last byte sent ended a
line; so every frame byte starts a line, and the framed lines of the stream are the kernel's.
-/
namespace VibeOS.Log
open Lib

def frame : UInt8 := 0x1E

def subst : UInt8 := '?'.toUInt8

def cr : UInt8 := '\r'.toUInt8

def lf : UInt8 := '\n'.toUInt8

/-- The content without the newline that ends it. -/
def body (content : List UInt8) : List UInt8 :=
  if content.getLast? = some lf then content.dropLast else content

def escape (b : UInt8) : UInt8 := if b = cr || b = lf || b = frame then subst else b

def kernelLine (userOpen : Bool) (content : List UInt8) : List UInt8 :=
  (if userOpen then [cr, lf] else []) ++ frame :: (body content).map escape ++ [cr, lf]

/-- What `user_bytes` puts out, and whether a line is open after it. -/
def userBytes (wasOpen : Bool) : List UInt8 → List UInt8 × Bool
  | [] => ([], wasOpen)
  | b :: bytes =>
    if b = lf then
      let (out, isOpen) := userBytes false bytes
      (cr :: lf :: out, isOpen)
    else if b = frame then
      let (out, isOpen) := userBytes true bytes
      (subst :: out, isOpen)
    else
      let (out, isOpen) := userBytes true bytes
      (b :: out, isOpen)

/-- The flag of an open user line, and the bytes sent so far. -/
structure Uart where
  userOpen : Bool
  sent : List UInt8
  deriving DecidableEq, Repr

/-- The last byte of the loader is unknown, so a line counts as open. -/
def Uart.boot : Uart := ⟨true, []⟩

def putLine (s : Uart) (content : List UInt8) : Uart :=
  ⟨false, s.sent ++ kernelLine s.userOpen content⟩

/-- The stores of a write: to the flag, and to the data register. -/
inductive Act where
  | store (isOpen : Bool)
  | send (b : UInt8)
  deriving DecidableEq, Repr

def Uart.act (s : Uart) : Act → Uart
  | .store isOpen => { s with userOpen := isOpen }
  | .send b => { s with sent := s.sent ++ [b] }

/-- The stores around one byte of `put_user`. -/
def putUserByte (b : UInt8) : List Act :=
  (if b ≠ lf then [.store true] else []) ++ .send b :: if b = lf then [.store false] else []

/-- The stores of `put_user`, in order. -/
def putUserActs (s : Uart) (bytes : List UInt8) : List Act :=
  let (out, isOpen) := userBytes s.userOpen bytes
  out.flatMap putUserByte ++ [.store isOpen]

def putUser (s : Uart) (bytes : List UInt8) : Uart :=
  (putUserActs s bytes).foldl Uart.act s

/-- A write that is cut after `n` of its stores. -/
def cutUser (s : Uart) (bytes : List UInt8) (n : Nat) : Uart :=
  ((putUserActs s bytes).take n).foldl Uart.act s

inductive Call where
  | line (content : List UInt8)
  | user (bytes : List UInt8)
  deriving DecidableEq, Repr

def Uart.call (s : Uart) : Call → Uart
  | .line content => putLine s content
  | .user bytes => putUser s bytes

/-- The calls of a run; the last write for a process, if it is cut off, and after how many of its
stores; and the lines of the dump that cut it. -/
structure Run where
  calls : List Call
  cut : Option (List UInt8 × Nat)
  dump : List (List UInt8)
  deriving DecidableEq, Repr

def Run.stream (r : Run) : List UInt8 :=
  let s := r.calls.foldl Uart.call .boot
  let s := match r.cut with
    | some (bytes, n) => cutUser s bytes n
    | none => s
  (r.dump.foldl putLine s).sent

def Call.content? : Call → Option (List UInt8)
  | .line content => some content
  | .user _ => none

/-- What the kernel wrote, line by line. -/
def Run.contents (r : Run) : List (List UInt8) := r.calls.filterMap Call.content? ++ r.dump

/-- A kernel line as it appears between its frame and its end. -/
def framedLine (content : List UInt8) : List UInt8 := (body content).map escape ++ [cr]

/-- The stream has the kernel's lines, and ends in a complete line while no user line is open. -/
structure Inv (s : Uart) (contents : List (List UInt8)) : Prop where
  framed : Framed lf frame s.sent (contents.map framedLine)
  fresh : s.userOpen = false → ∃ l, s.sent = l ++ [lf]

variable {s : Uart} {contents : List (List UInt8)} {out : List UInt8}

theorem escape_ne (b : UInt8) : escape b ≠ lf ∧ escape b ≠ frame := by
  unfold escape
  split
  · decide
  · rename_i h
    simp only [Bool.or_eq_true, decide_eq_true_eq, not_or] at h
    exact ⟨h.1.2, h.2⟩

theorem framedLine_clean (content : List UInt8) :
    frame ∉ framedLine content ∧ lf ∉ framedLine content := by
  have h : ∀ b ∈ framedLine content, b ≠ lf ∧ b ≠ frame := by
    intro b hb
    rcases List.mem_append.mp hb with hb | hb
    · obtain ⟨c, -, rfl⟩ := List.mem_map.mp hb
      exact escape_ne c
    · rw [List.mem_singleton.mp hb]
      decide
  exact ⟨fun hm => (h _ hm).2 rfl, fun hm => (h _ hm).1 rfl⟩

theorem Inv.boot : Inv .boot [] := ⟨Framed.nil, nofun⟩

theorem Inv.putLine (h : Inv s contents) (content : List UInt8) :
    Inv (putLine s content) (contents ++ [content]) := by
  obtain ⟨l, hl, hfresh⟩ : ∃ l, s.sent ++ (if s.userOpen then [cr, lf] else []) = l ++ [lf] ∧
      Framed lf frame (l ++ [lf]) (contents.map framedLine) := by
    cases ho : s.userOpen with
    | true =>
      refine ⟨s.sent ++ [cr], by simp, ?_⟩
      exact (h.framed.push (by decide)).push (by decide)
    | false =>
      obtain ⟨l, hl⟩ := h.fresh ho
      refine ⟨l, by simpa using hl, hl ▸ h.framed⟩
  have hsent : (Log.putLine s content).sent = l ++ [lf] ++ frame :: framedLine content ++ [lf] := by
    simp only [Log.putLine, kernelLine, framedLine, ← hl, List.append_assoc, List.cons_append,
      List.nil_append]
  obtain ⟨hm, hs⟩ := framedLine_clean content
  refine ⟨?_, fun _ => ⟨_, hsent⟩⟩
  rw [hsent, List.map_append]
  exact hfresh.line (by decide) hm hs

theorem Inv.dump (h : Inv s contents) (dump : List (List UInt8)) :
    Inv (dump.foldl Log.putLine s) (contents ++ dump) := by
  induction dump generalizing s contents with
  | nil => rwa [List.append_nil]
  | cons content dump ih =>
    rw [List.append_cons]
    exact ih (h.putLine content)

theorem Inv.send (h : Inv s contents) {b : UInt8} (hb : b ≠ frame)
    (ho : s.userOpen = true ∨ b = lf) :
    Inv (s.act (.send b)) contents := by
  refine ⟨h.framed.push hb, fun hclosed => ?_⟩
  rcases ho with ho | rfl
  · exact absurd (ho.symm.trans hclosed) (by decide)
  · exact ⟨s.sent, rfl⟩

theorem Inv.putUserByte (h : Inv s contents) {b : UInt8} (hb : b ≠ frame) (n : Nat) :
    Inv (((putUserByte b).take n).foldl Uart.act s) contents := by
  by_cases hlf : b = lf
  · subst hlf
    have hsent := h.send hb (.inr rfl)
    match n with
    | 0 => exact h
    | 1 => exact hsent
    | n + 2 =>
      rw [List.take_of_length_le (Nat.le_add_left 2 n)]
      exact ⟨hsent.framed, fun _ => ⟨s.sent, rfl⟩⟩
  · have hacts : Log.putUserByte b = [.store true, .send b] := by
      rw [Log.putUserByte, if_pos hlf, if_neg hlf]
      rfl
    have hraised : Inv (s.act (.store true)) contents := ⟨h.framed, nofun⟩
    rw [hacts]
    match n with
    | 0 => exact h
    | 1 => exact hraised
    | n + 2 =>
      rw [List.take_of_length_le (Nat.le_add_left 2 n)]
      exact hraised.send hb (.inl rfl)

theorem Inv.bytes (h : Inv s contents) (hout : frame ∉ out) (n : Nat) :
    Inv (((out.flatMap Log.putUserByte).take n).foldl Uart.act s) contents := by
  induction out generalizing s n with
  | nil =>
    rw [List.flatMap_nil, List.take_nil]
    exact h
  | cons b out ih =>
    rw [List.mem_cons, not_or] at hout
    rw [List.flatMap_cons, List.take_append, List.foldl_append]
    exact ih (h.putUserByte (Ne.symm hout.1) n) hout.2 _

theorem userBytes_clean (wasOpen : Bool) (bytes : List UInt8) :
    frame ∉ (userBytes wasOpen bytes).1 := by
  induction bytes generalizing wasOpen with
  | nil => nofun
  | cons b bytes ih =>
    rw [userBytes]
    split
    · simp only [List.mem_cons, not_or]
      exact ⟨by decide, by decide, ih false⟩
    split
    · simp only [List.mem_cons, not_or]
      exact ⟨by decide, ih true⟩
    · rename_i hb
      simp only [List.mem_cons, not_or]
      exact ⟨Ne.symm hb, ih true⟩

theorem userOpen_bytes (s : Uart) (bytes : List UInt8) :
    (((userBytes s.userOpen bytes).1.flatMap putUserByte).foldl Uart.act s).userOpen =
      (userBytes s.userOpen bytes).2 := by
  induction bytes generalizing s with
  | nil => rfl
  | cons b bytes ih =>
    rw [userBytes]
    split
    · exact ih ⟨false, s.sent ++ [cr] ++ [lf]⟩
    split
    · exact ih ⟨true, s.sent ++ [subst]⟩
    · rename_i hlf hframe
      have hacts : putUserByte b = [.store true, .send b] := by
        rw [putUserByte, if_pos hlf, if_neg hlf]
        rfl
      simp only [List.flatMap_cons, hacts]
      exact ih ⟨true, s.sent ++ [b]⟩

theorem Inv.cutUser (h : Inv s contents) (bytes : List UInt8) (n : Nat) :
    Inv (cutUser s bytes n) contents := by
  have hclean := userBytes_clean s.userOpen bytes
  have hopen := userOpen_bytes s bytes
  rw [Log.cutUser, putUserActs]
  generalize userBytes s.userOpen bytes = r at *
  obtain ⟨out, isOpen⟩ := r
  dsimp only at hclean hopen ⊢
  have hcut := h.bytes hclean n
  rw [List.take_append, List.foldl_append]
  by_cases hle : n ≤ (out.flatMap Log.putUserByte).length
  · rw [Nat.sub_eq_zero_of_le hle]
    exact hcut
  · -- all bytes are out, and the flag is stored as it is
    have hlt := Nat.lt_of_not_le hle
    rw [List.take_of_length_le (Nat.le_of_lt hlt)] at hcut ⊢
    rw [List.take_of_length_le (Nat.sub_pos_of_lt hlt)]
    refine ⟨hcut.framed, fun ho => hcut.fresh ?_⟩
    rw [hopen]
    exact ho

theorem Inv.putUser (h : Inv s contents) (bytes : List UInt8) : Inv (putUser s bytes) contents := by
  have hcut := h.cutUser bytes (putUserActs s bytes).length
  rwa [Log.cutUser, List.take_length] at hcut

theorem Inv.calls (h : Inv s contents) (calls : List Call) :
    Inv (calls.foldl Uart.call s) (contents ++ calls.filterMap Call.content?) := by
  induction calls generalizing s contents with
  | nil =>
    rw [List.filterMap_nil, List.append_nil]
    exact h
  | cons c calls ih =>
    cases c with
    | line content =>
      have := ih (h.putLine content)
      rwa [List.append_assoc] at this
    | user bytes => exact ih (h.putUser bytes)

theorem Run.inv (r : Run) : Framed lf frame r.stream (r.contents.map framedLine) := by
  have hcalls := Inv.boot.calls r.calls
  rw [List.nil_append] at hcalls
  rw [Run.stream, Run.contents]
  cases hcut : r.cut with
  | none => exact (hcalls.dump r.dump).framed
  | some c => exact ((hcalls.cutUser c.1 c.2).dump r.dump).framed

/-- In the stream of every run the frame byte occurs once for each kernel line, after the end of
another line; the framed lines are the kernel's contents, escaped, and no other line has a frame
byte. Runs with the same kernel contents have the same framed lines, whatever processes wrote. -/
theorem kernel_lines_unforged (r : Run) :
    Framed lf frame r.stream (r.contents.map framedLine) ∧
      ∀ r' : Run, r'.contents = r.contents →
        markedLines lf frame r'.stream = markedLines lf frame r.stream :=
  ⟨r.inv, fun r' h => by rw [r'.inv.lines, r.inv.lines, h]⟩

/-- A process sends a frame byte after a newline; then come a kernel line with a newline inside, and
a write that a dump cuts off after the carriage return of its newline. -/
def forgingRun : Run :=
  ⟨[.user [65, 10, 30, 66], .line [67, 10, 68, 10]], some ([30, 10, 69], 4), [[70, 30]]⟩

theorem kernel_lines_unforged_forging :
    forgingRun.stream = [65, 13, 10, 63, 66, 13, 10, 30, 67, 63, 68, 13, 10, 63, 13, 13, 10, 30, 70,
        63, 13, 10] ∧
      Framed 10 30 forgingRun.stream [[67, 63, 68, 13], [70, 63, 13]] :=
  ⟨by decide, (kernel_lines_unforged forgingRun).1⟩

end VibeOS.Log
