import Mathlib.Data.UInt
import Mathlib.Logic.Function.Basic
import Mathlib.Tactic.Common

/-!
The console's text in memory. Text rows are a ring, so that a scroll moves its origin and blanks one
row; each row keeps one span of columns that are not drawn yet, and a redraw takes a piece of the
first such row at a time. Columns and rows are below `2 ^ 16`, so no cast of them is lost.
-/
namespace VibeOS.Console

def fontW : Nat := 8

def fontH : Nat := 8

def pieceBytes : Nat := 16 * 1024

def cellBytes : Nat := fontW * fontH * 4

def pieceCells : Nat := pieceBytes / cellBytes

def maxCols : Nat := 3840 / fontW

def maxRows : Nat := 2160 / fontH

def maxCells : Nat := maxCols * maxRows

def blank : UInt8 := 0x20

/-- Up to `pieceCells` cells of one row. -/
structure Piece where
  row : Nat
  col : Nat
  n : Nat
  deriving DecidableEq, Repr

structure ChunkStats where
  scrolls : Nat
  scrollRows : Nat
  deriving DecidableEq, Repr

/-- The columns of a row that are not drawn. -/
structure Span where
  lo : Nat
  hi : Nat
  deriving DecidableEq, Repr

def Span.empty : Span := ⟨0, 0⟩

def Span.isEmpty (s : Span) : Bool :=
  decide (s.hi ≤ s.lo)

structure TextGrid where
  /-- The array of cells, read and written below `maxCells` only. -/
  cells : Nat → UInt8
  dirty : Nat → Span
  cols : Nat
  rows : Nat
  bannerRows : Nat
  origin : Nat
  col : Nat
  row : Nat
  dirtyFrom : Nat
  scrolled : Nat

namespace TextGrid

def configure (g : TextGrid) (pixelW pixelH bannerRows : Nat) : Bool × TextGrid :=
  let cols := min (pixelW / fontW) maxCols
  let rows := min (pixelH / fontH) maxRows
  let g : TextGrid := ⟨g.cells, fun _ => .empty, 0, 0, 0, 0, 0, 0, 0, 0⟩
  let used := cols * rows
  if cols = 0 ∨ rows = 0 ∨ rows ≤ bannerRows ∨ maxCells < used then (false, g)
  else
    (true, { g with
      cells := fun i => if i < used then blank else g.cells i
      cols, rows, bannerRows, row := bannerRows, dirtyFrom := rows })

def textRows (g : TextGrid) : Nat :=
  g.rows - g.bannerRows

/-- The row of the array that a row of the grid is in. -/
def phys (g : TextGrid) (row : Nat) : Nat :=
  if row < g.bannerRows then row
  else g.bannerRows + (row - g.bannerRows + g.origin) % g.textRows

def index (g : TextGrid) (col row : Nat) : Option Nat :=
  if g.cols ≤ col ∨ g.rows ≤ row then none else some (g.phys row * g.cols + col)

def cell (g : TextGrid) (row col : Nat) : UInt8 :=
  match g.index col row with
  | some i => if i < maxCells then g.cells i else blank
  | none => blank

def mark (g : TextGrid) (row lo hi : Nat) : TextGrid :=
  if row < g.bannerRows ∨ g.rows ≤ row then g
  else
    let hi := min hi g.cols
    if hi ≤ lo then g
    else if maxRows ≤ row then g
    else
      let s := g.dirty row
      { g with
        dirty := Function.update g.dirty row
          (if s.isEmpty then ⟨lo, hi⟩ else ⟨min s.lo lo, max s.hi hi⟩)
        dirtyFrom := min g.dirtyFrom row }

theorem mark_eq (g : TextGrid) (row lo hi : Nat) : g.mark row lo hi =
    { g with dirty := (g.mark row lo hi).dirty, dirtyFrom := (g.mark row lo hi).dirtyFrom } := by
  unfold mark
  dsimp only
  split_ifs <;> rfl

section
variable (g : TextGrid) (row lo hi : Nat)

@[simp] theorem mark_rows : (g.mark row lo hi).rows = g.rows := by
  rw [mark_eq]

@[simp] theorem mark_cols : (g.mark row lo hi).cols = g.cols := by
  rw [mark_eq]

@[simp] theorem mark_bannerRows : (g.mark row lo hi).bannerRows = g.bannerRows := by
  rw [mark_eq]

@[simp] theorem mark_col : (g.mark row lo hi).col = g.col := by
  rw [mark_eq]

@[simp] theorem mark_row : (g.mark row lo hi).row = g.row := by
  rw [mark_eq]

@[simp] theorem mark_scrolled : (g.mark row lo hi).scrolled = g.scrolled := by
  rw [mark_eq]

end

/-- A byte at an index of the array. -/
def setCell (g : TextGrid) (i : Option Nat) (ch : UInt8) : TextGrid :=
  match i with
  | some i => if i < maxCells then { g with cells := Function.update g.cells i ch } else g
  | none => g

def set (g : TextGrid) (col row : Nat) (ch : UInt8) : TextGrid :=
  (g.setCell (g.index col row) ch).mark row col (col + 1)

def scrollOne (g : TextGrid) : TextGrid :=
  let g := { g with origin := (g.origin + 1) % g.textRows }
  let cells :=
    match g.index 0 (g.rows - 1) with
    | some i =>
      if i + g.cols ≤ maxCells then
        fun j => if i ≤ j ∧ j < i + g.cols then blank else g.cells j
      else g.cells
    | none => g.cells
  { g with cells, scrolled := min (g.scrolled + 1) (2 ^ 32 - 1) }

def newline (g : TextGrid) : TextGrid :=
  let g := { g with col := 0 }
  if g.rows ≤ g.row + 1 then g.scrollOne else { g with row := g.row + 1 }

def put (g : TextGrid) (ch : UInt8) : TextGrid :=
  if ch = 0x0A then g.newline
  else if ch = 0x0D then { g with col := 0 }
  else if ch = 0x08 then
    if 0 < g.col then
      let g := { g with col := g.col - 1 }
      g.set g.col g.row blank
    else if g.bannerRows < g.row then
      let g := { g with row := g.row - 1, col := g.cols - 1 }
      g.set g.col g.row blank
    else g
  else
    let g := if g.cols ≤ g.col then g.newline else g
    let g := g.set g.col g.row ch
    { g with col := g.col + 1 }

def markRows (g : TextGrid) (r : Nat) : TextGrid :=
  if r < g.rows then (g.mark r 0 g.cols).markRows (r + 1) else g
termination_by g.rows - r
decreasing_by
  rw [mark_rows]
  omega

def writeChunk (g : TextGrid) (bytes : List UInt8) : ChunkStats × TextGrid :=
  if g.rows = 0 then (⟨0, 0⟩, g)
  else
    let g := bytes.foldl put { g with scrolled := 0 }
    if g.scrolled = 0 then (⟨0, 0⟩, g)
    else
      let scrollRows := min g.scrolled g.textRows
      let g := { g with scrolled := 0 }
      (⟨1, scrollRows⟩, g.markRows g.bannerRows)

/-- The loop of `next_piece`, from row `r` on. -/
def nextPieceFrom (g : TextGrid) (r : Nat) : Option Piece × TextGrid :=
  if r < g.rows then
    if maxRows ≤ r then (none, g)
    else
      let s := g.dirty r
      if s.isEmpty then g.nextPieceFrom (r + 1)
      else
        let n := min (s.hi - s.lo) pieceCells
        let s' : Span := ⟨s.lo + n, s.hi⟩
        (some ⟨r, s.lo, n⟩,
          { g with
            dirty := Function.update g.dirty r (if s'.isEmpty then .empty else s')
            dirtyFrom := r })
  else (none, { g with dirtyFrom := g.rows })
termination_by g.rows - r

def nextPiece (g : TextGrid) : Option Piece × TextGrid :=
  g.nextPieceFrom (max g.dirtyFrom g.bannerRows)

end TextGrid

end VibeOS.Console
