import VibeOS.Console.TextGrid

/-!
The grid is a plain terminal, and a screen redrawn from its pieces shows it. The terminal moves all
its text rows on a scroll; the grid's ring is a view of them. What the screen does not show yet is
in the span of its row, but for the rows a chunk has scrolled, which it marks before it returns.
-/
namespace VibeOS.Console

structure Terminal where
  cols : Nat
  rows : Nat
  bannerRows : Nat
  text : Nat → Nat → UInt8
  col : Nat
  row : Nat

namespace Terminal

/-- Every text row moves up one, and the last is blank. -/
def scroll (t : Terminal) : Terminal :=
  { t with text := fun r c =>
      if r < t.bannerRows then t.text r c
      else if r + 1 < t.rows then t.text (r + 1) c
      else blank }

def newline (t : Terminal) : Terminal :=
  let t := { t with col := 0 }
  if t.rows ≤ t.row + 1 then t.scroll else { t with row := t.row + 1 }

def set (t : Terminal) (ch : UInt8) : Terminal :=
  { t with text := fun r c => if r = t.row ∧ c = t.col then ch else t.text r c }

def put (t : Terminal) (ch : UInt8) : Terminal :=
  if ch = 0x0A then t.newline
  else if ch = 0x0D then { t with col := 0 }
  else if ch = 0x08 then
    if 0 < t.col then { t with col := t.col - 1 }.set blank
    else if t.bannerRows < t.row then { t with row := t.row - 1, col := t.cols - 1 }.set blank
    else t
  else
    let t := if t.cols ≤ t.col then t.newline else t
    let t := t.set ch
    { t with col := t.col + 1 }

end Terminal

namespace TextGrid
variable {g : TextGrid} {r c r' c' lo hi : Nat}

/-- The sizes and the ring of a grid that is configured. -/
structure Shaped (g : TextGrid) : Prop where
  banner : g.bannerRows < g.rows
  rows : g.rows ≤ maxRows
  pos : 0 < g.cols
  cols : g.cols ≤ maxCols
  origin : g.origin < g.textRows

theorem place_inj {p p' n : Nat} (hc : c < n) (hc' : c' < n) (h : p * n + c = p' * n + c') :
    p = p' ∧ c = c' := by
  have hn : 0 < n := by omega
  have hp : p = p' := by
    have := congrArg (· / n) h
    simpa [Nat.add_comm _ c, Nat.add_comm _ c', Nat.add_mul_div_right _ _ hn,
      Nat.div_eq_of_lt hc, Nat.div_eq_of_lt hc'] using this
  subst hp
  exact ⟨rfl, by omega⟩

theorem cell_mark (g : TextGrid) (row lo hi : Nat) : (g.mark row lo hi).cell = g.cell := by
  rw [mark_eq]
  rfl

theorem index_eq (hr : r < g.rows) (hc : c < g.cols) :
    g.index c r = some (g.phys r * g.cols + c) :=
  if_neg (by omega)

section
variable (h : g.Shaped)
include h

theorem Shaped.mark (row lo hi : Nat) : (g.mark row lo hi).Shaped := by
  rw [mark_eq]
  exact ⟨h.banner, h.rows, h.pos, h.cols, h.origin⟩

variable (hr : r < g.rows)
include hr

theorem Shaped.phys_lt : g.phys r < g.rows := by
  have hb := h.banner
  unfold phys
  split
  · omega
  · have hmod := Nat.mod_lt (r - g.bannerRows + g.origin) (show 0 < g.textRows by
      unfold textRows
      omega)
    unfold textRows at hmod ⊢
    omega

theorem Shaped.phys_eq :
    g.phys r = if r < g.bannerRows then r else if r + g.origin < g.rows then r + g.origin else r +
      g.origin - g.textRows := by
  have hb := h.banner
  have ho := h.origin
  unfold phys textRows at *
  split_ifs with h1 h2
  · rfl
  · rw [Nat.mod_eq_of_lt (by omega)]
    omega
  · rw [Nat.mod_eq_sub_mod (by omega), Nat.mod_eq_of_lt (by omega)]
    omega

theorem Shaped.phys_inj (hr' : r' < g.rows) (heq : g.phys r = g.phys r') : r = r' := by
  have hb := h.banner
  have ho := h.origin
  rw [h.phys_eq hr, h.phys_eq hr'] at heq
  unfold textRows at *
  split_ifs at heq <;> omega

variable (hc : c < g.cols)
include hc

theorem Shaped.place_lt : g.phys r * g.cols + c < maxCells := by
  have hp := h.phys_lt hr
  calc g.phys r * g.cols + c < (g.phys r + 1) * g.cols := by
        rw [Nat.succ_mul]
        omega
    _ ≤ maxRows * maxCols := Nat.mul_le_mul (by have := h.rows; omega) h.cols
    _ = maxCells := Nat.mul_comm _ _

theorem Shaped.cell_eq : g.cell r c = g.cells (g.phys r * g.cols + c) := by
  unfold cell
  rw [index_eq hr hc]
  exact if_pos (h.place_lt hr hc)

theorem Shaped.set_eq {ch : UInt8} :
    g.set c r ch =
      { g with cells := Function.update g.cells (g.phys r * g.cols + c) ch }.mark r c (c + 1) := by
  unfold TextGrid.set setCell
  rw [index_eq hr hc]
  dsimp only
  rw [if_pos (h.place_lt hr hc)]

theorem Shaped.cell_set {ch : UInt8} (hr' : r' < g.rows) (hc' : c' < g.cols) :
    (g.set c r ch).cell r' c' = if r' = r ∧ c' = c then ch else g.cell r' c' := by
  rw [h.set_eq hr hc, cell_mark]
  have hshaped : Shaped { g with cells := Function.update g.cells (g.phys r * g.cols + c) ch } :=
    ⟨h.banner, h.rows, h.pos, h.cols, h.origin⟩
  rw [hshaped.cell_eq hr' hc', h.cell_eq hr' hc']
  change Function.update g.cells (g.phys r * g.cols + c) ch (g.phys r' * g.cols + c') = _
  by_cases hsame : r' = r ∧ c' = c
  · obtain ⟨rfl, rfl⟩ := hsame
    rw [if_pos ⟨rfl, rfl⟩, Function.update_self]
  · rw [if_neg hsame, Function.update_of_ne]
    intro heq
    obtain ⟨hp, hcol⟩ := place_inj hc' hc heq
    exact hsame ⟨h.phys_inj hr' hr hp, hcol⟩

end

/-- The grid with the ring turned by one row. -/
def turned (g : TextGrid) : TextGrid :=
  { g with origin := (g.origin + 1) % g.textRows }

theorem Shaped.turned (h : g.Shaped) : g.turned.Shaped :=
  ⟨h.banner, h.rows, h.pos, h.cols, Nat.mod_lt _ (Nat.sub_pos_of_lt h.banner)⟩

theorem Shaped.scrollOne_eq (h : g.Shaped) : g.scrollOne =
    { g.turned with
      cells := fun j =>
        if g.turned.phys (g.rows - 1) * g.cols ≤ j ∧
          j < g.turned.phys (g.rows - 1) * g.cols + g.cols then blank else g.cells j
      scrolled := min (g.scrolled + 1) (2 ^ 32 - 1) } := by
  have hb := h.banner
  have hindex := index_eq (g := g.turned) (show g.rows - 1 < g.rows by omega) h.pos
  have hplace := h.turned.place_lt (show g.rows - 1 < g.rows by omega)
    (show g.cols - 1 < g.cols by have := h.pos; omega)
  have hpos := h.pos
  unfold scrollOne
  rw [show ({ g with origin := (g.origin + 1) % g.textRows } : TextGrid) = g.turned from rfl]
  dsimp only
  rw [show g.turned.index 0 (g.turned.rows - 1) = _ from hindex]
  dsimp only
  rw [if_pos (show _ ≤ _ from ?_)]
  · rfl
  · change g.turned.phys (g.rows - 1) * g.cols + (g.cols - 1) < maxCells at hplace
    change g.turned.phys (g.rows - 1) * g.cols + 0 + g.cols ≤ maxCells
    omega

theorem Shaped.phys_turned (h : g.Shaped) (hr : r < g.rows) : g.turned.phys r =
    if r < g.bannerRows then g.phys r
    else if r + 1 < g.rows then g.phys (r + 1)
    else g.phys g.bannerRows := by
  have hb := h.banner
  have ho := h.origin
  have hpos : 0 < g.textRows := Nat.sub_pos_of_lt hb
  have horigin : g.turned.origin = if g.origin + 1 < g.textRows then g.origin + 1 else 0 := by
    change (g.origin + 1) % g.textRows = _
    split_ifs with hlt
    · exact Nat.mod_eq_of_lt hlt
    · rw [show g.origin + 1 = g.textRows by omega, Nat.mod_self]
  have hturned := h.turned.phys_eq hr
  rw [horigin] at hturned
  change _ = if r < g.bannerRows then r
    else if r + (if g.origin + 1 < g.textRows then g.origin + 1 else 0) < g.rows then
      r + (if g.origin + 1 < g.textRows then g.origin + 1 else 0)
    else r + (if g.origin + 1 < g.textRows then g.origin + 1 else 0) - g.textRows at hturned
  rw [hturned, h.phys_eq hr, h.phys_eq hb]
  unfold textRows at *
  split_ifs <;> try omega
  all_goals
    rw [h.phys_eq (by omega)]
    unfold textRows
    split_ifs <;> omega

theorem Shaped.cell_scrollOne (h : g.Shaped) (hr : r < g.rows) (hc : c < g.cols) :
    g.scrollOne.cell r c =
      if r < g.bannerRows then g.cell r c
      else if r + 1 < g.rows then g.cell (r + 1) c
      else blank := by
  have hb := h.banner
  have hlast : g.rows - 1 < g.rows := by omega
  have hshaped : g.scrollOne.Shaped := by
    rw [h.scrollOne_eq]
    exact ⟨h.turned.banner, h.turned.rows, h.turned.pos, h.turned.cols, h.turned.origin⟩
  have hcell : g.scrollOne.cell r c =
      if g.turned.phys (g.rows - 1) * g.cols ≤ g.turned.phys r * g.cols + c ∧
        g.turned.phys r * g.cols + c < g.turned.phys (g.rows - 1) * g.cols + g.cols then blank
      else g.cells (g.turned.phys r * g.cols + c) := by
    rw [h.scrollOne_eq] at hshaped ⊢
    rw [hshaped.cell_eq hr hc]
    rfl
  rw [hcell]
  by_cases heq : r = g.rows - 1
  · rw [heq, if_pos ⟨by omega, by omega⟩, if_neg (by omega), if_neg (by omega)]
  · rw [if_neg, h.phys_turned hr]
    · split_ifs with h1 h2
      · rw [h.cell_eq hr hc]
      · rw [h.cell_eq h2 hc]
      · omega
    · rintro ⟨hle, hlt⟩
      obtain ⟨hp, -⟩ := place_inj hc
        (show g.turned.phys r * g.cols + c - g.turned.phys (g.rows - 1) * g.cols < g.cols by omega)
        (show g.turned.phys r * g.cols + c = g.turned.phys (g.rows - 1) * g.cols +
          (g.turned.phys r * g.cols + c - g.turned.phys (g.rows - 1) * g.cols) by omega)
      exact heq (h.turned.phys_inj hr hlast hp)

def Marked (g : TextGrid) (r c : Nat) : Prop :=
  (g.dirty r).lo ≤ c ∧ c < (g.dirty r).hi

/-- The marks stay in the grid, and in the rows from `dirtyFrom` on. -/
structure Tidy (g : TextGrid) : Prop where
  inside : ∀ r, (g.dirty r).hi ≤ g.cols
  clean : ∀ r c, g.bannerRows ≤ r → r < g.dirtyFrom → ¬ g.Marked r c

theorem Shaped.mark_text (h : g.Shaped) {row : Nat} (hlow : g.bannerRows ≤ row)
    (hrow : row < g.rows) (hlt : lo < min hi g.cols) : g.mark row lo hi =
      { g with
        dirty := Function.update g.dirty row
          (if (g.dirty row).isEmpty then ⟨lo, min hi g.cols⟩
            else ⟨min (g.dirty row).lo lo, max (g.dirty row).hi (min hi g.cols)⟩)
        dirtyFrom := min g.dirtyFrom row } := by
  have hmax := h.rows
  unfold TextGrid.mark
  dsimp only
  rw [if_neg (by omega), if_neg (by omega), if_neg (by omega)]

theorem Shaped.marked_mark (h : g.Shaped) {row : Nat} (hlow : g.bannerRows ≤ row)
    (hrow : row < g.rows) (hlt : lo < min hi g.cols) (hm : g.Marked r c ∨ r = row ∧ lo ≤ c ∧
      c < min hi g.cols) :
    (g.mark row lo hi).Marked r c := by
  rw [h.mark_text hlow hrow hlt]
  unfold Marked at hm ⊢
  dsimp only
  by_cases hr : r = row
  · subst hr
    rw [Function.update_self]
    unfold Span.isEmpty
    split_ifs with hempty <;> dsimp only <;> simp only [decide_eq_true_eq] at hempty <;> omega
  · rw [Function.update_of_ne hr]
    exact hm.resolve_right fun h => hr h.1

theorem Tidy.mark (ht : g.Tidy) (h : g.Shaped) {row : Nat} (hlow : g.bannerRows ≤ row)
    (hrow : row < g.rows) (hlt : lo < min hi g.cols) : (g.mark row lo hi).Tidy := by
  rw [h.mark_text hlow hrow hlt]
  refine ⟨fun r => ?_, fun r c hr hr' => ?_⟩
  · by_cases heq : r = row
    · subst heq
      have := ht.inside r
      dsimp only
      rw [Function.update_self]
      split_ifs <;> dsimp only <;> omega
    · dsimp only
      rw [Function.update_of_ne heq]
      exact ht.inside r
  · dsimp only at hr hr'
    unfold Marked
    dsimp only
    rw [Function.update_of_ne (by omega)]
    exact ht.clean r c hr (by omega)

end TextGrid

/-- Every cell that the screen does not show is marked. -/
def Shown (screen : Nat → Nat → UInt8) (g : TextGrid) : Prop :=
  ∀ r < g.rows, ∀ c < g.cols, screen r c = g.cell r c ∨ g.bannerRows ≤ r ∧ g.Marked r c

/-- The grid and the terminal have the same text and cursor, and the screen lags behind by what is
marked, unless the chunk being written has scrolled. -/
structure Agrees (screen : Nat → Nat → UInt8) (t : Terminal) (g : TextGrid) : Prop where
  shaped : g.Shaped
  tidy : g.Tidy
  size : t.cols = g.cols ∧ t.rows = g.rows ∧ t.bannerRows = g.bannerRows
  cursor : t.col = g.col ∧ t.row = g.row
  col : g.col ≤ g.cols
  row : g.bannerRows ≤ g.row ∧ g.row < g.rows
  text : ∀ r < g.rows, ∀ c < g.cols, g.cell r c = t.text r c
  banner : ∀ r < g.bannerRows, ∀ c, t.text r c = blank ∧ screen r c = blank
  shown : g.scrolled = 0 → Shown screen g

section
variable {screen : Nat → Nat → UInt8} {t : Terminal} {g : TextGrid}

theorem newline_col (g : TextGrid) : g.newline.col = 0 := by
  unfold TextGrid.newline
  dsimp only
  split_ifs <;> rfl

section
variable (h : Agrees screen t g)
include h

theorem Agrees.move {col row : Nat} (hcol : col ≤ g.cols)
    (hrow : g.bannerRows ≤ row ∧ row < g.rows) :
    Agrees screen { t with col := col, row := row } { g with col := col, row := row } :=
  ⟨⟨h.shaped.banner, h.shaped.rows, h.shaped.pos, h.shaped.cols, h.shaped.origin⟩,
    ⟨h.tidy.inside, h.tidy.clean⟩, h.size, ⟨rfl, rfl⟩, hcol, hrow, h.text, h.banner,
    h.shown⟩

theorem Agrees.scrollOne : Agrees screen t.scroll g.scrollOne := by
  obtain ⟨hcols, hrows, hbanner⟩ := h.size
  have htext (r : Nat) (hr : r < g.rows) (c : Nat) (hc : c < g.cols) :
      g.scrollOne.cell r c = t.scroll.text r c := by
    rw [h.shaped.cell_scrollOne hr hc]
    unfold Terminal.scroll
    dsimp only
    rw [hbanner, hrows]
    split_ifs with h1 h2
    · exact h.text r hr c hc
    · exact h.text (r + 1) h2 c hc
    · rfl
  have hkept (r : Nat) (hr : r < g.bannerRows) (c : Nat) :
      t.scroll.text r c = blank ∧ screen r c = blank := by
    unfold Terminal.scroll
    dsimp only
    rw [hbanner, if_pos hr]
    exact h.banner r hr c
  rw [h.shaped.scrollOne_eq] at htext ⊢
  have hturned := h.shaped.turned
  exact ⟨⟨hturned.banner, hturned.rows, hturned.pos, hturned.cols, hturned.origin⟩,
    ⟨h.tidy.inside, h.tidy.clean⟩, h.size, h.cursor, h.col, h.row, htext, hkept, fun hzero => by
      dsimp only at hzero
      omega⟩

theorem Agrees.newline : Agrees screen t.newline g.newline := by
  obtain ⟨cols, rows, banner, text, col, row⟩ := t
  obtain ⟨rfl, rfl, rfl⟩ := h.size
  obtain ⟨rfl, rfl⟩ := h.cursor
  have hhome := h.move (Nat.zero_le _) h.row
  unfold Terminal.newline TextGrid.newline
  dsimp only
  split_ifs with hlast
  · exact hhome.scrollOne
  · exact hhome.move (Nat.zero_le _) ⟨Nat.le_succ_of_le h.row.1, Nat.lt_of_not_le hlast⟩

theorem Agrees.set (hcol : g.col < g.cols) (ch : UInt8) :
    Agrees screen (t.set ch) (g.set g.col g.row ch) := by
  obtain ⟨cols, rows, banner, text, col, row⟩ := t
  obtain ⟨rfl, rfl, rfl⟩ := h.size
  obtain ⟨rfl, rfl⟩ := h.cursor
  obtain ⟨hlow, hrow⟩ := h.row
  have htext (r : Nat) (hr : r < g.rows) (c : Nat) (hc : c < g.cols) :
      (g.set g.col g.row ch).cell r c = if r = g.row ∧ c = g.col then ch else text r c := by
    rw [h.shaped.cell_set hrow hcol hr hc, h.text r hr c hc]
  have hother (r : Nat) (hr : r < g.rows) (c : Nat) (hc : c < g.cols)
    (hne : ¬ (r = g.row ∧ c = g.col)) :
      (g.set g.col g.row ch).cell r c = g.cell r c := by
    rw [h.shaped.cell_set hrow hcol hr hc, if_neg hne]
  rw [h.shaped.set_eq hrow hcol] at htext hother ⊢
  generalize hg' : ({ g with cells := Function.update g.cells (g.phys g.row * g.cols + g.col) ch } :
    TextGrid) = g' at *
  have hshaped : g'.Shaped := by
    subst hg'
    exact ⟨h.shaped.banner, h.shaped.rows, h.shaped.pos, h.shaped.cols, h.shaped.origin⟩
  have htidy : g'.Tidy := by
    subst hg'
    exact ⟨h.tidy.inside, h.tidy.clean⟩
  have hmarked {r c : Nat} (hm : g.Marked r c ∨ r = g.row ∧ c = g.col) :
      (g'.mark g.row g.col (g.col + 1)).Marked r c := by
    subst hg'
    refine hshaped.marked_mark hlow hrow (Nat.lt_min.mpr ⟨Nat.lt_succ_self _, hcol⟩) ?_
    refine hm.imp id fun ⟨hr, hc⟩ => ⟨hr, hc.ge, ?_⟩
    rw [hc]
    exact Nat.lt_min.mpr ⟨Nat.lt_succ_self _, hcol⟩
  subst hg'
  refine ⟨hshaped.mark _ _ _,
    htidy.mark hshaped hlow hrow (Nat.lt_min.mpr ⟨Nat.lt_succ_self _, hcol⟩), ?_, ?_, ?_, ?_, ?_,
    ?_, ?_⟩
  · simp [Terminal.set]
  · simp [Terminal.set]
  · simpa using h.col
  · simpa using h.row
  · simpa [Terminal.set] using htext
  · intro r hr c
    rw [TextGrid.mark_bannerRows] at hr
    unfold Terminal.set
    dsimp only at hr ⊢
    rw [if_neg fun hsame => by omega]
    exact h.banner r hr c
  · intro hzero r hr c hc
    rw [TextGrid.mark_scrolled] at hzero
    rw [TextGrid.mark_rows] at hr
    rw [TextGrid.mark_cols] at hc
    rw [TextGrid.mark_bannerRows]
    by_cases hsame : r = g.row ∧ c = g.col
    · exact .inr ⟨hsame.1 ▸ hlow, hmarked (.inr hsame)⟩
    · rcases h.shown hzero r hr c hc with hs | ⟨hb, hm⟩
      · exact .inl (hs.trans (hother r hr c hc hsame).symm)
      · exact .inr ⟨hb, hmarked (.inl hm)⟩

theorem Agrees.visible (hcol : g.col < g.cols) (ch : UInt8) :
    Agrees screen { t.set ch with col := (t.set ch).col + 1 }
      { g.set g.col g.row ch with col := (g.set g.col g.row ch).col + 1 } := by
  have hset := h.set hcol ch
  have hmark : (g.set g.col g.row ch).col = g.col ∧ (g.set g.col g.row ch).cols = g.cols := by
    rw [h.shaped.set_eq h.row.2 hcol]
    exact ⟨TextGrid.mark_col _ _ _ _, TextGrid.mark_cols _ _ _ _⟩
  obtain ⟨hcursor, hrow⟩ := hset.cursor
  rw [hcursor]
  generalize t.set ch = t' at *
  obtain ⟨cols, rows, banner, text, col, row⟩ := t'
  obtain rfl : row = _ := hrow
  exact hset.move (by omega) hset.row

theorem Agrees.put (ch : UInt8) : Agrees screen (t.put ch) (g.put ch) := by
  obtain ⟨cols, rows, banner, text, col, row⟩ := t
  obtain ⟨rfl, rfl, rfl⟩ := h.size
  obtain ⟨rfl, rfl⟩ := h.cursor
  have hpos := h.shaped.pos
  have hcol := h.col
  have hrow := h.row
  unfold Terminal.put TextGrid.put
  dsimp only
  split_ifs with hnl hcr hbs hback hup hwrap
  · exact h.newline
  · exact h.move (Nat.zero_le _) h.row
  · exact (h.move (Nat.le_trans (Nat.sub_le _ _) hcol) h.row).set (by dsimp only; omega) blank
  · exact (h.move (Nat.sub_le _ _) ⟨by omega, by omega⟩).set (by dsimp only; omega) blank
  · exact h
  · refine h.newline.visible ?_ ch
    rw [newline_col]
    exact h.newline.shaped.pos
  · exact h.visible (Nat.lt_of_not_le hwrap) ch

theorem Agrees.putAll (bytes : List UInt8) :
    Agrees screen (bytes.foldl Terminal.put t) (bytes.foldl TextGrid.put g) := by
  induction bytes generalizing t g with
  | nil => exact h
  | cons ch bytes ih => exact ih (h.put ch)

end

theorem markRows_spec (hs : g.Shaped) (ht : g.Tidy) {r : Nat} (hr : g.bannerRows ≤ r) :
    ∃ dirty dirtyFrom, g.markRows r = { g with dirty := dirty, dirtyFrom := dirtyFrom } ∧
      (g.markRows r).Tidy ∧ (∀ r' c, g.Marked r' c → (g.markRows r).Marked r' c) ∧
      ∀ r' c, r ≤ r' → r' < g.rows → c < g.cols → (g.markRows r).Marked r' c := by
  induction hk : g.rows - r using Nat.strongRecOn generalizing g r with
  | ind k ih =>
    rw [TextGrid.markRows]
    split
    · rename_i hlt
      have hwide : 0 < min g.cols g.cols := by rw [Nat.min_self]; exact hs.pos
      obtain ⟨dirty, dirtyFrom, heq, htidy, hkeep, hall⟩ :=
        ih (g.rows - (r + 1)) (by omega) (hs.mark r 0 g.cols) (ht.mark hs hr hlt hwide)
          (by rw [TextGrid.mark_bannerRows]; omega) (r := r + 1) (by rw [TextGrid.mark_rows])
      refine ⟨dirty, dirtyFrom, ?_, htidy, fun r' c hm => hkeep r' c ?_, fun r' c hr' hlt' hc => ?_⟩
      · rw [heq, TextGrid.mark_eq]
      · exact hs.marked_mark hr hlt hwide (.inl hm)
      · rcases Nat.eq_or_lt_of_le hr' with rfl | hgt
        · exact hkeep _ c (hs.marked_mark hr hlt hwide (.inr ⟨rfl, Nat.zero_le _, by omega⟩))
        · exact hall r' c hgt (by rwa [TextGrid.mark_rows]) (by rwa [TextGrid.mark_cols])
    · exact ⟨g.dirty, g.dirtyFrom, rfl, ht, fun _ _ h => h, fun r' c h h' => by omega⟩

/-- Between chunks nothing has scrolled that is not marked. -/
structure Settled (screen : Nat → Nat → UInt8) (t : Terminal) (g : TextGrid) : Prop
    extends Agrees screen t g where
  still : g.scrolled = 0

theorem Settled.writeChunk (h : Settled screen t g) (bytes : List UInt8) :
    Settled screen (bytes.foldl Terminal.put t) (g.writeChunk bytes).2 := by
  have hrows : g.rows ≠ 0 := by
    have := h.row
    omega
  have hput : Agrees screen (bytes.foldl Terminal.put t)
      (bytes.foldl TextGrid.put { g with scrolled := 0 }) := by
    have hstart := h.toAgrees.putAll bytes
    rwa [show g = { g with scrolled := 0 } from by rw [← h.still]] at hstart
  unfold TextGrid.writeChunk
  rw [if_neg hrows]
  dsimp only
  generalize bytes.foldl TextGrid.put { g with scrolled := 0 } = g' at hput
  split_ifs with hstill
  · exact ⟨hput, hstill⟩
  · have hshaped : ({ g' with scrolled := 0 } : TextGrid).Shaped :=
      ⟨hput.shaped.banner, hput.shaped.rows, hput.shaped.pos, hput.shaped.cols,
        hput.shaped.origin⟩
    obtain ⟨dirty, dirtyFrom, heq, htidy, -, hall⟩ :=
      markRows_spec hshaped ⟨hput.tidy.inside, hput.tidy.clean⟩ (Nat.le_refl g'.bannerRows)
    dsimp only at heq htidy hall ⊢
    rw [heq] at htidy hall ⊢
    refine ⟨⟨⟨hshaped.banner, hshaped.rows, hshaped.pos, hshaped.cols, hshaped.origin⟩, htidy,
      hput.size, hput.cursor, hput.col, hput.row, hput.text, hput.banner,
      fun _ r hr c hc => ?_⟩, rfl⟩
    by_cases hlow : g'.bannerRows ≤ r
    · exact .inr ⟨hlow, hall r c hlow hr hc⟩
    · obtain ⟨htext, hscreen⟩ := hput.banner r (Nat.lt_of_not_le hlow) c
      exact .inl (hscreen.trans (htext.symm.trans (hput.text r hr c hc).symm))

def draw (screen : Nat → Nat → UInt8) (g : TextGrid) (p : Piece) : Nat → Nat → UInt8 :=
  fun r c => if r = p.row ∧ p.col ≤ c ∧ c < p.col + p.n then g.cell r c else screen r c

/-- A piece of one text row. -/
def Fits (g : TextGrid) (p : Piece) : Prop :=
  g.bannerRows ≤ p.row ∧ p.row < g.rows ∧ 0 < p.n ∧ p.n ≤ pieceCells ∧ p.col + p.n ≤ g.cols

/-- What `next_piece` leaves, as it takes a piece or finds none. -/
def Taken (screen : Nat → Nat → UInt8) (t : Terminal) (g : TextGrid) :
    Option Piece × TextGrid → Prop
  | (some p, g') => Fits g p ∧ Settled (draw screen g p) t g'
  | (none, g') => Settled screen t g' ∧ ∀ r < g.rows, ∀ c < g.cols, screen r c = g.cell r c

theorem Settled.take (h : Settled screen t g) {r : Nat} (hr : g.bannerRows ≤ r) (hlt : r < g.rows)
    (hsome : ¬ (g.dirty r).isEmpty)
    (hclean : ∀ r' c, g.bannerRows ≤ r' → r' < r → ¬ g.Marked r' c) :
    let n := min ((g.dirty r).hi - (g.dirty r).lo) pieceCells
    let rest : Span := ⟨(g.dirty r).lo + n, (g.dirty r).hi⟩
    Taken screen t g (some ⟨r, (g.dirty r).lo, n⟩,
      { g with
        dirty := Function.update g.dirty r (if rest.isEmpty then .empty else rest)
        dirtyFrom := r }) := by
  intro n rest
  have hinside := h.tidy.inside r
  have hspan : (g.dirty r).lo < (g.dirty r).hi := by
    simpa [Span.isEmpty] using hsome
  have hpos : 0 < n := Nat.lt_min.mpr ⟨Nat.sub_pos_of_lt hspan, by decide⟩
  have hn : n ≤ (g.dirty r).hi - (g.dirty r).lo := Nat.min_le_left _ _
  have hrest (c : Nat) : (if rest.isEmpty then Span.empty else rest).lo ≤ c ∧
      c < (if rest.isEmpty then Span.empty else rest).hi ↔
      (g.dirty r).lo + n ≤ c ∧ c < (g.dirty r).hi := by
    unfold Span.isEmpty
    split_ifs with hover
    · have : (g.dirty r).hi ≤ (g.dirty r).lo + n := of_decide_eq_true hover
      simp only [Span.empty]
      omega
    · exact Iff.rfl
  have hmarked (r' c : Nat) : TextGrid.Marked { g with
      dirty := Function.update g.dirty r (if rest.isEmpty then .empty else rest)
      dirtyFrom := r } r' c ↔ if r' = r then (g.dirty r).lo + n ≤ c ∧ c < (g.dirty r).hi
        else g.Marked r' c := by
    unfold TextGrid.Marked
    dsimp only
    by_cases hsame : r' = r
    · rw [if_pos hsame, hsame, Function.update_self]
      exact hrest c
    · rw [if_neg hsame, Function.update_of_ne hsame]
  refine ⟨⟨hr, hlt, hpos, Nat.min_le_right _ _, by dsimp only; omega⟩,
    ⟨⟨⟨h.shaped.banner, h.shaped.rows, h.shaped.pos, h.shaped.cols, h.shaped.origin⟩,
      ⟨fun r' => ?_, fun r' c hb hr' hm => ?_⟩, h.size, h.cursor, h.col, h.row, h.text,
      fun r' hr' c => ?_, fun _ r' hr' c hc => ?_⟩, h.still⟩⟩
  · by_cases hsame : r' = r
    · subst hsame
      dsimp only
      rw [Function.update_self]
      split_ifs
      · exact Nat.zero_le _
      · exact hinside
    · dsimp only
      rw [Function.update_of_ne hsame]
      exact h.tidy.inside r'
  · rw [hmarked, if_neg (Nat.ne_of_lt hr')] at hm
    exact hclean r' c hb hr' hm
  · obtain ⟨htext, hscreen⟩ := h.banner r' hr' c
    refine ⟨htext, ?_⟩
    unfold draw
    rw [if_neg fun hin => by have := hin.1; dsimp only at this hr'; omega]
    exact hscreen
  · change draw screen g _ r' c = g.cell r' c ∨ _
    by_cases hin : r' = r ∧ (g.dirty r).lo ≤ c ∧ c < (g.dirty r).lo + n
    · exact .inl (if_pos hin)
    · rw [show draw screen g ⟨r, (g.dirty r).lo, n⟩ r' c = screen r' c from if_neg hin]
      refine (h.shown h.still r' hr' c hc).imp id fun ⟨hb, hm⟩ => ⟨hb, ?_⟩
      rw [hmarked]
      split_ifs with hsame
      · subst hsame
        have := hm.1
        have := hm.2
        omega
      · exact hm

theorem Settled.nextPieceFrom (h : Settled screen t g) {r : Nat} (hr : g.bannerRows ≤ r)
    (hclean : ∀ r' c, g.bannerRows ≤ r' → r' < r → ¬ g.Marked r' c) :
    Taken screen t g (g.nextPieceFrom r) := by
  have hrows := h.shaped.rows
  induction hk : g.rows - r using Nat.strongRecOn generalizing r with
  | ind k ih =>
    rw [TextGrid.nextPieceFrom]
    by_cases hlt : r < g.rows
    · rw [if_pos hlt, if_neg (by omega)]
      dsimp only
      by_cases hempty : (g.dirty r).isEmpty
      · rw [if_pos hempty]
        refine ih (g.rows - (r + 1)) (by omega) (by omega) (fun r' c hb hr' hm => ?_) rfl
        rcases Nat.lt_succ_iff_lt_or_eq.mp hr' with hr' | rfl
        · exact hclean r' c hb hr' hm
        · have := of_decide_eq_true hempty
          have := hm.1
          have := hm.2
          omega
      · rw [if_neg hempty]
        exact h.take hr hlt hempty hclean
    · rw [if_neg hlt]
      have hnone (r' c : Nat) (hb : g.bannerRows ≤ r') (hr' : r' < g.rows) : ¬ g.Marked r' c :=
        hclean r' c hb (by omega)
      refine ⟨⟨⟨⟨h.shaped.banner, hrows, h.shaped.pos, h.shaped.cols, h.shaped.origin⟩,
        ⟨h.tidy.inside, hnone⟩, h.size, h.cursor, h.col, h.row, h.text, h.banner, h.shown⟩,
        h.still⟩, fun r' hr' c hc => ?_⟩
      exact (h.shown h.still r' hr' c hc).resolve_right fun hm => hnone r' c hm.1 hr' hm.2

theorem Settled.nextPiece (h : Settled screen t g) : Taken screen t g g.nextPiece :=
  h.nextPieceFrom (Nat.le_max_right _ _) fun r' c hb hr' =>
    h.tidy.clean r' c hb (by omega)

end

/-- A call of the console's writers or of its redraw. -/
inductive Op
  | write (bytes : List UInt8)
  | next

/-- The grid, the plain terminal that is given the same bytes, and what has been drawn. -/
structure System where
  grid : TextGrid
  terminal : Terminal
  screen : Nat → Nat → UInt8

namespace System

def step (s : System) : Op → System
  | .write bytes =>
    { s with grid := (s.grid.writeChunk bytes).2, terminal := bytes.foldl Terminal.put s.terminal }
  | .next =>
    match s.grid.nextPiece with
    | (some p, g) => { s with grid := g, screen := draw s.screen s.grid p }
    | (none, g) => { s with grid := g }

def run (s : System) (ops : List Op) : System :=
  ops.foldl step s

/-- A grid that is configured, a blank terminal of its size, and a blank screen. -/
def start (g : TextGrid) : System where
  grid := g
  terminal := ⟨g.cols, g.rows, g.bannerRows, fun _ _ => blank, 0, g.bannerRows⟩
  screen := fun _ _ => blank

def Good (s : System) : Prop :=
  Settled s.screen s.terminal s.grid

theorem Good.step {s : System} (h : s.Good) (op : Op) : (s.step op).Good := by
  cases op with
  | write bytes => exact h.writeChunk bytes
  | next =>
    have htaken := Settled.nextPiece h
    unfold System.step
    dsimp only
    generalize s.grid.nextPiece = r at htaken
    obtain ⟨p | p, g⟩ := r
    · exact htaken.1
    · exact htaken.2

theorem Good.run {s : System} (h : s.Good) (ops : List Op) : (s.run ops).Good := by
  induction ops generalizing s with
  | nil => exact h
  | cons op ops ih => exact ih (h.step op)

theorem good_start {g₀ g : TextGrid} {pixelW pixelH banner : Nat}
    (h : g₀.configure pixelW pixelH banner = (true, g)) : (start g).Good := by
  unfold TextGrid.configure at h
  dsimp only at h
  split_ifs at h with hbad
  · cases congrArg Prod.fst h
  · have hg := (congrArg Prod.snd h).symm
    dsimp only at hg
    rw [not_or, not_or, not_or] at hbad
    obtain ⟨hcols, hrows, hbanner, -⟩ := hbad
    have hshaped : g.Shaped := by
      subst hg
      exact ⟨Nat.lt_of_not_le hbanner, Nat.min_le_right _ _, Nat.pos_of_ne_zero hcols,
        Nat.min_le_right _ _, Nat.sub_pos_of_lt (Nat.lt_of_not_le hbanner)⟩
    have hblank (r : Nat) (hr : r < g.rows) (c : Nat) (hc : c < g.cols) : g.cell r c = blank := by
      have hplace : g.phys r * g.cols + c < g.cols * g.rows :=
        calc g.phys r * g.cols + c < (g.phys r + 1) * g.cols := by
              rw [Nat.succ_mul]
              exact Nat.add_lt_add_left hc _
          _ ≤ g.rows * g.cols := Nat.mul_le_mul_right _ (hshaped.phys_lt hr)
          _ = g.cols * g.rows := Nat.mul_comm _ _
      rw [hshaped.cell_eq hr hc]
      subst hg
      exact if_pos hplace
    have hrow : g.row = g.bannerRows ∧ g.col = 0 ∧ g.scrolled = 0 ∧ g.dirty = fun _ => .empty := by
      subst hg
      exact ⟨rfl, rfl, rfl, rfl⟩
    obtain ⟨hrow, hcol, hscrolled, hdirty⟩ := hrow
    exact ⟨⟨hshaped,
      ⟨fun r => by rw [show (start g).grid.dirty = _ from hdirty]; exact Nat.zero_le _,
        fun r c _ _ hm => by
          rw [TextGrid.Marked, show (start g).grid.dirty = _ from hdirty] at hm
          exact Nat.not_lt_zero _ hm.2⟩,
      ⟨rfl, rfl, rfl⟩, ⟨hcol.symm, hrow.symm⟩, hcol.le.trans (Nat.zero_le _),
      ⟨Nat.le_of_eq hrow.symm, hrow.trans_lt hshaped.banner⟩, hblank,
      fun _ _ _ => ⟨rfl, rfl⟩, fun _ r hr c hc => .inl (hblank r hr c hc).symm⟩, hscrolled⟩

end System

def Op.bytes : Op → List UInt8
  | .write bytes => bytes
  | .next => []

theorem System.run_terminal (s : System) (ops : List Op) :
    (s.run ops).terminal = (ops.flatMap Op.bytes).foldl Terminal.put s.terminal := by
  induction ops generalizing s with
  | nil => rfl
  | cons op ops ih =>
    rw [List.flatMap_cons, List.foldl_append]
    refine (ih (s.step op)).trans ?_
    congr 1
    cases op with
    | write bytes => rfl
    | next =>
      unfold System.step
      dsimp only
      split <;> rfl

theorem Terminal.put_size (t : Terminal) (ch : UInt8) : (t.put ch).cols = t.cols ∧
    (t.put ch).rows = t.rows ∧ (t.put ch).bannerRows = t.bannerRows := by
  have hnewline (t : Terminal) : t.newline.cols = t.cols ∧ t.newline.rows = t.rows ∧
      t.newline.bannerRows = t.bannerRows := by
    unfold Terminal.newline
    dsimp only
    split_ifs <;> exact ⟨rfl, rfl, rfl⟩
  unfold Terminal.put
  dsimp only
  split_ifs
  all_goals first | exact ⟨rfl, rfl, rfl⟩ | exact hnewline t

theorem Terminal.putAll_size (t : Terminal) (bytes : List UInt8) :
    (bytes.foldl Terminal.put t).cols = t.cols ∧ (bytes.foldl Terminal.put t).rows = t.rows ∧
      (bytes.foldl Terminal.put t).bannerRows = t.bannerRows := by
  induction bytes generalizing t with
  | nil => exact ⟨rfl, rfl, rfl⟩
  | cons ch bytes ih =>
    obtain ⟨hcols, hrows, hbanner⟩ := ih (t.put ch)
    obtain ⟨hcols', hrows', hbanner'⟩ := t.put_size ch
    exact ⟨hcols.trans hcols', hrows.trans hrows', hbanner.trans hbanner'⟩

/-- Whatever is written and redrawn, the grid is a plain terminal that is given the same bytes, its
banner stays as it was, every piece is part of one text row, and when no piece is left the screen
is the grid. -/
theorem text_console {g₀ g : TextGrid} {pixelW pixelH banner : Nat}
    (hconf : g₀.configure pixelW pixelH banner = (true, g)) (ops : List Op) :
    let s := (System.start g).run ops
    let t := (ops.flatMap Op.bytes).foldl Terminal.put
      ⟨g.cols, g.rows, g.bannerRows, fun _ _ => blank, 0, g.bannerRows⟩
    (∀ r < g.rows, ∀ c < g.cols, s.grid.cell r c = t.text r c) ∧
      s.grid.col = t.col ∧ s.grid.row = t.row ∧
      (∀ r < g.bannerRows, ∀ c < g.cols, s.grid.cell r c = g.cell r c) ∧
      (∀ p g', s.grid.nextPiece = (some p, g') → Fits g p) ∧
      (s.grid.nextPiece.1 = none → ∀ r < g.rows, ∀ c < g.cols, s.screen r c = s.grid.cell r c) := by
  intro s t
  have hstart := System.good_start hconf
  have hgood : s.Good := hstart.run ops
  have ht : s.terminal = t := System.run_terminal _ _
  obtain ⟨hcols, hrows, hbanner⟩ : s.grid.cols = g.cols ∧ s.grid.rows = g.rows ∧
      s.grid.bannerRows = g.bannerRows := by
    obtain ⟨hc, hr, hb⟩ := hgood.size
    obtain ⟨hc', hr', hb'⟩ := Terminal.putAll_size
      ⟨g.cols, g.rows, g.bannerRows, fun _ _ => blank, 0, g.bannerRows⟩ (ops.flatMap Op.bytes)
    rw [ht] at hc hr hb
    exact ⟨hc.symm.trans hc', hr.symm.trans hr', hb.symm.trans hb'⟩
  have htext (r : Nat) (hr : r < g.rows) (c : Nat) (hc : c < g.cols) :
      s.grid.cell r c = t.text r c := by
    rw [← ht]
    exact hgood.text r (hrows ▸ hr) c (hcols ▸ hc)
  have htaken := Settled.nextPiece hgood
  refine ⟨htext, ?_, ?_, fun r hr c hc => ?_, fun p g' hp => ?_, fun hnone r hr c hc => ?_⟩
  · rw [← ht]
    exact hgood.cursor.1.symm
  · rw [← ht]
    exact hgood.cursor.2.symm
  · have hlt : r < g.rows := Nat.lt_trans hr hstart.shaped.banner
    rw [htext r hlt c hc, ← ht, (hgood.banner r (hbanner ▸ hr) c).1]
    exact (hstart.text r hlt c hc).symm
  · rw [hp] at htaken
    have hfits := htaken.1
    unfold Fits at hfits ⊢
    rwa [hcols, hrows, hbanner] at hfits
  · generalize s.grid.nextPiece = res at htaken hnone
    obtain ⟨p | p, g'⟩ := res
    · exact htaken.2 r (hrows ▸ hr) c (hcols ▸ hc)
    · cases hnone

/-- A banner row and two text rows of two cells. -/
def smallGrid : TextGrid :=
  (TextGrid.configure ⟨fun _ => 0, fun _ => .empty, 0, 0, 0, 0, 0, 0, 0, 0⟩ 16 24 1).2

def smallOps : List Op :=
  [.write [0x61, 0x62, 0x63, 0x0A, 0x64], .next, .next, .next]

theorem text_console_small :
    ((System.start smallGrid).run smallOps).grid.nextPiece.1 = none ∧
      (∀ r < 3, ∀ c < 2, ((System.start smallGrid).run smallOps).screen r c =
        ((System.start smallGrid).run smallOps).grid.cell r c) := by
  have hnone : ((System.start smallGrid).run smallOps).grid.nextPiece.1 = none := by decide +kernel
  exact ⟨hnone, (text_console (show TextGrid.configure _ 16 24 1 = (true, smallGrid) from rfl)
    smallOps).2.2.2.2.2 hnone⟩

end VibeOS.Console
