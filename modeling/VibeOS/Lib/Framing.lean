import Mathlib.Data.List.Basic

/-!
Streams of lines, some of them marked. A line is marked by its first symbol, which occurs nowhere
else. A writer that sends the mark only after the end of a line, and whose marked lines hold
neither the mark nor the end of a line, leaves a stream from which a reader takes exactly those
lines back.
-/
namespace VibeOS.Lib
variable {α : Type} [DecidableEq α] {sep mark b : α} {stream l : List α} {framed : List (List α)}

/-- One more symbol for the complete lines and the line begun. -/
def feedLine (sep : α) (s : List (List α) × List α) (b : α) : List (List α) × List α :=
  if b = sep then (s.1 ++ [s.2], []) else (s.1, s.2 ++ [b])

/-- The complete lines of a stream, without their ends, and what follows the last of them. -/
def splitLines (sep : α) (stream : List α) : List (List α) × List α :=
  stream.foldl (feedLine sep) ([], [])

theorem splitLines_push (sep : α) (stream : List α) (b : α) :
    splitLines sep (stream ++ [b]) = feedLine sep (splitLines sep stream) b :=
  List.foldl_concat ..

theorem splitLines_append (hl : sep ∉ l) (stream : List α) :
    splitLines sep (stream ++ l) = ((splitLines sep stream).1, (splitLines sep stream).2 ++ l) := by
  induction l generalizing stream with
  | nil => simp
  | cons b l ih =>
    rw [List.mem_cons, not_or] at hl
    rw [List.append_cons, ih hl.2, splitLines_push, feedLine, if_neg (Ne.symm hl.1),
      List.append_assoc, List.singleton_append]

/-- The lines a reader takes as marked. -/
def markedLines (sep mark : α) (stream : List α) : List (List α) :=
  (splitLines sep stream).1.filter fun l => l.head? = some mark

/-- The marked lines of the stream are those of `framed`, and no other line has the mark. -/
structure Framed (sep mark : α) (stream : List α) (framed : List (List α)) : Prop where
  count : stream.count mark = framed.length
  placed : ∀ before after, stream = before ++ mark :: after → ∃ l, before = l ++ [sep]
  lines : markedLines sep mark stream = framed.map (mark :: ·)
  plain : ∀ l ∈ (splitLines sep stream).1, l.head? ≠ some mark → mark ∉ l
  rest : mark ∉ (splitLines sep stream).2

namespace Framed

theorem nil : Framed sep mark [] [] :=
  ⟨rfl, fun before after h => by simp at h, rfl, nofun, nofun⟩

theorem push (h : Framed sep mark stream framed) (hb : b ≠ mark) :
    Framed sep mark (stream ++ [b]) framed := by
  have hplaced : ∀ before after, stream ++ [b] = before ++ mark :: after →
      ∃ l, before = l ++ [sep] := by
    intro before after he
    rcases List.eq_nil_or_concat' after with rfl | ⟨after', c, rfl⟩
    · exact absurd (List.append_inj' he rfl).2 (by simpa using hb)
    · refine h.placed before after' ?_
      rw [← List.cons_append, ← List.append_assoc] at he
      exact (List.append_inj' he rfl).1
  have hcount : (stream ++ [b]).count mark = framed.length := by
    rw [List.count_append, h.count, List.count_singleton, if_neg (by simpa using hb)]
    rfl
  by_cases hsep : b = sep
  · subst hsep
    have hhead : (splitLines b stream).2.head? ≠ some mark := fun he =>
      h.rest (List.mem_of_mem_head? he)
    refine ⟨hcount, hplaced, ?_, ?_, ?_⟩
    · have := h.lines
      simp only [markedLines, splitLines_push, feedLine, if_pos] at this ⊢
      rw [List.filter_append, this, List.filter_singleton]
      simp [hhead]
    · simp only [splitLines_push, feedLine, if_pos, List.mem_append, List.mem_singleton]
      rintro l (hl | rfl) hne
      · exact h.plain l hl hne
      · exact h.rest
    · simp [splitLines_push, feedLine]
  · have hsplit : splitLines sep (stream ++ [b]) =
        ((splitLines sep stream).1, (splitLines sep stream).2 ++ [b]) := by
      rw [splitLines_push, feedLine, if_neg hsep]
    refine ⟨hcount, hplaced, ?_, ?_, ?_⟩
    · rw [markedLines, hsplit]
      exact h.lines
    · rw [hsplit]
      exact h.plain
    · rw [hsplit, List.mem_append, List.mem_singleton, not_or]
      exact ⟨h.rest, Ne.symm hb⟩

theorem line (h : Framed sep mark (stream ++ [sep]) framed) (hne : mark ≠ sep) (hm : mark ∉ l)
    (hs : sep ∉ l) : Framed sep mark (stream ++ [sep] ++ mark :: l ++ [sep]) (framed ++ [l]) := by
  have hmark : sep ∉ mark :: l := by
    rw [List.mem_cons, not_or]
    exact ⟨Ne.symm hne, hs⟩
  have hold : splitLines sep (stream ++ [sep]) =
      ((splitLines sep stream).1 ++ [(splitLines sep stream).2], []) := by
    rw [splitLines_push, feedLine, if_pos rfl]
  have hsplit : splitLines sep (stream ++ [sep] ++ mark :: l ++ [sep]) =
      ((splitLines sep (stream ++ [sep])).1 ++ [mark :: l], []) := by
    rw [splitLines_push, splitLines_append hmark, feedLine, if_pos rfl, hold, List.nil_append]
  refine ⟨?_, ?_, ?_, ?_, ?_⟩
  · rw [List.count_append, List.count_append, h.count, List.count_cons_self,
      List.count_eq_zero_of_not_mem hm, List.count_singleton, if_neg (by simpa using Ne.symm hne),
      List.length_append, List.length_singleton]
  · intro before after he
    rw [List.append_assoc] at he
    rcases List.append_eq_append_iff.mp he with ⟨a, ha, he'⟩ | ⟨a, ha, he'⟩
    · cases a with
      | nil => exact ⟨stream, by rw [ha, List.append_nil]⟩
      | cons x a =>
        have htail : l ++ [sep] = a ++ mark :: after := (List.cons.inj he').2
        have hin : mark ∈ l ++ [sep] := by
          rw [htail]
          exact List.mem_append_right _ (List.mem_cons_self ..)
        rw [List.mem_append, List.mem_singleton] at hin
        exact absurd hin (not_or.mpr ⟨hm, hne⟩)
    · cases a with
      | nil => exact ⟨stream, by rw [ha, List.append_nil]⟩
      | cons x a =>
        cases (List.cons.inj he').1
        exact h.placed before a ha
  · rw [markedLines, hsplit, List.filter_append, List.map_append]
    have := h.lines
    rw [markedLines] at this
    rw [this]
    simp
  · rw [hsplit]
    intro l' hl' hhead
    rcases List.mem_append.mp hl' with hl' | hl'
    · exact h.plain l' hl' hhead
    · rw [List.mem_singleton] at hl'
      subst hl'
      exact absurd rfl hhead
  · rw [hsplit]
    nofun

end Framed

end VibeOS.Lib
