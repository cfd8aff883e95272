/-
Lines and words, as lists cut at characters of a class.

A text is cut by a recursion of its own, and a line is trimmed before it
is cut into words. Cutting is what the library's `List.splitOnP` does,
and trimming makes no difference: blanks at the ends give empty pieces
only, which are no words. A line is trimmed to nothing exactly if it has
no words.
-/
import TemporalNetwork.Text.Blank
import Mathlib.Data.List.DropRight

namespace TemporalNetwork.Text

variable {cs : List Char} {c : Char}

-- ================================================================== pieces

/-- The pieces of a list are those of the library. -/
theorem pieces_eq_splitOnP (p : Char → Bool) (cs : List Char) : pieces p cs = cs.splitOnP p := by
  induction cs with
  | nil => rfl
  | cons c cs ih =>
      rw [pieces, List.splitOnP_cons_eq_if_modifyHead, ih]
      split
      next => rfl
      next =>
        cases hrest : cs.splitOnP p with
        | nil => exact absurd hrest (List.splitOnP_ne_nil p cs)
        | cons piece rest => rfl

/-- Lines end at line feeds. -/
theorem lines_eq_splitOn (cs : List Char) : lines cs = cs.splitOn '\n' :=
  pieces_eq_splitOnP _ cs

-- =================================================================== words

/-- Words end at a blank. -/
theorem words_append_cons (cs ds : List Char) (hc : isBlank c = true) :
    words (cs ++ c :: ds) = words cs ++ words ds := by
  simp only [words, pieces_eq_splitOnP]
  rw [List.splitOnP_append_cons cs ds hc, List.filter_append]

/-- A blank in front changes no word. -/
theorem words_cons_of_blank (hc : isBlank c = true) : words (c :: cs) = words cs :=
  words_append_cons [] cs hc

/-- A blank at the end changes no word. -/
theorem words_concat_of_blank (hc : isBlank c = true) : words (cs ++ [c]) = words cs :=
  (words_append_cons cs [] hc).trans (List.append_nil _)

/-- What is not blank belongs to a word. -/
theorem words_cons_ne_nil (hc : isBlank c = false) : words (c :: cs) ≠ [] := by
  unfold words
  rw [pieces, hc, if_neg Bool.false_ne_true]
  split
  next => exact List.cons_ne_nil _ _
  next => exact List.cons_ne_nil _ _

/-- Dropping blanks in front changes no word. -/
theorem words_dropWhile (cs : List Char) : words (cs.dropWhile isBlank) = words cs := by
  induction cs with
  | nil => rfl
  | cons c cs ih =>
      rw [List.dropWhile_cons]
      split
      next hc => rw [ih, words_cons_of_blank hc]
      next => rfl

/-- Dropping blanks at the end changes no word. -/
theorem words_rdropWhile (cs : List Char) : words (cs.rdropWhile isBlank) = words cs := by
  induction cs using List.reverseRecOn with
  | nil => rfl
  | append_singleton cs c ih =>
      rw [List.rdropWhile_concat]
      split
      next hc => rw [ih, words_concat_of_blank hc]
      next => rfl

/-- Trimming takes no words away. -/
theorem words_trim (cs : List Char) : words (trim cs) = words cs := by
  show words ((cs.dropWhile isBlank).rdropWhile isBlank) = words cs
  rw [words_rdropWhile, words_dropWhile]

/-- Only blanks are trimmed to nothing. -/
theorem trim_eq_nil_iff : trim cs = [] ↔ words cs = [] := by
  constructor
  · intro htrim
    rw [← words_trim, htrim]
    rfl
  · intro hwords
    have hdrop : cs.dropWhile isBlank = [] := by
      rw [← words_dropWhile] at hwords
      cases hrest : cs.dropWhile isBlank with
      | nil => rfl
      | cons c rest =>
          have hc : isBlank c = false := by
            have hhead := List.head_dropWhile_not (p := isBlank) (l := cs)
              (by rw [hrest]; exact List.cons_ne_nil _ _)
            simpa only [hrest, List.head_cons] using hhead
          rw [hrest] at hwords
          exact absurd hwords (words_cons_ne_nil hc)
    rw [trim, hdrop]
    rfl

end TemporalNetwork.Text
