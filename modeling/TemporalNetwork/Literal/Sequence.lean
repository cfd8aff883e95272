/-
Sequences of literals.

A sequence keeps the order in which literals were added. `add` keeps it
free of repetitions; `canonical` forgets the order and the repetitions
and lists the literals by increasing code, so that two sequences with
the same literals have the same canonical form.
-/
import TemporalNetwork.Literal

namespace TemporalNetwork

/-- Literals in the order in which they were collected. -/
abbrev Literals := List Literal

namespace Literals

/-- Appends a literal unless it is there already. -/
def add (ls : Literals) (l : Literal) : Literals :=
  if l ∈ ls then ls else ls ++ [l]

/-- Adds literals in turn. -/
def addAll (ls : Literals) (more : List Literal) : Literals := more.foldl add ls

/-- Puts a literal at its place in an increasing sequence. -/
def place (l : Literal) : Literals → Literals
  | [] => [l]
  | m :: ms =>
    if l.code < m.code then l :: m :: ms
    else if l.code = m.code then m :: ms
    else m :: place l ms

/-- The literals by increasing code, each once. -/
def canonical (ls : Literals) : Literals := ls.foldr place []

/-- Each literal has a greater code than those before it. -/
def Increasing (ls : Literals) : Prop := ls.Pairwise (·.code < ·.code)

/-- The written forms of the literals, separated. -/
def joined (separator : String) (ls : Literals) : String :=
  separator.intercalate (ls.map toString)

/-- Shown as `[b0, !b1]`. -/
def text (ls : Literals) : String := "[" ++ ls.joined ", " ++ "]"

-- ========================================================== canonical form

theorem mem_place {l m : Literal} {ls : Literals} : l ∈ place m ls ↔ l = m ∨ l ∈ ls := by
  induction ls with
  | nil => simp [place]
  | cons k ks ih =>
      unfold place
      split
      · simp
      · split
        next hcode =>
          rw [Literal.code_inj.mp hcode]
          simp
        next => simp [ih, or_left_comm]

theorem Increasing.place {l : Literal} {ls : Literals} (h : Increasing ls) :
    Increasing (place l ls) := by
  induction ls with
  | nil => exact List.pairwise_singleton _ _
  | cons m ms ih =>
      obtain ⟨hm, hms⟩ := List.pairwise_cons.mp h
      unfold Literals.place
      split
      next hlt =>
        refine List.pairwise_cons.mpr ⟨fun k hk => ?_, h⟩
        rcases List.mem_cons.mp hk with rfl | hk
        · exact hlt
        · exact Nat.lt_trans hlt (hm k hk)
      next hnlt =>
        split
        · exact h
        next hne =>
          refine List.pairwise_cons.mpr ⟨fun k hk => ?_, ih hms⟩
          rcases mem_place.mp hk with rfl | hk
          · omega
          · exact hm k hk

@[simp] theorem mem_canonical {l : Literal} {ls : Literals} : l ∈ canonical ls ↔ l ∈ ls := by
  unfold canonical
  induction ls with
  | nil => simp
  | cons m ms ih => rw [List.foldr_cons, mem_place, ih, List.mem_cons]

theorem increasing_canonical (ls : Literals) : Increasing (canonical ls) := by
  unfold canonical
  induction ls with
  | nil => exact List.Pairwise.nil
  | cons m ms ih => exact ih.place

theorem Increasing.nodup {ls : Literals} (h : Increasing ls) : ls.Nodup := by
  refine List.Pairwise.imp (fun {l m} hlt => ?_) h
  rintro rfl
  exact Nat.lt_irrefl _ hlt

@[simp] theorem mem_add {l m : Literal} {ls : Literals} : l ∈ add ls m ↔ l ∈ ls ∨ l = m := by
  unfold add
  split
  next h =>
    constructor
    · exact Or.inl
    · rintro (hl | rfl)
      · exact hl
      · exact h
  next => simp

theorem mem_addAll {l : Literal} {ls : Literals} {more : List Literal} :
    l ∈ addAll ls more ↔ l ∈ ls ∨ l ∈ more := by
  unfold addAll
  induction more generalizing ls with
  | nil => simp
  | cons m ms ih => rw [List.foldl_cons, ih, mem_add, List.mem_cons, or_assoc]

end Literals

end TemporalNetwork
