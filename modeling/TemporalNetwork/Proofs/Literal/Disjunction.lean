/-
Disjunctions are canonical.

An increasing list is determined by its members. So the literals of a
disjunction tell which literals it was built from, and nothing else:
putting them in their places one by one gives what sorting them, in
whatever way, and dropping repeated neighbours gives.

The order is that of codes, and nothing lies between the codes of a literal
and its negation. In an increasing list that has both they are neighbours,
the positive one first, so that neighbours need to be compared in one order
only. And whichever literal of the list is looked at tells on which side of
it another can be, which is what a search by halving relies on.
-/
import Mathlib.Data.List.Destutter
import Mathlib.Data.List.Sort
import Mathlib.Data.Nat.Bitwise
import TemporalNetwork.Literal.Disjunction

namespace TemporalNetwork

variable {l m : Literal} {ls ms rest : Literals} {n : Nat}

/-- Negating a literal flips the last bit of its code. -/
theorem Literal.code_negate (l : Literal) : l.negate.code = l.code ^^^ 1 := by
  obtain ⟨⟨v⟩, positive⟩ := l
  cases positive with
  | true => exact (Nat.xor_one_of_even (even_two_mul v)).symm
  | false => exact (Nat.xor_one_of_odd (odd_two_mul_add_one v)).symm

/-- If the negation of a literal comes later it comes next. -/
theorem Literal.code_negate_of_lt (h : l.code < l.negate.code) : l.negate.code = l.code + 1 := by
  rw [code_negate] at h ⊢
  rcases Nat.even_or_odd l.code with heven | hodd
  · exact Nat.xor_one_of_even heven
  · rw [Nat.xor_one_of_odd hodd] at h
    exact absurd h (Nat.not_lt.mpr (Nat.sub_le _ _))

namespace Literals

-- ============================================================== the members

/-- An increasing list is determined by its members. -/
theorem Increasing.eq_of_mem_iff (hls : Increasing ls) (hms : Increasing ms)
    (h : ∀ l, l ∈ ls ↔ l ∈ ms) : ls = ms := by
  have hirrefl : Std.Irrefl fun l m : Literal => l.code < m.code := ⟨fun _ => Nat.lt_irrefl _⟩
  have hantisymm : Std.Antisymm fun l m : Literal => l.code < m.code :=
    ⟨fun _ _ hlt hgt => absurd hgt (Nat.lt_asymm hlt)⟩
  exact List.Pairwise.eq_of_mem_iff hls hms h

/-- Two lists have the same canonical form exactly when they have the same
members. -/
theorem canonical_eq_iff : canonical ls = canonical ms ↔ ∀ l, l ∈ ls ↔ l ∈ ms := by
  constructor
  · intro h l
    rw [← mem_canonical, h, mem_canonical]
  · intro h
    refine (increasing_canonical ls).eq_of_mem_iff (increasing_canonical ms) fun l => ?_
    rw [mem_canonical, mem_canonical]
    exact h l

/-- Sorting and dropping repeated neighbours gives the canonical form, in
whatever order the sort leaves equal literals. -/
theorem destutter_eq_canonical (hperm : ms.Perm ls)
    (hsorted : ms.Pairwise (·.code ≤ ·.code)) : ms.destutter (· ≠ ·) = canonical ls := by
  have hantisymm : Std.Antisymm fun l m : Literal => l.code ≤ m.code :=
    ⟨fun _ _ hle hge => Literal.code_inj.mp (Nat.le_antisymm hle hge)⟩
  rw [hsorted.destutter_eq_dedup]
  have hincreasing : Increasing ms.dedup := by
    refine ((hsorted.sublist ms.dedup_sublist).and ms.nodup_dedup).imp fun h => ?_
    exact Nat.lt_of_le_of_ne h.1 fun heq => h.2 (Literal.code_inj.mp heq)
  refine hincreasing.eq_of_mem_iff (increasing_canonical ls) fun l => ?_
  rw [List.mem_dedup, mem_canonical]
  exact hperm.mem_iff

-- ============================================================== neighbours

/-- If the negation of the first literal is in the list it comes next. -/
theorem Increasing.eq_negate (h : Increasing (l :: m :: ls)) (hl : l.negate ∈ m :: ls) :
    m = l.negate := by
  obtain ⟨hfirst, hrest⟩ := List.pairwise_cons.mp h
  have hnext := Literal.code_negate_of_lt (hfirst _ hl)
  rcases List.mem_cons.mp hl with heq | hlater
  · exact heq.symm
  · -- no code lies between
    have hlow := hfirst m List.mem_cons_self
    have hhigh := (List.pairwise_cons.mp hrest).1 _ hlater
    omega

end Literals

namespace Disjunction

open Literals (Increasing)

/-- A literal and its negation are found by looking at neighbours. -/
theorem hasOppositeNeighbours_iff (h : Increasing ls) :
    hasOppositeNeighbours ls = true ↔ ∃ l ∈ ls, l.negate ∈ ls := by
  induction ls with
  | nil =>
      refine iff_of_false Bool.false_ne_true ?_
      rintro ⟨l, hl, -⟩
      exact List.not_mem_nil hl
  | cons l rest ih =>
      cases rest with
      | nil =>
          refine iff_of_false Bool.false_ne_true ?_
          rintro ⟨k, hk, hnegate⟩
          rw [List.mem_singleton.mp hk, List.mem_singleton] at hnegate
          exact Literal.negate_ne l hnegate
      | cons m rest =>
          have hrest : Increasing (m :: rest) := (List.pairwise_cons.mp h).2
          unfold hasOppositeNeighbours
          rw [Bool.or_eq_true, beq_iff_eq, ih hrest]
          constructor
          · rintro (rfl | ⟨k, hk, hnegate⟩)
            · exact ⟨m, List.mem_cons_of_mem _ List.mem_cons_self, List.mem_cons_self⟩
            · exact ⟨k, List.mem_cons_of_mem l hk, List.mem_cons_of_mem l hnegate⟩
          · rintro ⟨k, hk, hnegate⟩
            rcases List.mem_cons.mp hk with rfl | hk
            · -- the literal is the first of the list
              have hlater := List.mem_of_ne_of_mem (Literal.negate_ne k) hnegate
              left
              rw [h.eq_negate hlater, Literal.negate_negate]
            · rcases List.mem_cons.mp hnegate with heq | hnegate
              · -- its negation is
                rw [← Literal.negate_negate k, heq] at hk
                left
                rw [h.eq_negate hk, Literal.negate_negate]
              · exact .inr ⟨k, hk, hnegate⟩

/-- A disjunction is a tautology exactly when it contains a literal and its
negation. -/
theorem isTautology_iff {d : Disjunction} :
    d.isTautology = true ↔ ∃ l ∈ d.literals, l.negate ∈ d.literals :=
  hasOppositeNeighbours_iff d.increasing

-- ================================================================ searching

/-- Binary search finds exactly the members of an increasing list. -/
theorem search_iff (h : Increasing ls) : search l ls = true ↔ l ∈ ls := by
  induction ls with
  | nil => exact iff_of_false Bool.false_ne_true List.not_mem_nil
  | cons m rest ih =>
      obtain ⟨hfirst, hrest⟩ := List.pairwise_cons.mp h
      unfold search
      rw [List.mem_cons]
      split
      next hlt =>
        rw [ih hrest]
        refine (or_iff_right ?_).symm
        rintro rfl
        exact Nat.lt_irrefl _ hlt
      next hnlt =>
        rw [beq_iff_eq, eq_comm]
        exact (or_iff_left fun hl => hnlt (hfirst l hl)).symm

/-- Membership in a disjunction, as it is tested. -/
theorem contains_iff {d : Disjunction} : d.contains l = true ↔ l ∈ d.literals :=
  search_iff d.increasing

/-- Looks for a literal by halving: the one in the middle is the literal, or
tells in which half to go on. -/
def bisect (l : Literal) (ls : List Literal) : Bool :=
  match h : ls.drop (ls.length / 2) with
  | [] => false
  | m :: rest =>
    if l.code < m.code then bisect l (ls.take (ls.length / 2))
    else if m.code < l.code then bisect l rest
    else true
termination_by ls.length
decreasing_by
  · have hlength := congrArg List.length h
    rw [List.length_drop, List.length_cons] at hlength
    rw [List.length_take]
    omega
  · have hlength := congrArg List.length h
    rw [List.length_drop, List.length_cons] at hlength
    omega

/-- What comes before a literal of the list is less, and what comes after
it is greater. -/
theorem mem_iff_of_drop (h : Increasing ls) (hdrop : ls.drop n = m :: rest) :
    l ∈ ls ↔
      if l.code < m.code then l ∈ ls.take n else if m.code < l.code then l ∈ rest else True := by
  have hparts : ls.take n ++ m :: rest = ls := hdrop ▸ List.take_append_drop n ls
  have hincreasing : Increasing (ls.take n ++ m :: rest) := hparts.symm ▸ h
  obtain ⟨-, hafter, hbefore⟩ := List.pairwise_append.mp hincreasing
  have hless : l ∈ ls.take n → l.code < m.code := fun hl => hbefore l hl m List.mem_cons_self
  have hgreater : l ∈ rest → m.code < l.code := (List.pairwise_cons.mp hafter).1 l
  have hmem : l ∈ ls ↔ l ∈ ls.take n ∨ l = m ∨ l ∈ rest := by
    rw [← List.mem_cons, ← List.mem_append, hparts]
  rw [hmem]
  split
  next hlt =>
    refine or_iff_left ?_
    rintro (rfl | hl)
    · exact Nat.lt_irrefl _ hlt
    · exact Nat.lt_asymm hlt (hgreater hl)
  next hnlt =>
    rw [or_iff_right fun hl => hnlt (hless hl)]
    split
    next hlt =>
      refine or_iff_right ?_
      rintro rfl
      exact Nat.lt_irrefl _ hlt
    next hnlt' =>
      refine iff_of_true (.inl (Literal.code_inj.mp ?_)) trivial
      omega

/-- Halving finds what is there. -/
theorem bisect_iff (h : Increasing ls) : bisect l ls = true ↔ l ∈ ls := by
  fun_induction bisect l ls with
  | case1 ls hdrop =>
      have hlength := List.drop_eq_nil_iff.mp hdrop
      have hempty : ls = [] := List.length_eq_zero_iff.mp (by omega)
      rw [hempty]
      exact iff_of_false Bool.false_ne_true List.not_mem_nil
  | case2 ls m rest hdrop hlt ih =>
      rw [mem_iff_of_drop h hdrop, if_pos hlt]
      exact ih (h.sublist (List.take_sublist _ _))
  | case3 ls m rest hdrop hnlt hlt ih =>
      have hfrom : Increasing (m :: rest) := hdrop ▸ h.sublist (List.drop_sublist _ _)
      rw [mem_iff_of_drop h hdrop, if_neg hnlt, if_pos hlt]
      exact ih (List.pairwise_cons.mp hfrom).2
  | case4 ls m rest hdrop hnlt hnlt' =>
      rw [mem_iff_of_drop h hdrop, if_neg hnlt, if_neg hnlt']
      exact iff_of_true rfl trivial

-- ================================================================== canonical

/-- A disjunction has the literals it is built from and no others, in the
order of their codes. So the set of these literals determines it; it is a
tautology if and only if some literal is given together with its negation;
and it is found to contain what was given.

It does not matter how the literals are sorted before repeated neighbours are
dropped, nor that the search goes from one end and not by halving. -/
theorem canonical_ofList (ls : List Literal) :
    (ofList ls).literals.Increasing ∧
      (∀ l, l ∈ (ofList ls).literals ↔ l ∈ ls) ∧
      (∀ ms, ofList ls = ofList ms ↔ ∀ l, l ∈ ls ↔ l ∈ ms) ∧
      ((ofList ls).isTautology = true ↔ ∃ l ∈ ls, l.negate ∈ ls) ∧
      (∀ l, (ofList ls).contains l = true ↔ l ∈ ls) ∧
      (∀ sorted : Literals, sorted.Perm ls → sorted.Pairwise (·.code ≤ ·.code) →
        sorted.destutter (· ≠ ·) = (ofList ls).literals) ∧
      ∀ l, bisect l (ofList ls).literals = (ofList ls).contains l := by
  refine ⟨(ofList ls).increasing, fun l => mem_ofList, fun ms => ?same, ?tautology, fun l => ?found,
    fun sorted => Literals.destutter_eq_canonical, fun l => ?halved⟩
  case same => rw [Disjunction.mk.injEq]; exact Literals.canonical_eq_iff
  case tautology => rw [isTautology_iff]; simp only [mem_ofList]
  case found => rw [contains_iff, mem_ofList]
  case halved => rw [Bool.eq_iff_iff, bisect_iff (ofList ls).increasing, contains_iff]

/-- A literal that is given twice is in the disjunction once. -/
theorem canonical_ofList_repeated :
    [⟨⟨0⟩, true⟩, ⟨⟨1⟩, false⟩, ⟨⟨1⟩, false⟩].destutter (· ≠ ·) =
      (ofList [⟨⟨1⟩, false⟩, ⟨⟨0⟩, true⟩, ⟨⟨1⟩, false⟩]).literals :=
  (canonical_ofList _).2.2.2.2.2.1 _ (by decide) (by decide)

end Disjunction

end TemporalNetwork
