/-
What a problem text says.

A text speaks of times and of truth values by name. Each line that is not
blank is a constraint on them, by its words; a text says that the origin
is at 0 and that all of its lines hold. None of this mentions networks,
clauses or handles.

Statements and directives are in between. A statement says what its words
say. A directive has its timepoints looked up and its integers read;
where the look-up agrees with the times it says what its statement says.
-/
import TemporalNetwork.Problem
import TemporalNetwork.Proofs.Solver.Solution
import TemporalNetwork.Proofs.Text.Integer

namespace TemporalNetwork

variable {τ : String → Int} {β : String → Bool} {ρ : Timepoint → Int} {s : String} {k : Int}

-- ===================================================================== texts

/-- The literal is true. -/
def NamedLiteral.Holds (β : String → Bool) (l : NamedLiteral) : Prop := β l.name = l.positive

namespace Problem

/-- What the words of a line say of times and truth values. -/
def Says (τ : String → Int) (β : String → Bool) : List String → Prop
  | ["tp", name, lower, upper] =>
    ∃ lb ∈ Text.integer? lower.toList, ∃ ub ∈ Text.integer? upper.toList,
      lb ≤ τ name ∧ τ name ≤ ub
  | ["edge", a, b, weight] => ∃ w ∈ Text.integer? weight.toList, τ b - τ a ≤ w
  | ["cond", literal, a, b, weight] =>
    ∃ w ∈ Text.integer? weight.toList,
      (NamedLiteral.split literal).Holds β → τ b - τ a ≤ w
  | ["bound", literal, a, "<=", value] =>
    ∃ k ∈ Text.integer? value.toList, (NamedLiteral.split literal).Holds β ↔ τ a ≤ k
  | ["bound", literal, a, ">=", value] =>
    ∃ k ∈ Text.integer? value.toList, (NamedLiteral.split literal).Holds β ↔ k ≤ τ a
  | "clause" :: literals => ∃ literal ∈ literals, (NamedLiteral.split literal).Holds β
  | _ => False

end Problem

-- ============================================================== statements

/-- The constraint that a statement is. -/
def Statement.Holds (τ : String → Int) (β : String → Bool) : Statement → Prop
  | .timepoint name lower upper =>
    ∃ lb ∈ Text.integer? lower.toList, ∃ ub ∈ Text.integer? upper.toList,
      lb ≤ τ name ∧ τ name ≤ ub
  | .edge source target weight =>
    ∃ w ∈ Text.integer? weight.toList, τ target - τ source ≤ w
  | .conditional guard source target weight =>
    ∃ w ∈ Text.integer? weight.toList,
      (NamedLiteral.split guard).Holds β → τ target - τ source ≤ w
  | .bound literal tp comparison value =>
    ∃ k ∈ Text.integer? value.toList,
      comparison = "<=" ∧ ((NamedLiteral.split literal).Holds β ↔ τ tp ≤ k) ∨
        comparison = ">=" ∧ ((NamedLiteral.split literal).Holds β ↔ k ≤ τ tp)
  | .clause literals => ∃ l ∈ literals, (NamedLiteral.split l).Holds β

/-- A statement says what its words say. -/
theorem Statement.holds_iff_says {words : List String} {statement : Statement}
    (h : ofWords? words = some statement) : statement.Holds τ β ↔ Problem.Says τ β words := by
  unfold ofWords? at h
  split at h
  next =>
    cases h
    rfl
  next =>
    cases h
    rfl
  next =>
    cases h
    rfl
  next literal tp comparison value =>
    cases h
    by_cases hle : comparison = "<="
    · subst hle
      simp [Holds, Problem.Says]
    · by_cases hge : comparison = ">="
      · subst hge
        simp [Holds, Problem.Says]
      · simp [Holds, Problem.Says, hle, hge]
  next =>
    cases h
    rfl
  next => cases h

-- ============================================================== directives

/-- The constraint that a directive is. A timepoint that it declares has
no handle yet. -/
def Directive.Holds (τ : String → Int) (β : String → Bool) (ρ : Timepoint → Int) :
    Directive → Prop
  | .timepoint name domain => domain.lower ≤ τ name ∧ τ name ≤ domain.upper
  | .edge source target weight => ρ target - ρ source ≤ weight
  | .conditional guard source target weight => guard.Holds β → ρ target - ρ source ≤ weight
  | .bound literal fact => literal.Holds β ↔ fact.Holds ρ
  | .clause literals => ∃ l ∈ literals, l.Holds β

namespace Directive

variable {declared : String → Option Timepoint} {statement : Statement} {d : Directive}
  {tp : Timepoint} {f : BoundFact} {l : NamedLiteral}

/-- A reading succeeds when both of its parts do. -/
theorem bind_eq_ok {α γ : Type} {x : Except DirectiveError α} {g : α → Except DirectiveError γ}
    {b : γ} : (x >>= g) = .ok b ↔ ∃ a, x = .ok a ∧ g a = .ok b := by
  cases x <;> simp [bind, Except.bind]

/-- An integer that is read is the one in the text. -/
theorem readInteger_eq_ok (h : readInteger s = .ok k) : Text.integer? s.toList = some k := by
  unfold readInteger at h
  cases hread : Text.IntegerRange.int32.read s.toList with
  | error e =>
      rw [hread] at h
      cases h
  | ok n =>
      rw [hread] at h
      cases h
      exact Text.IntegerRange.read_eq_ok hread

/-- An integer that was read is the one that the text stands for. -/
theorem exists_integer_iff {P : Int → Prop} (h : readInteger s = .ok k) :
    (∃ n ∈ Text.integer? s.toList, P n) ↔ P k := by
  rw [readInteger_eq_ok h]
  constructor
  · rintro ⟨n, hn, hP⟩
    cases hn
    exact hP
  · exact fun hP => ⟨k, rfl, hP⟩

/-- A literal that is read is the one in the text. -/
theorem readLiteral_eq_ok (h : readLiteral s = .ok l) : NamedLiteral.split s = l := by
  unfold readLiteral NamedLiteral.read? at h
  split at h
  next m hread =>
    cases h
    split at hread
    next =>
      cases hread
      rfl
    next => cases hread
  next => cases h

/-- Literals that are read are those in the texts, in order. -/
theorem readLiterals_eq_ok {ss : List String} {ls : List NamedLiteral}
    (h : readLiterals ss = .ok ls) : ss.map NamedLiteral.split = ls := by
  induction ss generalizing ls with
  | nil =>
      cases h
      rfl
  | cons s ss ih =>
      unfold readLiterals at h
      simp only [bind_eq_ok] at h
      obtain ⟨l, hl, rest, hrest, heq⟩ := h
      cases heq
      rw [List.map_cons, readLiteral_eq_ok hl, ih hrest]

/-- A timepoint is found when it was declared. -/
theorem lookUp_eq_ok : lookUp declared s = .ok tp ↔ declared s = some tp := by
  unfold lookUp
  cases declared s with
  | some tp' => simp
  | none => simp

/-- The comparison decides which fact is meant. -/
theorem readFact_eq_ok {comparison : String} (h : readFact tp comparison k = .ok f) :
    comparison = "<=" ∧ f = .leq tp k ∨ comparison = ">=" ∧ f = .geq tp k := by
  unfold readFact at h
  split at h
  next hle =>
    cases h
    exact .inl ⟨hle, rfl⟩
  next =>
    split at h
    next hge =>
      cases h
      exact .inr ⟨hge, rfl⟩
    next => cases h

/-- How a statement is read: all its parts are looked up and read, and
what it declares is new. -/
inductive Reads (declared : String → Option Timepoint) : Statement → Directive → Prop
  | timepoint {name lower upper : String} {lb ub : Int} : declared name = none →
      readInteger lower = .ok lb → readInteger upper = .ok ub →
        Reads declared (.timepoint name lower upper) (.timepoint name ⟨lb, ub⟩)
  | edge {source target weight : String} {a b : Timepoint} {w : Int} :
      declared source = some a → declared target = some b → readInteger weight = .ok w →
        Reads declared (.edge source target weight) (.edge a b w)
  | conditional {guard source target weight : String} {g : NamedLiteral} {a b : Timepoint}
      {w : Int} : declared source = some a → declared target = some b →
      readLiteral guard = .ok g → readInteger weight = .ok w →
        Reads declared (.conditional guard source target weight) (.conditional g a b w)
  | bound {literal name comparison value : String} {l : NamedLiteral} {a : Timepoint} {k : Int}
      {f : BoundFact} : declared name = some a → readInteger value = .ok k →
      readFact a comparison k = .ok f → readLiteral literal = .ok l →
        Reads declared (.bound literal name comparison value) (.bound l f)
  | clause {literals : List String} {ls : List NamedLiteral} : readLiterals literals = .ok ls →
        Reads declared (.clause literals) (.clause ls)

/-- The order of the parts decides only which error is reported. -/
theorem ofStatement_eq_ok : ofStatement declared statement = .ok d ↔ Reads declared statement d := by
  constructor
  · intro h
    cases statement with
    | timepoint name lower upper =>
        rw [ofStatement] at h
        cases hdeclared : declared name with
        | some tp =>
            simp only [hdeclared] at h
            cases h
        | none =>
            simp only [hdeclared, Option.isSome_none, Bool.false_eq_true, if_false, bind_eq_ok] at h
            obtain ⟨lb, hlb, ub, hub, heq⟩ := h
            cases heq
            exact .timepoint hdeclared hlb hub
    | edge source target weight =>
        simp only [ofStatement, bind_eq_ok] at h
        obtain ⟨a, ha, b, hb, w, hw, heq⟩ := h
        cases heq
        exact .edge (lookUp_eq_ok.mp ha) (lookUp_eq_ok.mp hb) hw
    | conditional guard source target weight =>
        simp only [ofStatement, bind_eq_ok] at h
        obtain ⟨a, ha, b, hb, g, hg, w, hw, heq⟩ := h
        cases heq
        exact .conditional (lookUp_eq_ok.mp ha) (lookUp_eq_ok.mp hb) hg hw
    | bound literal tp comparison value =>
        simp only [ofStatement, bind_eq_ok] at h
        obtain ⟨a, ha, k, hk, f, hf, l, hl, heq⟩ := h
        cases heq
        exact .bound (lookUp_eq_ok.mp ha) hk hf hl
    | clause literals =>
        simp only [ofStatement, bind_eq_ok] at h
        obtain ⟨ls, hls, heq⟩ := h
        cases heq
        exact .clause hls
  · intro h
    cases h with
    | timepoint hnew hlb hub =>
        rw [ofStatement, hnew, hlb, hub]
        rfl
    | edge ha hb hw =>
        rw [ofStatement, lookUp_eq_ok.mpr ha, lookUp_eq_ok.mpr hb, hw]
        rfl
    | conditional ha hb hg hw =>
        rw [ofStatement, lookUp_eq_ok.mpr ha, lookUp_eq_ok.mpr hb, hg, hw]
        rfl
    | bound ha hk hf hl =>
        simp only [ofStatement, bind_eq_ok]
        exact ⟨_, lookUp_eq_ok.mpr ha, _, hk, _, hf, _, hl, rfl⟩
    | clause hls =>
        rw [ofStatement, hls]
        rfl

/-- A directive says what its statement says, for times that agree with
the look-up. -/
theorem holds_iff_of_reads (h : Reads declared statement d)
    (hρ : ∀ name tp, declared name = some tp → ρ tp = τ name) :
    d.Holds τ β ρ ↔ statement.Holds τ β := by
  cases h with
  | timepoint hnew hlb hub =>
      rw [Statement.Holds, exists_integer_iff hlb, exists_integer_iff hub]
      rfl
  | edge ha hb hw =>
      rw [Statement.Holds, exists_integer_iff hw, ← hρ _ _ ha, ← hρ _ _ hb]
      rfl
  | conditional ha hb hg hw =>
      rw [Statement.Holds, exists_integer_iff hw, ← hρ _ _ ha, ← hρ _ _ hb,
        readLiteral_eq_ok hg]
      rfl
  | bound ha hk hf hl =>
      rw [Statement.Holds, exists_integer_iff hk, ← hρ _ _ ha, readLiteral_eq_ok hl]
      rcases readFact_eq_ok hf with ⟨rfl, rfl⟩ | ⟨rfl, rfl⟩
      · simp [Directive.Holds, BoundFact.Holds]
      · simp [Directive.Holds, BoundFact.Holds]
  | clause hls =>
      rw [Statement.Holds, ← readLiterals_eq_ok hls]
      constructor
      · rintro ⟨l, hl, hholds⟩
        obtain ⟨text, htext, rfl⟩ := List.mem_map.mp hl
        exact ⟨text, htext, hholds⟩
      · rintro ⟨text, htext, hholds⟩
        exact ⟨_, List.mem_map_of_mem htext, hholds⟩

/-- Only a statement of that kind declares a timepoint. -/
theorem eq_none_of_reads {name : String} {domain : Domain}
    (h : Reads declared statement (.timepoint name domain)) : declared name = none := by
  cases h with
  | timepoint hnew => exact hnew

/-- Words are read as the statement that they make. -/
theorem ofWords_eq_ok {words : List String} : ofWords declared words = .ok d ↔
    ∃ statement, Statement.ofWords? words = some statement ∧ Reads declared statement d := by
  unfold ofWords
  cases Statement.ofWords? words with
  | none => simp
  | some statement => simp [ofStatement_eq_ok]

end Directive

end TemporalNetwork
