/-
The problem that is built from a text.

A text is carried out line by line, on a solver that may draw conclusions
after each of them. What is built has the models of the text: `Builds`
says of a step that the models of the problem after it are those of the
problem before it in which the step's constraint holds. The steps are the
naming of variables, the five directives and, by induction, the lines of
a text.

# Names

Models are about handles and texts about names. `Names` relates the two,
for all names that the problem has. Names are only added, so that what is
related for the problem in the end was so on the way. No handle has two
names (`Parsed`), so that for every choice of times and values by name
there is one by handle.
-/
import TemporalNetwork.Proofs.Problem.Denotation
import TemporalNetwork.Proofs.Solver.Models

namespace TemporalNetwork

open Theory (Changes Settles)

namespace Problem

variable {c : Config} {p p' p'' : Problem} {τ : String → Int} {β : String → Bool}
  {ρ : Timepoint → Int} {σ : BoolVar → Bool} {l : NamedLiteral} {m : Literal} {t : Theory}
  {d : Directive} {C C' : (String → Int) → (String → Bool) → (Timepoint → Int) → Prop}

-- =================================================================== names

/-- All names are still there, for the same handles. -/
structure Extends (p p' : Problem) : Prop where
  timepoint (name : String) (tp : Timepoint) :
    p.timepoint? name = some tp → p'.timepoint? name = some tp
  boolVar (name : String) (m : Literal) :
    p.boolVars.lookup name = some m → p'.boolVars.lookup name = some m

theorem Extends.refl (p : Problem) : Extends p p := ⟨fun _ _ h => h, fun _ _ h => h⟩

theorem Extends.trans (h : Extends p p') (h' : Extends p' p'') : Extends p p'' :=
  ⟨fun name tp htp => h'.timepoint name tp (h.timepoint name tp htp),
    fun name m hm => h'.boolVar name m (h.boolVar name m hm)⟩

/-- Handles have the times and values of their names. -/
structure Names (p : Problem) (τ : String → Int) (β : String → Bool) (ρ : Timepoint → Int)
    (σ : BoolVar → Bool) : Prop where
  time (name : String) (tp : Timepoint) : p.timepoint? name = some tp → ρ tp = τ name
  value (name : String) (m : Literal) :
    p.boolVars.lookup name = some m → (m.Holds σ ↔ β name = true)

/-- Handles have the values of their names in earlier problems as well. -/
theorem Names.of_extends (h : Names p' τ β ρ σ) (hp : Extends p p') : Names p τ β ρ σ :=
  ⟨fun name tp htp => h.time name tp (hp.timepoint name tp htp),
    fun name m hm => h.value name m (hp.boolVar name m hm)⟩

/-- The literal of a name has the value of the name. -/
theorem Names.holds_iff (h : Names p τ β ρ σ) (hm : p.boolVars.lookup l.name = some m) :
    (if l.positive then m else m.negate).Holds σ ↔ l.Holds β := by
  have hvalue := h.value l.name m hm
  unfold NamedLiteral.Holds
  cases l.positive with
  | true => exact hvalue
  | false =>
      show m.negate.Holds σ ↔ _
      rw [Literal.holds_negate, hvalue, Bool.not_eq_true]

-- =================================================================== parsed

/-- What holds of a problem that is being built. -/
structure Parsed (c : Config) (p : Problem) : Prop where
  changes : Changes (.initial c) p.solver.theory
  settled : p.solver.theory.Settled
  formed : p.solver.clauses.Formed p.solver.theory
  shared (e : Edge) : p.solver.theory.network.Contains e → e.isShared = true
  timepoint (name : String) (tp : Timepoint) :
    p.timepoint? name = some tp → p.solver.theory.network.hasTimepoint tp = true
  boolVar (name : String) (m : Literal) : p.boolVars.lookup name = some m →
    p.solver.theory.hasVariable m.var = true ∧ m.positive = true
  timepoint_inj (name name' : String) (tp : Timepoint) :
    p.timepoint? name = some tp → p.timepoint? name' = some tp → name = name'
  boolVar_inj (name name' : String) (m m' : Literal) : p.boolVars.lookup name = some m →
    p.boolVars.lookup name' = some m' → m.var = m'.var → name = name'

/-- A problem is built at the root. -/
theorem Parsed.stack (h : Parsed c p) : Theory.Stack [] p.solver.theory :=
  .root h.settled ((Theory.atRoot_initial c).sameLevels h.changes.sameLevels)

/-- Nothing but the origin has a name. -/
theorem timepoint?_ofSolver {s : Solver} {name : String} {tp : Timepoint}
    (h : (ofSolver s).timepoint? name = some tp) : name = originName ∧ tp = .origin := by
  unfold timepoint? at h
  split at h
  next hname =>
    cases h
    exact ⟨hname, rfl⟩
  next => cases h

/-- The problem before the first line. -/
theorem parsed_ofSolver (c : Config) (polarity : Bool) :
    Parsed c (ofSolver (.ofTheory (.initial c) polarity)) where
  changes := .refl
  settled := Theory.settled_initial c
  formed :=
    ⟨fun _ hid => absurd hid (Nat.not_lt_zero _), fun _ hid => absurd hid (Nat.not_lt_zero _)⟩
  shared e he := by
    obtain ⟨id, hid, -⟩ := he
    exact absurd (Network.hasEdge_iff.mp hid) (Nat.not_lt_zero _)
  timepoint name tp h := by
    rw [(timepoint?_ofSolver h).2]
    exact Network.wellFormed_initial.origin
  boolVar name m h := by cases h
  timepoint_inj name name' tp h h' := by
    rw [(timepoint?_ofSolver h).1, (timepoint?_ofSolver h').1]
  boolVar_inj name name' m m' h := by cases h

/-- The theory settles after edges were added, and names are as before. -/
theorem Parsed.settles (h : Parsed c p) (hsettles : Settles p.solver.theory t)
    (hshared : ∀ e, t.network.Contains e → e.isShared = true) :
    Parsed c { p with solver := { p.solver with theory := t } } where
  changes := h.changes.trans hsettles.changes
  settled := hsettles.settled
  formed := h.formed.mono fun _ hv => hsettles.changes.hasVariable hv
  shared := hshared
  timepoint name tp htp := (hsettles.changes.grows.timepoint tp (h.timepoint name tp htp)).1
  boolVar name m hm :=
    ⟨hsettles.changes.hasVariable (h.boolVar name m hm).1, (h.boolVar name m hm).2⟩
  timepoint_inj := h.timepoint_inj
  boolVar_inj := h.boolVar_inj

/-- A table with one entry more, for a key that was not there. -/
theorem lookup_concat {α : Type} {entries : List (String × α)} {key name : String} {a b : α}
    (hnew : entries.lookup key = none) : (entries ++ [(key, a)]).lookup name = some b ↔
      entries.lookup name = some b ∨ name = key ∧ b = a := by
  rw [List.lookup_append]
  by_cases heq : name = key
  · subst heq
    simp [hnew, eq_comm]
  · have hbeq : (name == key) = false := beq_false_of_ne heq
    cases entries.lookup name with
    | none => simp [List.lookup_cons, hbeq, heq]
    | some b' => simp [heq]

/-- A timepoint more has the name it was declared with. -/
theorem timepoint?_concat {s : Solver} {name name' : String} {tp tp' : Timepoint}
    (hnew : p.timepoint? name = none) :
    (⟨s, p.timepoints ++ [(name, tp)], p.boolVars⟩ : Problem).timepoint? name' = some tp' ↔
      p.timepoint? name' = some tp' ∨ name' = name ∧ tp' = tp := by
  unfold timepoint? at hnew ⊢
  split at hnew
  next => cases hnew
  next hne =>
    by_cases horigin : name' = originName
    · have hne' : name' ≠ name := fun heq => hne (heq ▸ horigin)
      rw [if_pos horigin, if_pos horigin, or_iff_left fun hnamed => hne' hnamed.1]
    · rw [if_neg horigin, if_neg horigin]
      exact lookup_concat hnew

/-- A name is given to a timepoint that has none. -/
theorem Parsed.declare {name : String} {tp : Timepoint} (h : Parsed c p)
    (hnew : p.timepoint? name = none) (htp : p.solver.theory.network.hasTimepoint tp = true)
    (hfree : ∀ name', p.timepoint? name' ≠ some tp) :
    Parsed c ⟨p.solver, p.timepoints ++ [(name, tp)], p.boolVars⟩ where
  changes := h.changes
  settled := h.settled
  formed := h.formed
  shared := h.shared
  timepoint name' tp' hfound := by
    rcases (timepoint?_concat hnew).mp hfound with hfound | ⟨-, rfl⟩
    · exact h.timepoint name' tp' hfound
    · exact htp
  boolVar := h.boolVar
  timepoint_inj name' name'' tp' hfound hfound' := by
    rcases (timepoint?_concat hnew).mp hfound with hold | ⟨hname, rfl⟩
    · rcases (timepoint?_concat hnew).mp hfound' with hold' | ⟨-, rfl⟩
      · exact h.timepoint_inj name' name'' tp' hold hold'
      · exact absurd hold (hfree name')
    · rcases (timepoint?_concat hnew).mp hfound' with hold' | ⟨hname', -⟩
      · exact absurd hold' (hfree name'')
      · exact hname.trans hname'.symm
  boolVar_inj := h.boolVar_inj

/-- A name is given to a variable that has none. -/
theorem Parsed.name {name : String} {m : Literal} (h : Parsed c p)
    (hnew : p.boolVars.lookup name = none) (hvar : p.solver.theory.hasVariable m.var = true)
    (hpositive : m.positive = true)
    (hfree : ∀ name' m', p.boolVars.lookup name' = some m' → m'.var ≠ m.var) :
    Parsed c ⟨p.solver, p.timepoints, p.boolVars ++ [(name, m)]⟩ where
  changes := h.changes
  settled := h.settled
  formed := h.formed
  shared := h.shared
  timepoint := h.timepoint
  boolVar name' m' hfound := by
    rcases (lookup_concat hnew).mp hfound with hfound | ⟨-, rfl⟩
    · exact h.boolVar name' m' hfound
    · exact ⟨hvar, hpositive⟩
  timepoint_inj := h.timepoint_inj
  boolVar_inj name' name'' m' m'' hfound hfound' hsame := by
    rcases (lookup_concat hnew).mp hfound with hold | ⟨hname, rfl⟩
    · rcases (lookup_concat hnew).mp hfound' with hold' | ⟨-, rfl⟩
      · exact h.boolVar_inj name' name'' m' m'' hold hold' hsame
      · exact absurd hsame (hfree name' m' hold)
    · rcases (lookup_concat hnew).mp hfound' with hold' | ⟨hname', -⟩
      · exact absurd hsame.symm (hfree name'' m'' hold')
      · exact hname.trans hname'.symm

-- =================================================================== steps

/-- A step builds on a problem: its models are those of the problem before
in which the constraint holds. -/
structure Builds (c : Config) (p p' : Problem)
    (C : (String → Int) → (String → Bool) → (Timepoint → Int) → Prop) : Prop where
  parsed : Parsed c p'
  grows : Extends p p'
  models {τ : String → Int} {β : String → Bool} {ρ : Timepoint → Int} {σ : BoolVar → Bool} :
    Names p' τ β ρ σ → ρ .origin = 0 →
      (p'.solver.Models ρ σ ↔ p.solver.Models ρ σ ∧ C τ β ρ)

/-- Where nothing is added, nothing is constrained. -/
theorem Builds.refl (h : Parsed c p) : Builds c p p fun _ _ _ => True :=
  ⟨h, .refl p, fun _ _ => (and_iff_left trivial).symm⟩

/-- Steps build one after the other, and both constraints hold. -/
theorem Builds.trans (h : Builds c p p' C) (h' : Builds c p' p'' C') :
    Builds c p p'' fun τ β ρ => C τ β ρ ∧ C' τ β ρ where
  parsed := h'.parsed
  grows := h.grows.trans h'.grows
  models hnames horigin := by
    rw [h'.models hnames horigin, h.models (hnames.of_extends h'.grows) horigin, and_assoc]

/-- The constraint may be put in other words. -/
theorem Builds.congr (h : Builds c p p' C)
    (hC : ∀ {τ β ρ σ}, Names p' τ β ρ σ → ρ .origin = 0 → (C τ β ρ ↔ C' τ β ρ)) :
    Builds c p p' C' where
  parsed := h.parsed
  grows := h.grows
  models hnames horigin := by rw [h.models hnames horigin, hC hnames horigin]

/-- A step after one that demands nothing. -/
theorem Builds.after (h : Builds c p p' fun _ _ _ => True) (h' : Builds c p' p'' C) :
    Builds c p p'' C :=
  (h.trans h').congr fun _ _ => and_iff_right trivial

-- =============================================================== variables

/-- A variable is named where that is needed, which demands nothing. -/
theorem builds_literal (h : Parsed c p) (hrun : p.literal l = (p', m)) :
    Builds c p p' (fun _ _ _ => True) ∧ p'.solver.theory.hasVariable m.var = true ∧
      ∀ {τ β ρ σ}, Names p' τ β ρ σ → (m.Holds σ ↔ l.Holds β) := by
  unfold literal at hrun
  cases hfound : p.boolVars.lookup l.name with
  -- the name stands for a variable already
  | some m₀ =>
      simp only [hfound, Prod.mk.injEq] at hrun
      obtain ⟨rfl, rfl⟩ := hrun
      refine ⟨.refl h, ?_, fun hnames => hnames.holds_iff hfound⟩
      have hvar := (h.boolVar l.name m₀ hfound).1
      split
      · exact hvar
      · exact hvar
  | none =>
      simp only [hfound, Prod.mk.injEq] at hrun
      obtain ⟨rfl, rfl⟩ := hrun
      have hsettles := Theory.settles_newVariable h.settled
      have hnew := Theory.hasVariable_newVariable p.solver.theory
      have hindex : (p.solver.theory.newVariable.2).index = p.solver.theory.values.size :=
        HandleVector.index_nextKey p.solver.theory.values
      -- the new handle is not one that a name stands for
      have hfree : ∀ name m, p.boolVars.lookup name = some m →
          m.var ≠ p.solver.theory.newVariable.2 := by
        intro name m hm heq
        have hlt := (HandleVector.contains_iff _ _).mp (h.boolVar name m hm).1
        rw [heq] at hlt
        exact absurd (hindex.symm.le.trans_lt hlt) (Nat.lt_irrefl _)
      have hparsed : Parsed c ⟨{ p.solver with theory := p.solver.theory.newLiteral.1 },
          p.timepoints, p.boolVars ++ [(l.name, p.solver.theory.newLiteral.2)]⟩ :=
        (h.settles hsettles h.shared).name hfound hnew rfl hfree
      have hgrows : Extends p ⟨{ p.solver with theory := p.solver.theory.newLiteral.1 },
          p.timepoints, p.boolVars ++ [(l.name, p.solver.theory.newLiteral.2)]⟩ :=
        ⟨fun _ _ htp => htp, fun name m hm => (lookup_concat hfound).mpr (.inl hm)⟩
      refine ⟨⟨hparsed, hgrows, fun _ _ => ?_⟩, ?_,
        fun hnames => hnames.holds_iff ((lookup_concat hfound).mpr (.inr ⟨rfl, rfl⟩))⟩
      · rw [and_true]
        exact Solver.models_congr rfl rfl
      · split
        · exact hnew
        · exact hnew

/-- Literals constrain nothing, and get the values of their texts. -/
theorem builds_literals {ls : List NamedLiteral} {ms : List Literal} (h : Parsed c p)
    (hrun : p.literals ls = (p', ms)) :
    Builds c p p' (fun _ _ _ => True) ∧
      ∀ {τ β ρ σ}, Names p' τ β ρ σ → ((∃ m ∈ ms, m.Holds σ) ↔ ∃ l ∈ ls, l.Holds β) := by
  induction ls generalizing p ms with
  | nil =>
      cases hrun
      exact ⟨.refl h, fun _ => by simp⟩
  | cons l ls ih =>
      unfold literals at hrun
      cases hfirst : p.literal l with
      | mk p₁ m =>
          cases hrest : p₁.literals ls with
          | mk p₂ rest =>
              simp only [hfirst, hrest, Prod.mk.injEq] at hrun
              obtain ⟨rfl, rfl⟩ := hrun
              obtain ⟨hbuilds, -, hholds⟩ := builds_literal h hfirst
              obtain ⟨hbuilds', hholds'⟩ := ih hbuilds.parsed hrest
              refine ⟨hbuilds.after hbuilds', fun hnames => ?_⟩
              simp only [List.mem_cons, exists_eq_or_imp]
              rw [hholds' hnames, hholds (hnames.of_extends hbuilds'.grows)]

-- ============================================================== directives

/-- A step of the theory that is accepted. -/
theorem onTheory_eq_ok {α : Type} {step : Checked (Theory × Except Refusal α)}
    {next : Problem → α → Problem} (h : p.onTheory step next = .ok (.ok p')) :
    ∃ t a, step = .ok (t, .ok a) ∧
      p' = next { p with solver := { p.solver with theory := t } } a := by
  unfold onTheory at h
  rw [Checked.bind_eq_ok] at h
  obtain ⟨⟨t, r⟩, hstep, h⟩ := h
  cases r with
  | error refusal => cases h
  | ok a =>
      cases h
      exact ⟨t, a, hstep, rfl⟩

/-- Edges between the same timepoints are added. -/
theorem builds_edges {es : List Edge} (h : Parsed c p) (hsettles : Settles p.solver.theory t)
    (hedges : ∀ e, t.network.Contains e ↔ p.solver.theory.network.Contains e ∨ e ∈ es)
    (hshared : ∀ e ∈ es, e.isShared = true)
    (hC : ∀ {τ β ρ σ}, Names p τ β ρ σ → ρ .origin = 0 →
      ((∀ e ∈ es, e.HoldsWhen ρ σ) ↔ C τ β ρ)) :
    Builds c p { p with solver := { p.solver with theory := t } } C where
  parsed := h.settles hsettles fun e he => ((hedges e).mp he).elim (h.shared e) (hshared e)
  grows := ⟨fun _ _ htp => htp, fun _ _ hm => hm⟩
  models hnames horigin := by
    have hnames' : Names p _ _ _ _ := ⟨hnames.time, hnames.value⟩
    rw [← hC hnames' horigin]
    exact Solver.models_of_edges hedges rfl

/-- One edge is added. -/
theorem builds_edge {e : Edge} (h : Parsed c p) (hsettles : Settles p.solver.theory t)
    (hnetwork : t.network = p.solver.theory.network.addEdge e) (hshared : e.isShared = true)
    (hC : ∀ {τ β ρ σ}, Names p τ β ρ σ → (e.HoldsWhen ρ σ ↔ C τ β ρ)) :
    Builds c p { p with solver := { p.solver with theory := t } } C := by
  have hedges : ∀ e', t.network.Contains e' ↔
      p.solver.theory.network.Contains e' ∨ e' ∈ [e] := by
    intro e'
    rw [hnetwork, Network.contains_addEdge_iff, List.mem_singleton]
  refine builds_edges h hsettles hedges (fun e' he => ?_) fun hnames _ => ?_
  · rw [List.mem_singleton.mp he]
    exact hshared
  · rw [List.forall_mem_singleton]
    exact hC hnames

/-- A literal is bound to a fact, by an edge for each of its values. -/
theorem builds_bound {fact : BoundFact} (h : Parsed c p) (hsettles : Settles p.solver.theory t)
    (hnetwork : t.network = Theory.boundNetwork p.solver.theory.network m fact)
    (hC : ∀ {τ β ρ σ}, Names p τ β ρ σ → ((m.Holds σ ↔ fact.Holds ρ) ↔ C τ β ρ)) :
    Builds c p { p with solver := { p.solver with theory := t } } C := by
  have hedges : ∀ e, t.network.Contains e ↔ p.solver.theory.network.Contains e ∨
      e ∈ [fact.edge m, fact.negation.edge m.negate] := by
    intro e
    rw [hnetwork, Theory.boundNetwork, Network.contains_addEdge_iff,
      Network.contains_addEdge_iff, or_assoc, List.mem_cons, List.mem_singleton]
  refine builds_edges h hsettles hedges (fun e he => ?_) fun hnames horigin => ?_
  · rcases List.mem_cons.mp he with rfl | he
    · exact BoundFact.isShared_edge
    · rw [List.mem_singleton.mp he]
      exact BoundFact.isShared_edge
  · rw [List.forall_mem_cons, List.forall_mem_singleton, holdsWhen_bound horigin]
    exact hC hnames

/-- A timepoint is declared with its domain. -/
theorem builds_timepoint {name : String} {domain : Domain} (h : Parsed c p)
    (hnew : p.timepoint? name = none) (hrun : p.add (.timepoint name domain) = .ok (.ok p')) :
    Builds c p p' fun τ β ρ => (Directive.timepoint name domain).Holds τ β ρ := by
  rw [add] at hrun
  obtain ⟨t, tp, hstep, rfl⟩ := onTheory_eq_ok hrun
  obtain ⟨hsettles, rfl, hnetwork⟩ := (Theory.outcome_newTimepoint h.settled hstep).settles
  -- the two edges of the domain are what is new
  have hedges : ∀ e, t.network.Contains e ↔ p.solver.theory.network.Contains e ∨
      e ∈ ([⟨.origin, p.solver.theory.network.domains.nextKey, domain.upper, .permanent⟩,
        ⟨p.solver.theory.network.domains.nextKey, .origin, -domain.lower, .permanent⟩] :
          List Edge) := by
    intro e
    rw [hnetwork, Network.contains_addBounded_iff, List.mem_cons, List.mem_singleton]
  have hshared : ∀ e, t.network.Contains e → e.isShared = true := by
    intro e he
    rcases (hedges e).mp he with he | he
    · exact h.shared e he
    · rcases List.mem_cons.mp he with rfl | he
      · rfl
      · rw [List.mem_singleton.mp he]
        rfl
  have hdeclared : t.network.hasTimepoint p.solver.theory.network.domains.nextKey = true := by
    rw [hnetwork, Network.hasTimepoint_addBounded]
    exact .inl (Network.eq_nextKey_iff.mp rfl)
  -- no name stands for the new handle yet
  have hfree : ∀ name', p.timepoint? name' ≠ some p.solver.theory.network.domains.nextKey := by
    intro name' htp
    have hlt := Network.hasTimepoint_iff.mp (h.timepoint name' _ htp)
    exact absurd (Network.eq_nextKey_iff.mp rfl) (Nat.ne_of_lt hlt)
  refine ⟨(h.settles hsettles hshared).declare hnew hdeclared hfree,
    ⟨fun name' tp htp => (timepoint?_concat hnew).mpr (.inl htp), fun _ _ hm => hm⟩,
    fun {τ β ρ σ} hnames horigin => ?_⟩
  -- and they say that the time of the name is in the domain
  have htime : ρ p.solver.theory.network.domains.nextKey = τ name :=
    hnames.time name _ ((timepoint?_concat hnew).mpr (.inr ⟨rfl, rfl⟩))
  have hmodels : Solver.Models ρ σ { p.solver with theory := t } ↔ p.solver.Models ρ σ ∧ _ :=
    Solver.models_of_edges hedges rfl
  rw [List.forall_mem_cons, List.forall_mem_singleton, holdsWhen_permanent, holdsWhen_permanent,
    htime, horigin] at hmodels
  apply hmodels.trans
  apply and_congr_right
  intro _
  unfold Directive.Holds
  constructor
  · intro hbounds
    omega
  · intro hbounds
    omega

/-- A clause is added that was accepted. -/
theorem builds_clause {s : Solver} {disjunction : Disjunction} (h : Parsed c p)
    (hadd : p.solver.addClause disjunction = (s, .ok ()))
    (hC : ∀ {τ β ρ σ}, Names p τ β ρ σ → ((∃ l ∈ disjunction.literals, l.Holds σ) ↔ C τ β ρ)) :
    Builds c p { p with solver := s } C := by
  have htheory : s.theory = p.solver.theory := by
    obtain ⟨-, ⟨-, rfl⟩ | rfl⟩ := Solver.addClause_eq_ok hadd
    · rfl
    · rfl
  have hformed : s.clauses.Formed p.solver.theory := by
    obtain ⟨hvar, ⟨-, rfl⟩ | rfl⟩ := Solver.addClause_eq_ok hadd
    · exact h.formed
    · exact h.formed.add (Literals.Increasing.nodup disjunction.increasing) hvar
  have hparsed : Parsed c { p with solver := s } := by
    refine ⟨?_, ?_, ?_, ?_, ?_, ?_, h.timepoint_inj, h.boolVar_inj⟩
    · rw [htheory]
      exact h.changes
    · rw [htheory]
      exact h.settled
    · rw [htheory]
      exact hformed
    · rw [htheory]
      exact h.shared
    · rw [htheory]
      exact h.timepoint
    · rw [htheory]
      exact h.boolVar
  refine ⟨hparsed, ⟨fun _ _ htp => htp, fun _ _ hm => hm⟩, fun {τ β ρ σ} hnames _ => ?_⟩
  have hnames' : Names p τ β ρ σ := ⟨hnames.time, hnames.value⟩
  rw [Solver.models_addClause hadd, hC hnames']

/-- Each directive is a constraint more. -/
theorem builds_add (h : Parsed c p)
    (hnew : ∀ name domain, d = .timepoint name domain → p.timepoint? name = none)
    (hrun : p.add d = .ok (.ok p')) : Builds c p p' fun τ β ρ => d.Holds τ β ρ := by
  cases d with
  | timepoint name domain => exact builds_timepoint h (hnew name domain rfl) hrun
  | edge source target weight =>
      rw [add] at hrun
      obtain ⟨t, id, hstep, rfl⟩ := onTheory_eq_ok hrun
      obtain ⟨hsettles, hnetwork⟩ :=
        (Theory.outcome_addPermanentEdge h.settled hstep).settles
      exact builds_edge h hsettles hnetwork rfl fun _ => holdsWhen_permanent
  -- first the guard is named, then the edge is added
  | conditional guard source target weight =>
      rw [add] at hrun
      cases hliteral : p.literal guard with
      | mk p₁ m =>
          simp only [hliteral] at hrun
          obtain ⟨hbuilds, -, hholds⟩ := builds_literal h hliteral
          obtain ⟨t, id, hstep, rfl⟩ := onTheory_eq_ok hrun
          obtain ⟨hsettles, hnetwork⟩ :=
            (Theory.outcome_addEdge hbuilds.parsed.settled hstep).settles
          refine hbuilds.after (builds_edge hbuilds.parsed hsettles hnetwork rfl fun hnames => ?_)
          rw [holdsWhen_conditional, hholds hnames]
          rfl
  -- the same for a bound
  | bound literal fact =>
      rw [add] at hrun
      cases hliteral : p.literal literal with
      | mk p₁ m =>
          simp only [hliteral] at hrun
          obtain ⟨hbuilds, -, hholds⟩ := builds_literal h hliteral
          obtain ⟨t, u, hstep, rfl⟩ := onTheory_eq_ok hrun
          obtain ⟨hsettles, hnetwork, -⟩ :=
            (Theory.outcome_bindBound hbuilds.parsed.settled hstep).settles
          refine hbuilds.after (builds_bound hbuilds.parsed hsettles hnetwork fun hnames => ?_)
          rw [hholds hnames]
          rfl
  -- and for a clause, of which the theory knows nothing
  | clause literals =>
      rw [add] at hrun
      cases hliterals : p.literals literals with
      | mk p₁ ms =>
          simp only [hliterals] at hrun
          obtain ⟨hbuilds, hholds⟩ := builds_literals h hliterals
          cases hadd : p₁.solver.addClause (.ofList ms) with
          | mk s r =>
              rw [hadd] at hrun
              cases r with
              | error refusal => cases hrun
              | ok u =>
                  cases hrun
                  refine hbuilds.after (builds_clause hbuilds.parsed hadd fun hnames => ?_)
                  simp only [Disjunction.mem_ofList]
                  rw [hholds hnames]
                  rfl

-- =================================================================== texts

/-- A line that is accepted is a directive that is added. -/
theorem addWords_eq_ok {words : List String} (hrun : p.addWords words = .ok (.ok p')) :
    ∃ d, Directive.ofWords p.timepoint? words = .ok d ∧ p.add d = .ok (.ok p') := by
  unfold addWords at hrun
  cases hwords : Directive.ofWords p.timepoint? words with
  | error e =>
      rw [hwords] at hrun
      cases hrun
  | ok d =>
      rw [hwords] at hrun
      exact ⟨d, rfl, hrun⟩

/-- A line that is accepted adds what its words say. -/
theorem builds_addWords {words : List String} (h : Parsed c p)
    (hrun : p.addWords words = .ok (.ok p')) : Builds c p p' fun τ β _ => Says τ β words := by
  obtain ⟨d, hd, hadd⟩ := addWords_eq_ok hrun
  obtain ⟨statement, hwords, hreads⟩ := Directive.ofWords_eq_ok.mp hd
  have hbuilds := builds_add h
    (fun name domain hd => Directive.eq_none_of_reads (hd ▸ hreads)) hadd
  refine hbuilds.congr fun hnames _ => ?_
  rw [Directive.holds_iff_of_reads hreads (hnames.of_extends hbuilds.grows).time]
  exact Statement.holds_iff_says hwords

end Problem

end TemporalNetwork
