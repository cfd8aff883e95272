/-
Which texts are accepted.

A request to the theory is answered whatever it asks for, and it is
accepted exactly if its checks pass; whether the problem stays consistent
plays no role. A directive asks for timepoints and variables that are
there, at the root, so that the checks that are left are those of its
numbers. Hence a line is accepted exactly if it conforms to the format.
The names that the problem has are those that the lines before declared,
and so it goes on from line to line: a text is accepted exactly if all of
its lines conform, and otherwise the first that does not is reported.
-/
import TemporalNetwork.Proofs.Problem.Format
import TemporalNetwork.Proofs.Problem.Parsing
import TemporalNetwork.Proofs.Theory.Answers

namespace TemporalNetwork

-- ================================================================ answers

/-- The step is answered, and accepts if and only if the condition
holds. -/
def Decides {ε α : Type} (run : Checked (Except ε α)) (P : Prop) : Prop :=
  ∃ r, run = .ok r ∧ ((∃ a, r = .ok a) ↔ P)

section
variable {ε α : Type} {run : Checked (Except ε α)} {P Q : Prop}

/-- The condition can be put differently. -/
theorem Decides.congr (h : Decides run P) (hPQ : P ↔ Q) : Decides run Q := by
  obtain ⟨r, hrun, hr⟩ := h
  exact ⟨r, hrun, hr.trans hPQ⟩

/-- A step that accepts decides a condition that holds. -/
theorem decides_accept (a : α) (hP : P) : Decides (.ok (.ok a) : Checked (Except ε α)) P :=
  ⟨_, rfl, fun _ => hP, fun _ => ⟨a, rfl⟩⟩

/-- A step that rejects decides a condition that fails. -/
theorem decides_reject (e : ε) (hP : ¬ P) : Decides (.ok (.error e) : Checked (Except ε α)) P := by
  refine ⟨_, rfl, fun haccepted => ?_, fun hholds => absurd hholds hP⟩
  obtain ⟨a, ha⟩ := haccepted
  cases ha

/-- What is decided is one of the two. -/
theorem Decides.cases (h : Decides run P) :
    (∃ a, run = .ok (.ok a) ∧ P) ∨ ∃ e, run = .ok (.error e) ∧ ¬ P := by
  obtain ⟨r, hrun, hr⟩ := h
  cases r with
  | ok a => exact .inl ⟨a, hrun, hr.mp ⟨a, rfl⟩⟩
  | error e =>
      refine .inr ⟨e, hrun, fun hP => ?_⟩
      obtain ⟨a, ha⟩ := hr.mpr hP
      cases ha

end

namespace Problem

variable {c : Config} {p p' p'' : Problem} {l : NamedLiteral} {m : Literal} {d : Directive}
  {words : List String}

-- =============================================================== variables

/-- Variables were named, and nothing else changed. -/
structure Named (p p' : Problem) : Prop where
  timepoints : p'.timepoints = p.timepoints
  network : p'.solver.theory.network = p.solver.theory.network
  hasVariable (v : BoolVar) :
    p.solver.theory.hasVariable v = true → p'.solver.theory.hasVariable v = true

theorem Named.refl (p : Problem) : Named p p := ⟨rfl, rfl, fun _ hv => hv⟩

theorem Named.trans (h : Named p p') (h' : Named p' p'') : Named p p'' :=
  ⟨h'.timepoints.trans h.timepoints, h'.network.trans h.network,
    fun v hv => h'.hasVariable v (h.hasVariable v hv)⟩

/-- A literal names at most its variable. -/
theorem named_literal (hrun : p.literal l = (p', m)) : Named p p' := by
  unfold literal at hrun
  cases hfound : p.boolVars.lookup l.name with
  | some m₀ =>
      simp only [hfound, Prod.mk.injEq] at hrun
      obtain ⟨rfl, -⟩ := hrun
      exact .refl _
  | none =>
      simp only [hfound, Prod.mk.injEq] at hrun
      obtain ⟨rfl, -⟩ := hrun
      exact ⟨rfl, rfl, fun v hv =>
        (Theory.extended_newVariable p.solver.theory).hasVariable hv⟩

/-- Literals name at most their variables. -/
theorem named_literals {ls : List NamedLiteral} {ms : List Literal}
    (hrun : p.literals ls = (p', ms)) : Named p p' := by
  induction ls generalizing p ms with
  | nil =>
      cases hrun
      exact .refl _
  | cons l ls ih =>
      unfold literals at hrun
      cases hfirst : p.literal l with
      | mk p₁ m =>
          cases hrest : p₁.literals ls with
          | mk p₂ rest =>
              simp only [hfirst, hrest, Prod.mk.injEq] at hrun
              obtain ⟨rfl, -⟩ := hrun
              exact (named_literal hfirst).trans (ih hrest)

/-- The variables of literals are there once all are named. -/
theorem hasVariable_of_literals {ls : List NamedLiteral} {ms : List Literal} (h : Parsed c p)
    (hrun : p.literals ls = (p', ms)) : ∀ m ∈ ms, p'.solver.theory.hasVariable m.var = true := by
  induction ls generalizing p ms with
  | nil =>
      cases hrun
      exact fun m hm => absurd hm List.not_mem_nil
  | cons l ls ih =>
      unfold literals at hrun
      cases hfirst : p.literal l with
      | mk p₁ m =>
          cases hrest : p₁.literals ls with
          | mk p₂ rest =>
              simp only [hfirst, hrest, Prod.mk.injEq] at hrun
              obtain ⟨rfl, rfl⟩ := hrun
              obtain ⟨hbuilds, hvar, -⟩ := builds_literal h hfirst
              rw [List.forall_mem_cons]
              exact ⟨(named_literals hrest).hasVariable m.var hvar, ih hbuilds.parsed hrest⟩

-- ============================================================== directives

/-- A step of the theory decides for the problem what it decides there. -/
theorem decides_onTheory {α : Type} {p : Problem} {step : Checked (Theory × Except Refusal α)}
    {next : Problem → α → Problem} {P : Prop}
    (h : ∃ t r, step = .ok (t, r) ∧ ((∃ a, r = .ok a) ↔ P)) :
    Decides (p.onTheory step next) P := by
  obtain ⟨t, r, hstep, hr⟩ := h
  unfold onTheory
  rw [hstep]
  cases r with
  | ok a => exact decides_accept _ (hr.mp ⟨a, rfl⟩)
  | error refusal =>
      refine decides_reject _ fun hP => ?_
      obtain ⟨a, ha⟩ := hr.mpr hP
      cases ha

/-- A directive about timepoints that are there is accepted if and only
if its numbers are in range. -/
theorem decides_add (h : Parsed c p)
    (hplaced : ∀ tp ∈ d.timepoints, p.solver.theory.network.hasTimepoint tp = true) :
    Decides (p.add d) d.InRange := by
  have hlevel : p.solver.theory.level = .root := h.stack.level_eq
  cases d with
  | timepoint name domain =>
      rw [add]
      refine (decides_onTheory (Theory.accepts_attempt
        (h.settled.exists_newTimepoint h.stack.graph_level domain))).congr ?_
      rw [Theory.checks_eq_ok, Theory.checkRoot_eq_ok, Theory.checkDomain_eq_ok]
      exact and_iff_right hlevel
  | edge source target weight =>
      rw [add]
      simp only [Directive.timepoints, List.forall_mem_cons] at hplaced
      refine (decides_onTheory (Theory.accepts_attempt
        (h.settled.exists_addPermanentEdge source target weight))).congr ?_
      rw [Theory.checks_eq_ok, Theory.checkRoot_eq_ok, Theory.checkEdge_eq_ok]
      exact ⟨fun hchecks => hchecks.2.2.2,
        fun hrange => ⟨hlevel, hplaced.1, hplaced.2.1, hrange⟩⟩
  -- naming the guard first leaves network and level as they are
  | conditional guard source target weight =>
      rw [add]
      cases hliteral : p.literal guard with
      | mk p₁ m =>
          obtain ⟨hbuilds, hvar, -⟩ := builds_literal h hliteral
          have hlevel₁ : p₁.solver.theory.level = .root := hbuilds.parsed.stack.level_eq
          rw [← (named_literal hliteral).network] at hplaced
          simp only [Directive.timepoints, List.forall_mem_cons] at hplaced
          refine (decides_onTheory (Theory.accepts_attempt
            (hbuilds.parsed.settled.exists_addEdge
              ⟨source, target, weight, .conditional m⟩))).congr ?_
          simp only [Theory.checks_eq_ok, Theory.checkRoot_eq_ok, Theory.checkLiteral_eq_ok,
            Theory.checkEdge_eq_ok]
          exact ⟨fun hchecks => hchecks.2.2.2.2,
            fun hrange => ⟨hlevel₁, hvar, hplaced.1, hplaced.2.1, hrange⟩⟩
  | bound literal fact =>
      rw [add]
      cases hliteral : p.literal literal with
      | mk p₁ m =>
          obtain ⟨hbuilds, hvar, -⟩ := builds_literal h hliteral
          have hlevel₁ : p₁.solver.theory.level = .root := hbuilds.parsed.stack.level_eq
          rw [← (named_literal hliteral).network] at hplaced
          have htimepoint := hplaced fact.timepoint List.mem_cons_self
          refine (decides_onTheory (Theory.accepts_attempt
            (hbuilds.parsed.settled.exists_bindBound m fact))).congr ?_
          simp only [Theory.checks_eq_ok, Theory.checkRoot_eq_ok, Theory.checkLiteral_eq_ok,
            Theory.checkFact_eq_ok]
          exact ⟨fun hchecks => hchecks.2.2.2, fun hrange => ⟨hlevel₁, hvar, htimepoint, hrange⟩⟩
  -- a clause is never refused, as its variables have just been named
  | clause literals =>
      rw [add]
      cases hliterals : p.literals literals with
      | mk p₁ ms =>
          have hvars := hasVariable_of_literals h hliterals
          obtain ⟨s, hadd⟩ := Solver.exists_addClause (s := p₁.solver) (d := .ofList ms)
            fun m hm => hvars m (Disjunction.mem_ofList.mp hm)
          simp only [hadd]
          exact decides_accept _ trivial

/-- A timepoint that is declared is named after those before. -/
theorem timepoints_add (hrun : p.add d = .ok (.ok p')) :
    p'.timepoints.map Prod.fst = p.timepoints.map Prod.fst ++ d.declares := by
  rw [add.eq_def] at hrun
  cases d with
  | timepoint name domain =>
      obtain ⟨t, tp, -, rfl⟩ := onTheory_eq_ok hrun
      exact List.map_append
  | edge source target weight =>
      obtain ⟨t, id, -, rfl⟩ := onTheory_eq_ok hrun
      exact (List.append_nil _).symm
  | conditional guard source target weight =>
      cases hliteral : p.literal guard with
      | mk p₁ m =>
          simp only [hliteral] at hrun
          obtain ⟨t, id, -, rfl⟩ := onTheory_eq_ok hrun
          rw [← (named_literal hliteral).timepoints]
          exact (List.append_nil _).symm
  | bound literal fact =>
      cases hliteral : p.literal literal with
      | mk p₁ m =>
          simp only [hliteral] at hrun
          obtain ⟨t, u, -, rfl⟩ := onTheory_eq_ok hrun
          rw [← (named_literal hliteral).timepoints]
          exact (List.append_nil _).symm
  | clause literals =>
      cases hliterals : p.literals literals with
      | mk p₁ ms =>
          simp only [hliterals] at hrun
          split at hrun
          next s hadd =>
            cases hrun
            rw [← (named_literals hliterals).timepoints]
            exact (List.append_nil _).symm
          next => cases hrun

-- =================================================================== lines

/-- The names that can be used are those that were declared. -/
theorem exists_timepoint?_iff {name : String} :
    (∃ tp, p.timepoint? name = some tp) ↔ Known (p.timepoints.map Prod.fst) name := by
  unfold timepoint? Known
  by_cases horigin : name = originName
  · rw [if_pos horigin]
    exact ⟨fun _ => .inl horigin, fun _ => ⟨_, rfl⟩⟩
  · rw [if_neg horigin, or_iff_right horigin, ← Option.isSome_iff_exists,
      List.lookup_isSome_iff, List.mem_map]
    simp only [beq_iff_eq, @eq_comm _ name]

/-- A line is accepted if and only if its words conform. -/
theorem decides_addWords (h : Parsed c p) (words : List String) :
    Decides (p.addWords words) (Conforms (p.timepoints.map Prod.fst) words) := by
  rw [← Directive.exists_ofWords_iff_conforms fun name => exists_timepoint?_iff]
  unfold addWords
  cases hwords : Directive.ofWords p.timepoint? words with
  | error e =>
      refine decides_reject e fun hread => ?_
      obtain ⟨d, hd, -⟩ := hread
      cases hd
  | ok d =>
      apply (decides_add h ?_).congr
      · simp
      · intro tp htp
        obtain ⟨name, hname⟩ := Directive.exists_of_mem_timepoints hwords htp
        exact h.timepoint name tp hname

/-- A line that is accepted declares what its words say. -/
theorem timepoints_addWords (hrun : p.addWords words = .ok (.ok p')) :
    p'.timepoints.map Prod.fst = p.timepoints.map Prod.fst ++ declaredBy words := by
  obtain ⟨d, hwords, hadd⟩ := addWords_eq_ok hrun
  rw [timepoints_add hadd, Directive.declares_of_ofWords hwords]

-- =================================================================== texts

/-- A line declares after the lines before it. -/
theorem declaredIn_concat (lines : List (List Char)) (line : List Char) :
    declaredIn (lines ++ [line]) = declaredIn lines ++ declaredBy (lineWords line) := by
  unfold declaredIn
  rw [List.flatMap_append, List.flatMap_singleton]

/-- The next line, after lines that were taken up. -/
theorem conformsAt_length (seen rest : List (List Char)) (line : List Char) :
    ConformsAt (seen ++ line :: rest) seen.length ↔
      lineWords line = [] ∨ Conforms (declaredIn seen) (lineWords line) := by
  unfold ConformsAt
  rw [List.take_left' rfl]
  simp

/-- From a position on all lines conform and are accepted, or the first
that does not conform is reported. -/
def Reports (lines : List (List Char)) (n : Nat) (run : Checked (Except ParseError Problem)) :
    Prop :=
  (∃ p, run = .ok (.ok p) ∧ ∀ i, n ≤ i → ConformsAt lines i) ∨
    ∃ e i, run = .ok (.error e) ∧ e.line = i + 1 ∧ ¬ ConformsAt lines i ∧
      ∀ j, n ≤ j → j < i → ConformsAt lines j

section
variable {lines : List (List Char)} {n : Nat} {run : Checked (Except ParseError Problem)}

/-- A line that conforms is passed. -/
theorem Reports.pass (h : Reports lines (n + 1) run) (hn : ConformsAt lines n) :
    Reports lines n run := by
  have hfirst : ∀ i, n ≤ i → (n + 1 ≤ i → ConformsAt lines i) → ConformsAt lines i := by
    intro i hi hlater
    by_cases heq : i = n
    · exact heq ▸ hn
    · exact hlater (by omega)
  rcases h with ⟨p, hrun, hall⟩ | ⟨e, i, hrun, hline, hfails, hbefore⟩
  · exact .inl ⟨p, hrun, fun i hi => hfirst i hi (hall i)⟩
  · exact .inr ⟨e, i, hrun, hline, hfails,
      fun j hj hlt => hfirst j hj fun hj' => hbefore j hj' hlt⟩

/-- A line that does not conform is where it ends. -/
theorem Reports.stop {e : ParseError} (hline : e.line = n + 1) (hn : ¬ ConformsAt lines n) :
    Reports lines n (.ok (.error e)) :=
  .inr ⟨e, n, rfl, hline, hn, fun _ hj hlt => absurd hlt (Nat.not_lt.mpr hj)⟩

end

/-- Lines after others are taken up, if the names are those that the
others declared. -/
theorem reports_addLines (seen : List (List Char)) {lines : List (List Char)} (h : Parsed c p)
    (hnames : p.timepoints.map Prod.fst = declaredIn seen) :
    Reports (seen ++ lines) seen.length (addLines (seen.length + 1) lines p) := by
  induction lines generalizing seen p with
  | nil =>
      refine .inl ⟨p, rfl, fun i hi line hline => ?_⟩
      rw [List.append_nil, List.getElem?_eq_none hi] at hline
      cases hline
  | cons line rest ih =>
      -- once the line is taken up, the rest follows with it among those seen
      have hrest : ∀ p₁, Parsed c p₁ → p₁.timepoints.map Prod.fst =
          declaredIn seen ++ declaredBy (lineWords line) →
            Reports (seen ++ line :: rest) (seen.length + 1)
              (addLines (seen.length + 1 + 1) rest p₁) := by
        intro p₁ h₁ hnames₁
        have hnext := ih (seen ++ [line]) h₁ (hnames₁.trans (declaredIn_concat ..).symm)
        rwa [List.append_assoc, List.length_append] at hnext
      have hconforms := conformsAt_length seen rest line
      unfold addLines
      by_cases hblank : lineWords line = []
      · rw [if_pos (List.isEmpty_iff.mpr (content_eq_nil_iff.mpr hblank))]
        refine (hrest p h ?_).pass (hconforms.mpr (.inl hblank))
        rw [hnames, hblank]
        exact (List.append_nil _).symm
      · rw [if_neg fun hc => hblank (content_eq_nil_iff.mp (List.isEmpty_iff.mp hc)),
          words_content]
        rw [or_iff_right hblank, ← hnames] at hconforms
        rcases (decides_addWords h (lineWords line)).cases with
          ⟨p₁, hwords, haccepted⟩ | ⟨e, hwords, hrefused⟩
        · rw [hwords]
          refine (hrest p₁ (builds_addWords h hwords).parsed ?_).pass (hconforms.mpr haccepted)
          rw [timepoints_addWords hwords, hnames]
        · rw [hwords]
          exact .stop rfl fun hn => hrefused (hconforms.mp hn)

/-- Exactly the texts of the format are accepted: those in which each
line has no words, or words that conform after the lines before it. For
any other text the first line that does not conform is reported, numbered
from 1. There is always an answer, and whether the lines can be satisfied
together has no part in it. -/
theorem parse_iff_conforms (c : Config) (polarity : Bool) (text : String) :
    ∃ r, parse text (.ofTheory (.initial c) polarity) = .ok r ∧
      ((∃ p, r = .ok p) ↔ ∀ i, ConformsAt (textLines text) i) ∧
      ∀ e, r = .error e → ∃ i, e.line = i + 1 ∧ ¬ ConformsAt (textLines text) i ∧
        ∀ j < i, ConformsAt (textLines text) j := by
  have hreports : Reports (textLines text) 0
      (parse text (.ofTheory (.initial c) polarity)) := by
    unfold parse
    rw [lines_eq_textLines]
    exact reports_addLines [] (parsed_ofSolver c polarity) rfl
  rcases hreports with ⟨p, hrun, hall⟩ | ⟨e, i, hrun, hline, hfails, hbefore⟩
  · refine ⟨.ok p, hrun, ⟨fun _ i => hall i (Nat.zero_le i), fun _ => ⟨p, rfl⟩⟩, ?_⟩
    intro e he
    cases he
  · refine ⟨.error e, hrun, ⟨fun haccepted => ?_, fun hall => absurd (hall i) hfails⟩, ?_⟩
    · obtain ⟨p, hp⟩ := haccepted
      cases hp
    · intro e' he'
      cases he'
      exact ⟨i, hline, hfails, fun j hj => hbefore j (Nat.zero_le j) hj⟩

-- lines that contradict each other are taken up nevertheless
example : (parse "tp a 0 5\nedge a origin -6" (.ofTheory (.initial .standard) true)).answers
    (fun r => match r with
      | .ok p => p.solver.theory.conflict.isSome
      | .error _ => false) = true := by decide +kernel

end Problem

end TemporalNetwork
