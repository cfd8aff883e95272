/-
Histories of a solver.

Whatever is asked of a solver, it keeps what it was told: the problem
grows, variables stay and clauses are at most reordered (`Keeps`). So the
history of requests and answers can be read off the state that it led to
(`Records`): the clauses that were accepted are listed, and the edges are
there that were added.

# What an answer says

A solution solves the whole problem that was recorded, and if there is
said to be none then there is none. The second statement is about all
that was accepted, and not about literals that were set from outside: a
literal that is set at the root of the theory stays set, although no
clause says so.

Both are instances of one induction. It follows a set of assignments, in
which the clauses hold and which the network admits; for solutions the
set is empty, so that nothing has to be known of the literals that were
set.
-/
import TemporalNetwork.Proofs.Literal.Disjunction
import TemporalNetwork.Proofs.Solver.Solution
import TemporalNetwork.Solver.Request

namespace TemporalNetwork

open Theory (Stack Turns)

variable {σ : BoolVar → Bool} {M N : Set (BoolVar → Bool)} {t t' : Theory} {d : Disjunction}
  {l : Literal}

namespace Solver

variable {s s' s'' : Solver} {x : Solution} {c : Config} {polarity : Bool} {deadline : Deadline}
  {rs : List Request} {history : List (Request × Reply)}

-- ================================================================== accepted

/-- The check passes when all variables are there. -/
theorem checkLiterals_eq_ok {ls : List Literal} :
    checkLiterals t ls = .ok () ↔ ∀ l ∈ ls, t.hasVariable l.var = true := by
  induction ls with
  | nil => exact ⟨fun _ l hl => absurd hl List.not_mem_nil, fun _ => rfl⟩
  | cons l ls ih =>
      unfold checkLiterals
      rw [Theory.checks_eq_ok, Theory.checkLiteral_eq_ok, ih, List.forall_mem_cons]

/-- A clause over variables of the theory is accepted. -/
theorem exists_addClause (h : ∀ l ∈ d.literals, s.theory.hasVariable l.var = true) :
    ∃ s', s.addClause d = (s', .ok ()) := by
  unfold addClause
  rw [checkLiterals_eq_ok.mpr h]
  by_cases htautology : d.isTautology = true
  · exact ⟨s, if_pos htautology⟩
  · exact ⟨_, if_neg htautology⟩

/-- A clause that is accepted is added, unless it holds anyway. -/
theorem addClause_eq_ok (h : s.addClause d = (s', .ok ())) :
    (∀ l ∈ d.literals, s.theory.hasVariable l.var = true) ∧
      (d.isTautology = true ∧ s' = s ∨
        s' = { s with clauses := (s.clauses.add (.ofDisjunction d false)).1 }) := by
  unfold addClause at h
  split at h
  next => cases h
  next hcheck =>
    refine ⟨checkLiterals_eq_ok.mp hcheck, ?_⟩
    split at h
    next htautology =>
      cases h
      exact .inl ⟨htautology, rfl⟩
    next =>
      cases h
      exact .inr rfl

/-- A clause that is refused leaves nothing behind. -/
theorem addClause_eq_error {r : Refusal} (h : s.addClause d = (s', .error r)) : s' = s := by
  unfold addClause at h
  split at h
  next =>
    cases h
    rfl
  next =>
    split at h
    next => cases h
    next => cases h

-- =================================================================== keeping

/-- What was there is there still. -/
structure Keeps (s s' : Solver) : Prop where
  network : s.theory.network.Grows s'.theory.network
  hasVariable (v : BoolVar) : s.theory.hasVariable v = true → s'.theory.hasVariable v = true
  clauses : s.clauses.Keeps s'.clauses
  /-- What is learnt follows from the network. -/
  learnt : s.clauses.Justified s.theory.network → s'.clauses.Justified s'.theory.network

theorem Keeps.refl (s : Solver) : Keeps s s :=
  ⟨.refl _, fun _ hv => hv, (ClauseDatabase.Reorders.refl _).keeps, fun hs => hs⟩

/-- What is kept twice is kept. -/
theorem Keeps.trans (h : Keeps s s') (h' : Keeps s' s'') : Keeps s s'' :=
  ⟨h.network.trans h'.network, fun v hv => h'.hasVariable v (h.hasVariable v hv),
    h.clauses.trans h'.clauses, fun hs => h'.learnt (h.learnt hs)⟩

/-- The problem grows and the clauses are left alone. -/
theorem keeps_of_clauses_eq (hnetwork : s.theory.network.Grows s'.theory.network)
    (hvar : ∀ v, s.theory.hasVariable v = true → s'.theory.hasVariable v = true)
    (hclauses : s'.clauses = s.clauses) : Keeps s s' := by
  refine ⟨hnetwork, hvar, ?_, fun hs => ?_⟩
  · rw [hclauses]
    exact (ClauseDatabase.Reorders.refl _).keeps
  · rw [hclauses]
    exact hs.grows hnetwork

/-- A search keeps what was there. -/
theorem Continues.keeps (h : Continues s s') : Keeps s s' := by
  refine ⟨?_, fun v hv => ?_, h.clauses, h.learnt⟩
  · rw [h.network]
    exact .refl _
  · rw [h.hasVariable]
    exact hv

/-- What solves a problem solves what it has grown from. -/
theorem Keeps.solves (h : Keeps s s') (hx : x.Solves s') : x.Solves s := by
  refine ⟨fun v hv => hx.value v (h.hasVariable v hv), fun id hid => ?_,
    fun tp htp => hx.time tp (h.network.timepoint tp htp).1, hx.origin, fun tp htp => ?_,
    fun e he hin hguard => hx.edge e (h.network.contains he) hin hguard⟩
  · obtain ⟨l, hl, htrue⟩ := hx.clause id (h.clauses.has id hid)
    exact ⟨l, (h.clauses.perm id hid).mem_iff.mp hl, htrue⟩
  · obtain ⟨htp', hdomain⟩ := h.network.timepoint tp htp
    rw [← hdomain]
    exact hx.domain tp htp'

/-- The clause is listed, or holds anyway. -/
structure Lists (s : Solver) (d : Disjunction) : Prop where
  hasVariable (l : Literal) : l ∈ d.literals → s.theory.hasVariable l.var = true
  listed : (∃ l ∈ d.literals, l.negate ∈ d.literals) ∨
    ∃ id, s.clauses.Has id ∧ (s.clauses.literalsOf id).Perm d.literals

/-- Clauses stay listed. -/
theorem Keeps.lists (h : Keeps s s') (hd : s.Lists d) : s'.Lists d := by
  refine ⟨fun l hl => h.hasVariable _ (hd.hasVariable l hl), ?_⟩
  rcases hd.listed with hopposite | ⟨id, hid, hperm⟩
  · exact .inl hopposite
  · exact .inr ⟨id, h.clauses.has id hid, (h.clauses.perm id hid).trans hperm⟩

/-- A solution satisfies every clause that is listed. -/
theorem Lists.exists_holds (h : s.Lists d) (hx : x.Solves s) : ∃ l ∈ d.literals, x.Holds l := by
  rcases h.listed with ⟨l, hl, hnegate⟩ | ⟨id, hid, hperm⟩
  · by_cases htrue : x.Holds l
    · exact ⟨l, hl, htrue⟩
    · exact ⟨l.negate, hnegate, (hx.holds_negate (h.hasVariable l hl)).mpr htrue⟩
  · obtain ⟨l, hl, htrue⟩ := hx.clause id hid
    exact ⟨l, hperm.mem_iff.mp hl, htrue⟩

/-- What was asked for and accepted is part of the problem. -/
structure Records (s : Solver) (history : List (Request × Reply)) : Prop where
  clause (d : Disjunction) : (.addClause d, .done) ∈ history → s.Lists d
  edge (r : Theory.Request) (reply : Theory.Reply) : (.theory r, .theory reply) ∈ history →
    ∀ e ∈ r.added reply, s.theory.network.Contains e

/-- What was recorded stays recorded. -/
theorem Keeps.records (h : Keeps s s') (hs : s.Records history) : s'.Records history where
  clause d hd := h.lists (hs.clause d hd)
  edge r reply hr e he := h.network.contains (hs.edge r reply hr e he)

theorem records_nil (s : Solver) : s.Records [] where
  clause _ hd := absurd hd List.not_mem_nil
  edge _ _ hr := absurd hr List.not_mem_nil

/-- A record can be extended by one request. -/
theorem Records.cons {p : Request × Reply} (h : s.Records [p]) (hs : s.Records history) :
    s.Records (p :: history) where
  clause d hd := by
    rcases List.mem_cons.mp hd with rfl | hd
    · exact h.clause d List.mem_cons_self
    · exact hs.clause d hd
  edge r reply hr := by
    rcases List.mem_cons.mp hr with rfl | hr
    · exact h.edge r reply List.mem_cons_self
    · exact hs.edge r reply hr

-- ============================================================== one request

/-- Fewer assignments are followed. -/
theorem Settled.mono (h : Settled M s) (hN : N ⊆ M) : Settled N s := by
  obtain ⟨ts, hts, hroot⟩ := h.levels
  exact ⟨h.formed, fun σ hσ => h.clauses σ (hN hσ), fun σ hσ => h.admits σ (hN hσ),
    ts, hts, fun σ hσ => hroot σ (hN hσ)⟩

/-- The theory takes turns, and the clauses are left alone. -/
theorem Settled.turns (h : Settled M s)
    (hturns : ∀ ts, Stack ts s.theory → ∃ ts', Turns (ts, s.theory) (ts', s'.theory))
    (hclauses : s'.clauses = s.clauses) (hadmits : ∀ σ ∈ M, s'.theory.network.Admits σ) :
    Settled M s' ∧ Keeps s s' := by
  obtain ⟨ts, hts, hroot⟩ := h.levels
  obtain ⟨ts', hrun⟩ := hturns ts hts
  have hvar : ∀ v, s.theory.hasVariable v = true → s'.theory.hasVariable v = true :=
    fun v hv => hrun.hasVariable hv
  refine ⟨⟨?_, ?_, hadmits, ts', hrun.stack hts, fun σ hσ => ?_⟩,
    keeps_of_clauses_eq (hrun.grows hts) hvar hclauses⟩
  · rw [hclauses]
    exact h.formed.mono hvar
  · rw [hclauses]
    exact h.clauses
  · exact hrun.holdsIn_root hts (hadmits σ hσ) (hroot σ hσ)

/-- A literal is set from outside. -/
theorem Settled.assign {r : Except Theory.AssignError Unit} (h : Settled ∅ s)
    (hrun : s.theory.assign l = .ok (s'.theory, r)) (hclauses : s'.clauses = s.clauses) :
    Settled ∅ s' ∧ Keeps s s' := by
  obtain ⟨ts, hts, -⟩ := h.levels
  obtain ⟨hextends, hsame, hsettled⟩ := Theory.extends_assign hts.settled hrun
  have hvar : ∀ v, s.theory.hasVariable v = true → s'.theory.hasVariable v = true := by
    intro v hv
    rw [hsame.hasVariable]
    exact hv
  refine ⟨⟨?_, fun σ hσ => absurd hσ (Set.notMem_empty σ), fun σ hσ => absurd hσ
    (Set.notMem_empty σ), ts, hts.extends hextends hsettled, fun σ hσ => absurd hσ
    (Set.notMem_empty σ)⟩, keeps_of_clauses_eq ?_ hvar hclauses⟩
  · rw [hclauses]
    exact h.formed.mono hvar
  · rw [hsame.network]
    exact .refl _

/-- A clause is added at any level. -/
theorem Settled.addClause (h : Settled M s) (hrun : s.addClause d = (s', .ok ()))
    (hd : ∀ σ ∈ M, ∃ l ∈ d.literals, l.Holds σ) : Settled M s' ∧ Keeps s s' := by
  obtain ⟨hvar, ⟨-, rfl⟩ | rfl⟩ := addClause_eq_ok hrun
  · exact ⟨h, .refl _⟩
  · have hnodup : d.literals.Nodup := Literals.Increasing.nodup d.increasing
    refine ⟨⟨h.formed.add hnodup hvar, fun σ hσ => (h.clauses σ hσ).add (hd σ hσ), h.admits,
      h.levels⟩, .refl _, fun v hv => hv, ClauseDatabase.keeps_add _ _, fun hs => ?_⟩
    -- it was given and not learnt
    exact hs.add fun hlearnt => absurd hlearnt Bool.false_ne_true

/-- A request keeps what there was, and loses no assignment, unless it
sets a literal. -/
theorem Settled.perform {r : Request} {reply : Reply} (h : Settled M s)
    (hrun : s.perform r = .ok (s', reply)) (hset : (∃ l, r = .theory (.assign l)) → M = ∅)
    (hclause : ∀ d, r = .addClause d → reply = .done → ∀ σ ∈ M, ∃ l ∈ d.literals, l.Holds σ)
    (hadmits : ∀ σ ∈ M, s'.theory.network.Admits σ) : Settled M s' ∧ Keeps s s' := by
  cases r with
  | theory r =>
      obtain ⟨⟨t, answer⟩, hperform, heq⟩ := Checked.map_eq_ok.mp hrun
      cases heq
      -- an assignment decides, so that no valuation is followed; other requests take
      -- turns
      by_cases hassign : ∃ l, r = .assign l
      · obtain ⟨l, rfl⟩ := hassign
        obtain rfl := hset ⟨l, rfl⟩
        obtain ⟨result, hresult, -⟩ := Theory.replying_eq_ok.mp hperform
        have hkept : Settled ∅ { s with theory := t } ∧ Keeps s { s with theory := t } :=
          h.assign hresult rfl
        exact hkept
      · refine h.turns (fun ts hts => ?_) rfl hadmits
        obtain ⟨ts', hturns, -⟩ :=
          Theory.turns_perform hts (fun l hl => hassign ⟨l, hl⟩) hperform
        exact ⟨ts', hturns⟩
  | addClause d =>
      unfold Solver.perform at hrun
      simp only at hrun
      split at hrun
      next s₁ hadd =>
        cases hrun
        exact h.addClause hadd (hclause d rfl rfl)
      next s₁ refusal hadd =>
        cases hrun
        rw [addClause_eq_error hadd]
        exact ⟨h, .refl _⟩
  | setPolarity positive =>
      cases hrun
      exact h.turns (fun ts _ => ⟨ts, .refl⟩) rfl h.admits
  | solve deadline =>
      obtain ⟨⟨s₁, result⟩, hsolve, heq⟩ := Checked.map_eq_ok.mp hrun
      cases heq
      obtain ⟨hcontinues, hsettled, -⟩ := solve_eq_ok h hsolve
      exact ⟨hsettled, hcontinues.keeps⟩
  | reset =>
      obtain ⟨⟨s₁, result⟩, hreset, heq⟩ := Checked.map_eq_ok.mp hrun
      cases heq
      unfold Solver.reset at hreset
      simp only [Checked.bind_eq_ok, Checked.pure_eq_ok, Prod.mk.injEq] at hreset
      obtain ⟨⟨t, result'⟩, hback, rfl, -⟩ := hreset
      refine h.turns (fun ts hts => ?_) rfl hadmits
      obtain ⟨ts', hturns, -⟩ := Theory.turns_backtrack hts hback
      exact ⟨ts', hturns⟩

/-- What a request records if it is accepted. -/
theorem records_perform {r : Request} {reply : Reply} (h : Settled M s)
    (hrun : s.perform r = .ok (s', reply)) : s'.Records [(r, reply)] := by
  refine ⟨fun d hd => ?_, fun r reply hr => ?_⟩
  · cases List.mem_singleton.mp hd
    unfold Solver.perform at hrun
    simp only at hrun
    split at hrun
    next s₁ hadd =>
      cases hrun
      obtain ⟨hvar, ⟨htautology, rfl⟩ | rfl⟩ := addClause_eq_ok hadd
      · exact ⟨hvar, .inl (Disjunction.isTautology_iff.mp htautology)⟩
      · refine ⟨hvar, .inr ⟨_, ClauseDatabase.has_add.mpr (.inl rfl), ?_⟩⟩
        rw [ClauseDatabase.literalsOf_add_self]
        exact .refl _
    next => cases hrun
  · cases List.mem_singleton.mp hr
    obtain ⟨⟨t, answer⟩, hperform, heq⟩ := Checked.map_eq_ok.mp hrun
    cases heq
    obtain ⟨ts, hts, -⟩ := h.levels
    exact Theory.contains_perform hts.settled hperform

-- ================================================================== histories

/-- A solver that was asked nothing yet. -/
theorem settled_ofTheory
    (hadmits : ∀ σ ∈ M, (ofTheory (.initial c) polarity).theory.network.Admits σ) :
    Settled M (ofTheory (.initial c) polarity) := by
  have hnone : ∀ id, ¬ (ofTheory (.initial c) polarity).clauses.Has id :=
    fun id hid => absurd hid (Nat.not_lt_zero _)
  refine ⟨⟨fun id hid => absurd hid (hnone id), fun id hid => absurd hid (hnone id)⟩,
    fun σ _ id hid => absurd hid (hnone id), hadmits, [],
    .root (Theory.settled_initial c) (Theory.atRoot_initial c), fun σ _ l hl => ?_⟩
  exact absurd ((Theory.coherent_initial c).assigned l |>.mpr hl) List.not_mem_nil

/-- After any history the problem has all that was accepted. -/
theorem records_performAll (h : Settled ∅ s) (hrun : s.performAll rs = .ok (s', history)) :
    Settled ∅ s' ∧ Keeps s s' ∧ s'.Records history := by
  induction rs generalizing s history with
  | nil =>
      cases hrun
      exact ⟨h, .refl _, records_nil _⟩
  | cons r rs ih =>
      unfold performAll at hrun
      simp only [Checked.bind_eq_ok, Checked.pure_eq_ok, Prod.mk.injEq] at hrun
      obtain ⟨⟨s₁, reply⟩, hfirst, ⟨s₂, rest⟩, hrest, rfl, rfl⟩ := hrun
      obtain ⟨hsettled, hkeeps⟩ := h.perform hfirst (fun _ => rfl)
        (fun _ _ _ σ hσ => absurd hσ (Set.notMem_empty σ))
        (fun σ hσ => absurd hσ (Set.notMem_empty σ))
      obtain ⟨hsettled', hkeeps', hrecords⟩ := ih hsettled hrest
      exact ⟨hsettled', hkeeps.trans hkeeps',
        (hkeeps'.records (records_perform h hfirst)).cons hrecords⟩

/-- After any requests a solver is settled. -/
theorem settled_of_performAll
    (h : (ofTheory (.initial c) polarity).performAll rs = .ok (s, history)) : Settled ∅ s :=
  (records_performAll (settled_ofTheory fun σ hσ => absurd hσ (Set.notMem_empty σ)) h).1

/-- Assignments in which all clauses that were accepted hold, and which
the problem admits in the end, are followed through the history. -/
theorem Settled.performAll (h : Settled M s) (hrun : s.performAll rs = .ok (s', history))
    (hset : ∀ l, .theory (.assign l) ∉ rs)
    (hclause : ∀ d, (.addClause d, .done) ∈ history → ∀ σ ∈ M, ∃ l ∈ d.literals, l.Holds σ)
    (hadmits : ∀ σ ∈ M, s'.theory.network.Admits σ) : Settled M s' := by
  induction rs generalizing s history with
  | nil =>
      cases hrun
      exact h
  | cons r rs ih =>
      unfold Solver.performAll at hrun
      simp only [Checked.bind_eq_ok, Checked.pure_eq_ok, Prod.mk.injEq] at hrun
      obtain ⟨⟨s₁, reply⟩, hfirst, ⟨s₂, rest⟩, hrest, rfl, rfl⟩ := hrun
      have hnone : (∃ l, r = .theory (.assign l)) → ∀ N : Set (BoolVar → Bool), N = ∅ := by
        rintro ⟨l, rfl⟩
        exact absurd List.mem_cons_self (hset l)
      -- what the problem admits in the end it admits on the way
      have hgrows : s₁.theory.network.Grows s₂.theory.network := by
        obtain ⟨hsettled, -⟩ := (h.mono (Set.empty_subset M)).perform hfirst
          (fun hl => hnone hl ∅) (fun _ _ _ σ hσ => absurd hσ (Set.notMem_empty σ))
          (fun σ hσ => absurd hσ (Set.notMem_empty σ))
        exact (records_performAll hsettled hrest).2.1.network
      obtain ⟨hsettled, -⟩ := h.perform hfirst (fun hl => hnone hl M)
        (fun d hd hreply => hclause d (by rw [hd, hreply]; exact List.mem_cons_self))
        (fun σ hσ => hgrows.admits (hadmits σ hσ))
      exact ih hsettled hrest (fun l hl => hset l (List.mem_cons_of_mem r hl))
        (fun d hd => hclause d (List.mem_cons_of_mem _ hd))

-- ==================================================================== answers

/-- Solutions are right. A solution has a value for every variable and a
time for every timepoint, in its domain; all clauses that were accepted
hold, and so do all edges in force but those that are only used for upper
bounds. A literal that was bound is true if and only if the times say
so. -/
theorem solves_of_solve
    (h : (ofTheory (.initial c) polarity).performAll rs = .ok (s, history))
    (hsolve : s.solve deadline = .ok (s', .sat x)) :
    x.Solves s ∧
      (∀ d, (.addClause d, .done) ∈ history → ∃ l ∈ d.literals, x.Holds l) ∧
      (∀ r reply, (.theory r, .theory reply) ∈ history → ∀ e ∈ r.added reply,
        e.isIn .backward = true → (∀ l, e.guard? = some l → x.Holds l) →
          e.Holds x.schedule.get) ∧
      (∀ l f, (.theory (.bindBound l f), .theory .done) ∈ history ∨
        (.theory (.newBoundLiteral f), .theory (.literal l)) ∈ history →
          (x.Holds l ↔ f.Holds x.schedule.get)) ∧
      ∀ l a b w id, (.theory (.addReifiedEdge l a b w), .theory (.edge id)) ∈ history →
        (x.Holds l ↔ x.schedule.get b - x.schedule.get a ≤ w) := by
  have hinitial : Settled ∅ (ofTheory (.initial c) polarity) :=
    settled_ofTheory fun σ hσ => absurd hσ (Set.notMem_empty σ)
  obtain ⟨hsettled, -, hrecords⟩ := records_performAll hinitial h
  obtain ⟨hcontinues, -, hsat, -⟩ := solve_eq_ok hsettled hsolve
  obtain ⟨hfixpoint, hnext, hx⟩ := hsat x rfl
  have hsolves := hcontinues.keeps.solves (hfixpoint.solves hnext hx)
  obtain ⟨ts, hts, -⟩ := hsettled.levels
  -- a guard of an edge is a variable of the theory, whoever added the edge
  have hguard : ∀ (e : Edge) (l : Literal), s.theory.network.Contains e → e.guard? = some l →
      s.theory.hasVariable l.var = true := by
    rintro e l ⟨id, hid, rfl⟩ hl
    exact hts.settled.coherent.guard id l hid hl
  refine ⟨hsolves, fun d hd => (hrecords.clause d hd).exists_holds hsolves,
    fun r reply hr e he => hsolves.edge e (hrecords.edge r reply hr e he), fun l f hf => ?_,
    fun l a b w id hid => ?_⟩
  · -- both edges of a bound literal are there, and together they say that it follows the times
    have hadded : s.theory.network.Contains (f.edge l) ∧
        s.theory.network.Contains (f.negation.edge l.negate) := by
      rcases hf with hf | hf
      · have hall := hrecords.edge _ _ hf
        exact ⟨hall _ List.mem_cons_self, hall _ (List.mem_cons_of_mem _ List.mem_cons_self)⟩
      · have hall := hrecords.edge _ _ hf
        exact ⟨hall _ List.mem_cons_self, hall _ (List.mem_cons_of_mem _ List.mem_cons_self)⟩
    exact hsolves.holds_iff_fact (hguard _ l hadded.1 (Theory.guard?_boundEdge f l))
      hadded.1 hadded.2
  · have hall := hrecords.edge _ _ hid
    have hedge := hall _ List.mem_cons_self
    exact hsolves.holds_iff (hguard _ l hedge rfl) hedge
      (hall _ (List.mem_cons_of_mem _ List.mem_cons_self))

/-- Clauses are added between two searches, and the literal for a fact is
false in the end. -/
theorem solves_of_solve_twice :
    ∃ s history s' x, (ofTheory (.initial .standard) false).performAll
        [.theory (.newTimepoint ⟨0, 10⟩), .theory (.newTimepoint ⟨0, 10⟩), .theory .newVariable,
          .theory (.addPermanentEdge ⟨2⟩ ⟨1⟩ (-4)), .theory (.newBoundLiteral (.leq ⟨2⟩ 5)),
          .theory (.addReifiedEdge ⟨⟨0⟩, true⟩ ⟨1⟩ ⟨2⟩ 6),
          .addClause (.ofList [⟨⟨0⟩, false⟩, ⟨⟨1⟩, false⟩]), .solve .never, .reset,
          .addClause (.ofList [⟨⟨0⟩, true⟩, ⟨⟨1⟩, false⟩])] = .ok (s, history) ∧
      s.solve .never = .ok (s', .sat x) ∧ x.time ⟨2⟩ = .ok 7 ∧ x.Solves s ∧
      (∀ d, (.addClause d, .done) ∈ history → ∃ l ∈ d.literals, x.Holds l) ∧
      ∀ l f, (.theory (.bindBound l f), .theory .done) ∈ history ∨
        (.theory (.newBoundLiteral f), .theory (.literal l)) ∈ history →
          (x.Holds l ↔ f.Holds x.schedule.get) := by
  have hrun : ((ofTheory (.initial .standard) false).performAll
      [.theory (.newTimepoint ⟨0, 10⟩), .theory (.newTimepoint ⟨0, 10⟩), .theory .newVariable,
        .theory (.addPermanentEdge ⟨2⟩ ⟨1⟩ (-4)), .theory (.newBoundLiteral (.leq ⟨2⟩ 5)),
        .theory (.addReifiedEdge ⟨⟨0⟩, true⟩ ⟨1⟩ ⟨2⟩ 6),
        .addClause (.ofList [⟨⟨0⟩, false⟩, ⟨⟨1⟩, false⟩]), .solve .never, .reset,
        .addClause (.ofList [⟨⟨0⟩, true⟩, ⟨⟨1⟩, false⟩])]).answers (fun p =>
          (p.1.solve .never).answers fun q => match q.2 with
            | .sat x => Decidable.decide (x.time ⟨2⟩ = .ok 7)
            | _ => false) = true := by decide +kernel
  obtain ⟨⟨s, history⟩, h, hanswer⟩ := Checked.exists_of_answers hrun
  obtain ⟨⟨s', result⟩, hsolve, hresult⟩ := Checked.exists_of_answers hanswer
  cases result with
  | sat x =>
      obtain ⟨hsolves, hclause, -, hbound, -⟩ := solves_of_solve h hsolve
      exact ⟨s, history, s', x, h, hsolve, of_decide_eq_true hresult, hsolves, hclause, hbound⟩
  | unsat => cases hresult
  | timeout => cases hresult

/-- If there is said to be no solution there is none: no assignment, of
all variables, in which the clauses that were accepted hold puts edges in
force that have a schedule. -/
theorem not_exists_of_solve
    (h : (ofTheory (.initial c) polarity).performAll rs = .ok (s, history))
    (hset : ∀ l, .theory (.assign l) ∉ rs) (hsolve : s.solve deadline = .ok (s', .unsat)) :
    ¬ ∃ σ : BoolVar → Bool,
      (∀ d, (.addClause d, .done) ∈ history → ∃ l ∈ d.literals, l.Holds σ) ∧
        s.theory.network.Admits σ := by
  rintro ⟨σ, hσ⟩
  have hkeeps : Keeps (ofTheory (.initial c) polarity) s :=
    (records_performAll (settled_ofTheory fun σ hσ => absurd hσ (Set.notMem_empty σ)) h).2.1
  have hinitial : Settled {σ | (∀ d, (.addClause d, .done) ∈ history → ∃ l ∈ d.literals,
      l.Holds σ) ∧ s.theory.network.Admits σ} (ofTheory (.initial c) polarity) :=
    settled_ofTheory fun σ hσ => hkeeps.network.admits hσ.2
  have hsettled := hinitial.performAll h hset (fun d hd σ hσ => hσ.1 d hd) (fun σ hσ => hσ.2)
  obtain ⟨-, -, -, hunsat⟩ := solve_eq_ok hsettled hsolve
  exact hunsat rfl σ hσ

/-- A second search, with an edge that was added after the first one found
a solution. -/
theorem not_exists_of_solve_tightened :
    ∃ s history s', (ofTheory (.initial .standard) true).performAll
        [.theory (.newTimepoint ⟨0, 10⟩), .theory .newVariable, .theory .newVariable,
          .theory (.bindBound ⟨⟨0⟩, true⟩ (.leq ⟨1⟩ 3)),
          .theory (.bindBound ⟨⟨1⟩, true⟩ (.geq ⟨1⟩ 7)),
          .addClause (.ofList [⟨⟨0⟩, true⟩, ⟨⟨1⟩, true⟩]), .solve .never, .reset,
          .theory (.addPermanentEdge .origin ⟨1⟩ 6),
          .addClause (.ofList [⟨⟨0⟩, false⟩, ⟨⟨1⟩, true⟩])] = .ok (s, history) ∧
      s.solve .never = .ok (s', .unsat) ∧
      ¬ ∃ σ : BoolVar → Bool,
        (∀ d, (.addClause d, .done) ∈ history → ∃ l ∈ d.literals, l.Holds σ) ∧
          s.theory.network.Admits σ := by
  have hrun : ((ofTheory (.initial .standard) true).performAll
      [.theory (.newTimepoint ⟨0, 10⟩), .theory .newVariable, .theory .newVariable,
        .theory (.bindBound ⟨⟨0⟩, true⟩ (.leq ⟨1⟩ 3)),
        .theory (.bindBound ⟨⟨1⟩, true⟩ (.geq ⟨1⟩ 7)),
        .addClause (.ofList [⟨⟨0⟩, true⟩, ⟨⟨1⟩, true⟩]), .solve .never, .reset,
        .theory (.addPermanentEdge .origin ⟨1⟩ 6),
        .addClause (.ofList [⟨⟨0⟩, false⟩, ⟨⟨1⟩, true⟩])]).answers (fun p =>
          (p.1.solve .never).answers fun q => match q.2 with
            | .unsat => true
            | _ => false) = true := by decide +kernel
  obtain ⟨⟨s, history⟩, h, hanswer⟩ := Checked.exists_of_answers hrun
  obtain ⟨⟨s', result⟩, hsolve, hresult⟩ := Checked.exists_of_answers hanswer
  cases result with
  | unsat => exact ⟨s, history, s', h, hsolve, not_exists_of_solve h (fun l => by simp) hsolve⟩
  | sat x => cases hresult
  | timeout => cases hresult

end Solver

end TemporalNetwork
