/-
No candidate is overlooked on a cycle with an edge that was put in force
after it was added.

At the levels that use edges, whenever a shared edge is put in force the
guarded ones that close a negative cycle with it are ruled out. A theory
is `Sealed` for a candidate, since some set of edges was in force, if it
was ruled out whenever it closes such a cycle with an edge that was put
in force later. Of such a cycle the edge that came last was searched
around: saturation says so of one run of propagation, and here it is said
of all that happens to a theory. A level is closed onto the values and
the edges that there were when it was opened, and these went together.

# What is not searched

Nothing is searched when an edge or a timepoint is added. What was in
force by then is excepted; it stays in force, as edges are added at the
root alone. So are the edges of a domain: these come into force with their
timepoint, by no activation. They leave and enter a new timepoint, though,
and a walk gains nothing by going there. Edges that are there already are
thus no closer than before.

Nor is there a search around a loop. A candidate may therefore close a
negative cycle on which a loop is the only edge that came later, with the
other edges in force before it: `loop_overlooked`.
-/
import TemporalNetwork.Proofs.Theory.Acts
import TemporalNetwork.Proofs.Theory.Saturation

namespace TemporalNetwork

namespace Theory

variable {t t' u : Theory} {ts : List Theory} {l : Literal} {c i : EdgeId} {B : Set EdgeId}
  {ids : List EdgeId} {C : Set Literal}

-- ================================================================== sealing

/-- The shared edges that were put in force since those of the set were,
but for loops: each of them was searched around. -/
def searchedSince (t : Theory) (B : Set EdgeId) : Set EdgeId :=
  {i | i ∈ t.graph.activated ∧ i ∉ B ∧ (t.network.edge i).isShared = true ∧
    (t.network.edge i).isLoop = false}

/-- A candidate whose guard has no value closes no negative cycle with an
edge that was searched around. -/
structure Sealed (B : Set EdgeId) (c : EdgeId) (t : Theory) : Prop where
  edge : t.network.hasEdge c = true
  decided (i : EdgeId) (l : Literal) : i ∈ t.searchedSince B →
    (t.network.edge c).isShared = true → (t.network.edge c).guard? = some l →
      t.ClosesWith i c → t.value l ≠ none

/-- Nothing was put in force since. -/
theorem sealed_of_activated_subset (hc : t.network.hasEdge c = true)
    (hactivated : t.graph.activated ⊆ B) : t.Sealed B c :=
  ⟨hc, fun _ _ hi => absurd (hactivated hi.1) hi.2.1⟩

/-- The problem may grow, if walks between its timepoints become no
shorter by that. -/
theorem Sealed.grow (h : t.Sealed B c) (ht : t.Coherent) (hgrows : t.network.Grows t'.network)
    (hactivated : t'.graph.activated = t.graph.activated)
    (hwalk : ∀ x y w, t.network.hasTimepoint x = true → t.network.hasTimepoint y = true →
      t'.network.Walk t'.sharedInForce x y w →
        ∃ v, v ≤ w ∧ t.network.Walk t.sharedInForce x y v)
    (hkept : ∀ l, t.value l ≠ none → t'.value l ≠ none) : t'.Sealed B c := by
  obtain ⟨hc, hcEdge⟩ := hgrows.edge c h.edge
  refine ⟨hc, ?_⟩
  rintro i l ⟨hi, hB, hshared, hloop⟩ hcShared hguard ⟨there, back, hthere, hback, hneg⟩
  rw [hactivated] at hi
  have hid : t.network.hasEdge i = true := (ht.active i (ht.graph.logged hi)).1
  have hiEdge := (hgrows.edge i hid).2
  rw [hiEdge] at hshared hloop
  rw [hcEdge] at hcShared hguard
  rw [hiEdge, hcEdge] at hthere hback hneg
  obtain ⟨there', hle, hthere'⟩ :=
    hwalk _ _ _ (ht.network.target i hid) (ht.network.source c h.edge) hthere
  obtain ⟨back', hle', hback'⟩ :=
    hwalk _ _ _ (ht.network.target c h.edge) (ht.network.source i hid) hback
  have hcloses : t.ClosesWith i c := ⟨there', back', hthere', hback', by omega⟩
  exact hkept l (h.decided i l ⟨hi, hB, hshared, hloop⟩ hcShared hguard hcloses)

/-- The edges in force are as they were, and no value was lost. -/
structure Keeps (t t' : Theory) : Prop where
  grows : t.network.Grows t'.network
  active (i : EdgeId) : t'.graph.isActive i = t.graph.isActive i
  activated : t'.graph.activated = t.graph.activated
  kept (l : Literal) : t.value l ≠ none → t'.value l ≠ none

/-- A candidate that is sealed stays so. -/
theorem Sealed.keep (h : t.Sealed B c) (ht : t.Coherent) (hkeeps : Keeps t t') :
    t'.Sealed B c := by
  refine h.grow ht hkeeps.grows hkeeps.activated (fun x y w _ _ hwalk => ?_) hkeeps.kept
  refine ⟨w, Int.le_refl w, hwalk.transfer ?_⟩
  rintro i ⟨hi, hshared⟩
  rw [hkeeps.active] at hi
  have hedge := (hkeeps.grows.edge i (ht.active i hi).1).2
  exact ⟨⟨hi, hedge ▸ hshared⟩, hedge.symm⟩

theorem Lasts.keeps (h : Lasts t t') : Keeps t t' := by
  refine ⟨?_, h.active, h.activated, h.kept⟩
  rw [h.network]
  exact .refl _

-- ============================================================= propagation

/-- What the edge that is put in force closes is ruled out, and what an
earlier one closes now was closed before or runs over the new edge. -/
theorem Advance.sealed (h : Advance t t') (ht : t.Coherent)
    (huses : t.config.propagation.usesEdges = true) (hs : t.Sealed B c) : t'.Sealed B c := by
  cases h with
  | idle steps graph known =>
      have hlasts : Lasts t t' := lasts_of_graph steps.sameProblem.network graph
        fun l hl => steps.value_ne_none hl
      exact hs.keep ht hlasts.keeps
  | @activated a g lowered enabled fresh accepts grounded lowers draws =>
      have hnetwork : t'.network = t.network := draws.same.network
      refine ⟨hnetwork ▸ hs.edge, ?_⟩
      rintro i l ⟨hi, hB, hshared, hloop⟩ hcShared hguard hcloses hnone
      rw [draws.graph] at hi
      rw [hnetwork] at hshared hloop hcShared hguard
      rw [draws.toInfers.closesWith] at hcloses
      have hguard' : (t.network.edge c).guard? = some l.negate.negate := by
        rw [Literal.negate_negate]
        exact hguard
      obtain ⟨hold, hne⟩ := closesWith_of_draws accepts draws huses hs.edge hcShared hguard'
        (value_negate_eq_none.mpr hnone) ⟨grounded.logged hi, hshared⟩ hloop hcloses
      have hbefore : i ∈ t.graph.activated := (accepts.activated hi).resolve_left hne
      exact draws.steps.value_ne_none
        (hs.decided i l ⟨hbefore, hB, hshared, hloop⟩ hcShared hguard hold) hnone

theorem Advances.sealed (h : Advances t t') (ht : t.Coherent)
    (huses : t.config.propagation.usesEdges = true) (hs : t.Sealed B c) : t'.Sealed B c :=
  h.keeps (fun config => config.propagation.usesEdges = true) (Sealed B c)
    (fun _ _ hadvance hu huses hs => hadvance.sealed hu huses hs) ht huses hs

theorem Prepares.lasts (h : Prepares t C ids t') : Lasts t t' :=
  lasts_of_graph h.sameProblem.network h.graph
    fun _ hl => value_ne_none_of_subset h.changes.trueLiterals_subset hl

/-- A commit leaves a candidate sealed. -/
theorem Commits.sealed (h : Commits t u C t') (huses : u.config.propagation.usesEdges = true)
    (hs : u.Sealed B c) : t'.Sealed B c := by
  obtain ⟨ids, t₁, hrecorded, hprepares, hrun⟩ := h
  obtain ⟨-, hadvances⟩ := hrecorded.advances hprepares hrun
  apply hadvances.sealed (hprepares.coherent hrecorded.coherent)
  · rw [hprepares.sameProblem.config]
    exact huses
  · exact hs.keep hrecorded.coherent hprepares.lasts.keeps

-- ================================================================ additions

/-- A timepoint is added with the edges of its domain, or something is
recorded, which is not in force yet, and committed. -/
theorem Builds.cases_keeps (h : Builds t t') :
    (∃ dom g tp, Network.checkDomain dom = .ok () ∧ t.graph.addNode tp dom = .ok g ∧
      t' = { t with network := t.network.addBounded dom, graph := g }) ∨
    ∃ u C, Commits t u C t' ∧ Keeps t u ∧ u.config = t.config := by
  have hactive : ∀ g i, (ActiveGraph.addEdge (ActiveGraph.addEdge g)).isActive i
      = g.isActive i := fun g i =>
    (ActiveGraph.isActive_addEdge _ i).trans (ActiveGraph.isActive_addEdge g i)
  cases h with
  | bounded domain added result => exact .inl ⟨_, _, _, domain, added, result⟩
  | edge commits =>
      obtain ⟨ids, t₁, hrecorded, -⟩ := id commits
      exact .inr ⟨_, _, commits, ⟨hrecorded.changes.grows, ActiveGraph.isActive_addEdge _, rfl,
        fun _ hl => hl⟩, rfl⟩
  | equivalence hedge hnegated commits =>
      obtain ⟨ids, t₁, hrecorded, -⟩ := id commits
      exact .inr ⟨_, _, commits, ⟨hrecorded.changes.grows, hactive _, rfl, fun _ hl => hl⟩, rfl⟩
  | bound commits =>
      obtain ⟨ids, t₁, hrecorded, -⟩ := id commits
      exact .inr ⟨_, _, commits, ⟨hrecorded.changes.grows, hactive _, rfl, fun _ hl => hl⟩, rfl⟩

/-- The edges of a domain bring no timepoints closer. -/
theorem Sealed.addBounded (h : t.Sealed B c) (ht : t.Coherent) {dom : Domain} {g : ActiveGraph}
    {tp : Timepoint} (hdom : Network.checkDomain dom = .ok ())
    (hadd : t.graph.addNode tp dom = .ok g) :
    Sealed B c { t with network := t.network.addBounded dom, graph := g } := by
  have hshaped := ht.graph.toShaped
  obtain ⟨hadds, -⟩ := ActiveGraph.adds_of_addNode hshaped hadd
  have hgrows := Network.grows_addBounded t.network dom
  have hnonempty : dom.lower ≤ dom.upper := (checkDomain_eq_ok.mp hdom).2.2
  refine h.grow ht hgrows hadds.activated (fun x y w hx hy hwalk => ?_) fun _ hl => hl
  refine (hwalk.of_addBounded ht.network hnonempty ?_ hy).1 hx
  rintro i ⟨hi, hshared⟩
  rcases (hadds.isActive hshaped i).mp hi with hold | hnew
  · have hid := (ht.active i hold).1
    have hedge := (hgrows.edge i hid).2
    exact .inl ⟨hid, hold, hedge ▸ hshared⟩
  · exact .inr hnew

/-- A request of the setup leaves a candidate sealed. -/
theorem Builds.sealed (h : Builds t t') (ht : t.Coherent)
    (huses : t.config.propagation.usesEdges = true) (hs : t.Sealed B c) : t'.Sealed B c := by
  rcases h.cases_keeps with ⟨dom, g, tp, hdom, hadd, rfl⟩ | ⟨u, C, hcommits, hkeeps, hconfig⟩
  · exact hs.addBounded ht hdom hadd
  · exact hcommits.sealed (hconfig ▸ huses) (hs.keep ht hkeeps)

/-- What is added itself is a candidate from the moment on that it is
recorded. -/
theorem Builds.sealed_of_hasEdge (h : Builds t t') (ht : t.Coherent)
    (huses : t.config.propagation.usesEdges = true) (hc : t'.network.hasEdge c = true) :
    t'.Sealed t.graph.inForce c := by
  rcases h.cases_keeps with ⟨dom, g, tp, -, hadd, rfl⟩ | ⟨u, C, hcommits, hkeeps, hconfig⟩
  · obtain ⟨hadds, -⟩ := ActiveGraph.adds_of_addNode ht.graph.toShaped hadd
    exact sealed_of_activated_subset hc (hadds.activated.subset.trans ht.graph.logged)
  · rw [hcommits.settles.2.network] at hc
    refine hcommits.sealed (hconfig ▸ huses) (sealed_of_activated_subset hc ?_)
    exact hkeeps.activated.subset.trans ht.graph.logged

-- ================================================================= requests

/-- Every act keeps the candidate sealed, also in the states that are
saved. -/
theorem upheld_sealed :
    Upheld (fun config => config.propagation.usesEdges = true) (Sealed B c) :=
  upheld_of_lasts (fun _ _ hlasts ht hs => hs.keep ht hlasts.keeps)
    (fun _ _ hbuilds ht huses hs => hbuilds.sealed ht.coherent huses hs)
    fun _ _ hadvances ht huses hs => hadvances.sealed ht huses hs

/-- A request at the root seals what it adds, with nothing excepted but what
was in force before it. An edge that is optional is shared in neither of
its views, so that it is no candidate. -/
theorem Enlarges.sealed_of_hasEdge (h : Enlarges t t') (hts : Stack ts t)
    (huses : t.config.propagation.usesEdges = true) (hnew : t.network.hasEdge c = false)
    (hc : t'.network.hasEdge c = true) : ts = [] ∧ t'.Sealed t.graph.inForce c := by
  have hold : ¬ t.network.hasEdge c = true := Bool.eq_false_iff.mp hnew
  cases h with
  | refused same =>
      rw [same] at hc
      exact absurd hc hold
  | built root builds =>
      exact ⟨hts.eq_nil root, builds.sealed_of_hasEdge hts.settled.coherent huses hc⟩
  | declared root builds =>
      have hdeclared := (settles_newVariable hts.settled).settled.coherent
      exact ⟨hts.eq_nil root, builds.sealed_of_hasEdge hdeclared huses hc⟩
  | @optional e₁ e₂ t₁ root split₁ split₂ first second =>
      have hfirst : t₁.network = t.network.addEdge e₁ := first.settles.2.network
      have hsecond : t'.network = t₁.network.addEdge e₂ := second.settles.2.network
      have hsplit : (t'.network.edge c).isShared = false := by
        rw [hsecond] at hc ⊢
        rcases Network.hasEdge_or_eq_of_addEdge hc with hc₁ | heq
        · rw [Network.edge_addEdge_of_hasEdge hc₁]
          rw [hfirst] at hc₁ ⊢
          rcases Network.hasEdge_or_eq_of_addEdge hc₁ with hc₀ | heq
          · exact absurd hc₀ hold
          · rw [heq, split₁]
        · rw [heq, split₂]
      refine ⟨hts.eq_nil root, hc, fun i l _ hshared => ?_⟩
      rw [hsplit] at hshared
      cases hshared

/-- The candidate is sealed once the request that adds it is done, and on all
levels opened since. -/
theorem upholds_sealed_of_perform (hts : Stack ts t)
    (huses : t.config.propagation.usesEdges = true) {r : Request} {reply : Reply}
    (h : t.perform r = .ok (t', reply)) (hnew : t.network.hasEdge c = false)
    (hc : t'.network.hasEdge c = true) :
    Upholds (fun config => config.propagation.usesEdges = true) (Sealed t.graph.inForce c) []
      t' := by
  have hold : ¬ t.network.hasEdge c = true := Bool.eq_false_iff.mp hnew
  have hr : ∀ config, r ≠ .configure config := by
    rintro config rfl
    cases h
    exact hold hc
  rcases hts.perform_cases hr h with henlarges | ⟨ts', hmoves⟩
  · obtain ⟨rfl, hsealed⟩ := henlarges.sealed_of_hasEdge hts huses hnew hc
    have hacts := henlarges.acts hts
    refine ⟨hacts.stack hts, ?_, List.forall_mem_singleton.mpr hsealed⟩
    rw [show t'.config = t.config from hacts.config]
    exact huses
  · have hsame : t'.network = t.network := hmoves.network hts
    rw [hsame] at hc
    exact absurd hc hold

-- =================================================================== cycles

section
variable {config : Config} {rs₀ rs : List Request} {r : Request} {reply : Reply}
  {t₀ t₁ : Theory} {id e : EdgeId} {es : List EdgeId} {guard : Literal}

theorem PropagationLevel.usesEdges_iff {level : PropagationLevel} :
    level.usesEdges = true ↔ level = .edges ∨ level = .full := by
  cases level <;> simp [PropagationLevel.usesEdges]

/-- A candidate is sealed after any history since the request that added
it. -/
theorem sealed_of_performAll (hconfig : config.propagation = .edges ∨ config.propagation = .full)
    (hconfigure : ∀ config', .configure config' ∈ rs₀ ++ r :: rs →
      config'.propagation = .edges ∨ config'.propagation = .full)
    (hbefore : (initial config).performAll rs₀ = .ok t₀) (hadd : t₀.perform r = .ok (t₁, reply))
    (hafter : t₁.performAll rs = .ok t) (hnew : t₀.network.hasEdge id = false)
    (hid : t₁.network.hasEdge id = true) : t.Sealed t₀.graph.inForce id := by
  have huses : ∀ config', .configure config' ∈ rs₀ ++ r :: rs →
      config'.propagation.usesEdges = true :=
    fun config' hc' => PropagationLevel.usesEdges_iff.mpr (hconfigure config' hc')
  have hnothing : Upheld (fun c => c.propagation.usesEdges = true) fun _ => True :=
    fun _ _ _ _ _ _ _ _ => trivial
  obtain ⟨ts₀, h₀⟩ := upholds_of_performAll hnothing (fun _ _ _ => trivial)
    (PropagationLevel.usesEdges_iff.mpr hconfig) trivial
    (fun config' hc' => huses config' (List.mem_append_left _ hc')) hbefore
  have h₁ := upholds_sealed_of_perform h₀.stack h₀.options hadd hnew hid
  obtain ⟨ts, hupholds⟩ := h₁.performAll upheld_sealed (fun _ _ hs => ⟨hs.edge, hs.decided⟩)
    (fun config' hc' => huses config' (List.mem_append_right _ (List.mem_cons_of_mem r hc')))
    hafter
  exact hupholds.all t List.mem_cons_self

/-- A cycle through two edges consists of two walks between them. -/
theorem closesWith_of_isCycle (hcycle : t.network.isCycle (id :: es) = true)
    (hes : ∀ i ∈ es, i ∈ t.sharedInForce) (he : e ∈ es)
    (hneg : t.network.weight (id :: es) < 0) : t.ClosesWith e id := by
  obtain ⟨before, after, rfl⟩ := List.append_of_mem he
  obtain ⟨x, hsource, hpath⟩ := Network.path_of_isCycle hcycle
  obtain ⟨y, hto, hsource', hfrom⟩ := hpath.split
  have hback := hto.walk fun i hi => hes i (List.mem_append_left _ hi)
  have hthere := hfrom.walk fun i hi =>
    hes i (List.mem_append_right _ (List.mem_cons_of_mem e hi))
  rw [← hsource'] at hback
  rw [← hsource] at hthere
  rw [Network.weight_cons, Network.weight_append, Network.weight_cons] at hneg
  exact ⟨_, _, hthere, hback, by omega⟩

/-- After any history at levels that use edges, consistent or not, a
conditional edge whose guard has no value closes no negative cycle with
shared edges in force, if one of them, no loop, was put in force by an
activation after the conditional edge was added. -/
theorem weight_nonneg_of_activated
    (hconfig : config.propagation = .edges ∨ config.propagation = .full)
    (hconfigure : ∀ config', .configure config' ∈ rs₀ ++ r :: rs →
      config'.propagation = .edges ∨ config'.propagation = .full)
    (hbefore : (initial config).performAll rs₀ = .ok t₀) (hadd : t₀.perform r = .ok (t₁, reply))
    (hafter : t₁.performAll rs = .ok t) (hnew : t₀.network.hasEdge id = false)
    (hid : t₁.network.hasEdge id = true)
    (hkind : (t.network.edge id).kind = .conditional guard) (hnone : t.value guard = none)
    (hcycle : t.network.isCycle (id :: es) = true)
    (hes : ∀ i ∈ es, t.isActive i = true ∧ (t.network.edge i).isShared = true) (he : e ∈ es)
    (hactivated : e ∈ t.graph.activated) (hsince : t₀.isActive e = false)
    (hloop : (t.network.edge e).isLoop = false) : 0 ≤ t.network.weight (id :: es) := by
  have hsealed := sealed_of_performAll hconfig hconfigure hbefore hadd hafter hnew hid
  by_contra hneg
  have hcloses : t.ClosesWith e id := closesWith_of_isCycle hcycle hes he (Int.not_le.mp hneg)
  have hlater : e ∉ t₀.graph.inForce := Bool.eq_false_iff.mp hsince
  have hshared : (t.network.edge id).isShared = true := by
    unfold Edge.isShared
    rw [hkind]
  have hguard : (t.network.edge id).guard? = some guard := by
    unfold Edge.guard?
    rw [hkind]
  exact hsealed.decided e guard ⟨hactivated, hlater, (hes e he).2, hloop⟩ hshared hguard hcloses
    hnone

/-- A way back that is too short was open and is closed again; another one
is open now, by an edge that was put in force later. -/
theorem weight_nonneg_of_activated_reopened :
    ∃ t₀ t₁ reply t, (initial ⟨.edges, true⟩).performAll
        [.newTimepoint ⟨0, 10⟩, .newTimepoint ⟨0, 10⟩, .newVariable, .newVariable,
          .newVariable] = .ok t₀ ∧
      t₀.perform (.addConditionalEdge ⟨1⟩ ⟨2⟩ (-5) ⟨⟨0⟩, true⟩) = .ok (t₁, reply) ∧
      t₁.performAll [.addConditionalEdge ⟨2⟩ ⟨1⟩ 4 ⟨⟨1⟩, true⟩,
        .addConditionalEdge ⟨2⟩ ⟨1⟩ 6 ⟨⟨2⟩, true⟩, .pushCheckpoint, .assign ⟨⟨1⟩, true⟩,
        .backtrack .root, .configure ⟨.full, true⟩, .assign ⟨⟨2⟩, true⟩] = .ok t ∧
      (t.isConsistent = true ∧ t.value ⟨⟨0⟩, true⟩ = none ∧
        t.network.isCycle [⟨4⟩, ⟨6⟩] = true ∧ (⟨6⟩ : EdgeId) ∈ t.graph.activated) ∧
      0 ≤ t.network.weight [⟨4⟩, ⟨6⟩] := by
  have hrun : ((initial ⟨.edges, true⟩).performAll
      [.newTimepoint ⟨0, 10⟩, .newTimepoint ⟨0, 10⟩, .newVariable, .newVariable,
        .newVariable] >>= fun t₀ =>
      t₀.perform (.addConditionalEdge ⟨1⟩ ⟨2⟩ (-5) ⟨⟨0⟩, true⟩) >>= fun p =>
      Checked.require ((t₀.network.hasEdge ⟨4⟩ = false ∧ t₀.isActive ⟨6⟩ = false) ∧
        p.1.network.hasEdge ⟨4⟩ = true) .outOfBounds >>= fun _ =>
      p.1.performAll [.addConditionalEdge ⟨2⟩ ⟨1⟩ 4 ⟨⟨1⟩, true⟩,
        .addConditionalEdge ⟨2⟩ ⟨1⟩ 6 ⟨⟨2⟩, true⟩, .pushCheckpoint, .assign ⟨⟨1⟩, true⟩,
        .backtrack .root, .configure ⟨.full, true⟩, .assign ⟨⟨2⟩, true⟩]).answers (fun t =>
          decide ((t.isConsistent = true ∧ t.value ⟨⟨0⟩, true⟩ = none ∧
              t.network.isCycle [⟨4⟩, ⟨6⟩] = true ∧ (⟨6⟩ : EdgeId) ∈ t.graph.activated) ∧
            (t.network.edge ⟨4⟩).kind = .conditional ⟨⟨0⟩, true⟩ ∧
            (t.isActive ⟨6⟩ = true ∧ (t.network.edge ⟨6⟩).isShared = true) ∧
            (t.network.edge ⟨6⟩).isLoop = false)) = true := by
    decide +kernel
  obtain ⟨t, ht, hstate⟩ := Checked.exists_of_answers hrun
  simp only [Checked.bind_eq_ok, Checked.require_eq_ok] at ht
  obtain ⟨t₀, hbefore, ⟨t₁, reply⟩, hadd, -, ⟨⟨hnew, hsince⟩, hid⟩, hafter⟩ := ht
  obtain ⟨hreached, hkind, hactive, hloop⟩ := of_decide_eq_true hstate
  refine ⟨t₀, t₁, reply, t, hbefore, hadd, hafter, hreached, ?_⟩
  obtain ⟨-, hnone, hcycle, hactivated⟩ := hreached
  refine weight_nonneg_of_activated (.inl rfl) ?_ hbefore hadd hafter hnew hid hkind hnone hcycle
    (List.forall_mem_singleton.mpr hactive) List.mem_cons_self hactivated hsince hloop
  intro config hconfig
  simp only [List.cons_append, List.nil_append, List.mem_cons, List.not_mem_nil, or_false,
    reduceCtorEq, false_or, Request.configure.injEq] at hconfig
  exact .inr (hconfig ▸ rfl)

/-- Nothing is searched around a loop: a conditional edge closes a negative
cycle with an edge in force and a loop that was put in force later. -/
theorem loop_overlooked :
    ∃ t₀ t₁ reply t, (initial ⟨.full, true⟩).performAll
        [.newTimepoint ⟨0, 10⟩, .newTimepoint ⟨0, 10⟩, .newVariable,
          .addPermanentEdge ⟨2⟩ ⟨1⟩ 4] = .ok t₀ ∧
      t₀.perform (.addConditionalEdge ⟨1⟩ ⟨2⟩ (-5) ⟨⟨0⟩, true⟩) = .ok (t₁, reply) ∧
      t₁.performAll [.addPermanentEdge ⟨1⟩ ⟨1⟩ 0] = .ok t ∧
      (t₀.network.hasEdge ⟨5⟩ = false ∧ t₁.network.hasEdge ⟨5⟩ = true) ∧
      t.isConsistent = true ∧ (t.network.edge ⟨5⟩).kind = .conditional ⟨⟨0⟩, true⟩ ∧
      t.value ⟨⟨0⟩, true⟩ = none ∧ t.network.isCycle [⟨5⟩, ⟨4⟩, ⟨6⟩] = true ∧
      (∀ i ∈ ([⟨4⟩, ⟨6⟩] : List EdgeId), t.isActive i = true ∧ (t.network.edge i).isShared = true) ∧
      (⟨6⟩ : EdgeId) ∈ t.graph.activated ∧ t₀.isActive ⟨6⟩ = false ∧
      t.network.weight [⟨5⟩, ⟨4⟩, ⟨6⟩] < 0 := by
  have hrun : ((initial ⟨.full, true⟩).performAll
      [.newTimepoint ⟨0, 10⟩, .newTimepoint ⟨0, 10⟩, .newVariable,
        .addPermanentEdge ⟨2⟩ ⟨1⟩ 4] >>= fun t₀ =>
      t₀.perform (.addConditionalEdge ⟨1⟩ ⟨2⟩ (-5) ⟨⟨0⟩, true⟩) >>= fun p =>
      Checked.require (t₀.isActive ⟨6⟩ = false ∧ t₀.network.hasEdge ⟨5⟩ = false ∧
        p.1.network.hasEdge ⟨5⟩ = true) .outOfBounds >>= fun _ =>
      p.1.performAll [.addPermanentEdge ⟨1⟩ ⟨1⟩ 0]).answers (fun t =>
        decide (t.isConsistent = true ∧ (t.network.edge ⟨5⟩).kind = .conditional ⟨⟨0⟩, true⟩ ∧
          t.value ⟨⟨0⟩, true⟩ = none ∧ t.network.isCycle [⟨5⟩, ⟨4⟩, ⟨6⟩] = true ∧
          (∀ i ∈ ([⟨4⟩, ⟨6⟩] : List EdgeId),
            t.isActive i = true ∧ (t.network.edge i).isShared = true) ∧
          (⟨6⟩ : EdgeId) ∈ t.graph.activated ∧ t.network.weight [⟨5⟩, ⟨4⟩, ⟨6⟩] < 0)) = true := by
    decide +kernel
  obtain ⟨t, ht, hstate⟩ := Checked.exists_of_answers hrun
  simp only [Checked.bind_eq_ok, Checked.require_eq_ok] at ht
  obtain ⟨t₀, hbefore, ⟨t₁, reply⟩, hadd, -, ⟨hsince, hadded⟩, hafter⟩ := ht
  obtain ⟨hconsistent, hkind, hnone, hcycle, hes, hactivated, hneg⟩ := of_decide_eq_true hstate
  exact ⟨t₀, t₁, reply, t, hbefore, hadd, hafter, hadded, hconsistent, hkind, hnone, hcycle, hes,
    hactivated, hsince, hneg⟩

end

end Theory

end TemporalNetwork
