/-
No consequence is missed because its trigger has already happened.

A consequence is looked for at the moment of something that triggers it:
a potential is lowered, or an edge is put in force. A theory is
`Saturated` above a graph if everything is decided that was triggered
since that graph. Advances keep it, since what completes a trigger is one
itself: of the two bounds between which an edge has no room the one that
was lowered last, and of the edges on a negative cycle the one that was
put in force last.

# Cycles

A search starts at the edge that is put in force, while saturation speaks
of each edge in force. A negative cycle through one of them and a
candidate is there before, or it runs over the new edge: then the two
walks of which it consists can be cut there and joined again, to a cycle
through the new edge and the candidate. Loops are left out, as the code
does not search around them; one in force is not negative, so that no
negative cycle needs it.
-/
import TemporalNetwork.Proofs.Theory.Extension

namespace TemporalNetwork

namespace Theory

variable {t t' T : Theory} {l : Literal} {id a : EdgeId} {g₀ : ActiveGraph}
  {p : PropagationLevel} {C : Set Literal}

-- ============================================================== saturation

/-- All is decided that has been triggered since the graph, at a level of
propagation. -/
structure Saturated (p : PropagationLevel) (g₀ : ActiveGraph) (t : Theory) : Prop where
  fired : t.Fired ∅
  /-- An edge has no room, and a bound of its ends was lowered. -/
  room (d : Direction) (id : EdgeId) : p.usesBounds = true → t.network.hasEdge id = true →
    t.graph.value d ((t.network.edge id).tail d) < g₀.value d ((t.network.edge id).tail d) →
      ∀ l ∈ t.ruledOut [id], t.value l ≠ none
  /-- An edge closes a negative cycle with one that was put in force. -/
  closed (id : EdgeId) : p.usesEdges = true → t.graph.isActive id = true →
    g₀.isActive id = false → (t.network.edge id).isShared = true →
      ∀ l ∈ t.closedBy id, t.value l ≠ none

/-- Nothing has happened yet. -/
theorem saturated_self (h : t.Fired ∅) : Saturated p t.graph t where
  fired := h
  room d id _ _ hlt := absurd hlt (Int.lt_irrefl _)
  closed id _ hactive hfresh _ := by
    rw [hactive] at hfresh
    cases hfresh

/-- Without propagation of bounds and edges only watches count. -/
theorem saturated_off (g₀ : ActiveGraph) (h : t.Fired ∅) : Saturated .off g₀ t where
  fired := h
  room d id huses := by cases huses
  closed id huses := by cases huses

/-- To know more does not trigger anything. -/
theorem Saturated.of_subset (h : Saturated p g₀ t) (hsame : SameProblem t t')
    (hgraph : t'.graph = t.graph) (hsubset : t.trueLiterals ⊆ t'.trueLiterals) :
    Saturated p g₀ t' := by
  have hruledOut : ∀ ids, t'.ruledOut ids = t.ruledOut ids := by
    intro ids
    unfold ruledOut slack
    rw [hgraph, hsame.network]
  have hclosedBy : ∀ id, t'.closedBy id = t.closedBy id := by
    intro id
    unfold closedBy ClosesWith sharedInForce
    rw [hgraph, hsame.network]
  refine ⟨fun d x w hw hle => ?_, fun d id huses hid hlt l hl => ?_,
    fun id huses hactive hfresh hshared l hl => ?_⟩
  · rw [hsame.bindings] at hw
    rw [hgraph] at hle
    exact (h.fired d x w hw hle).imp_left (value_ne_none_of_subset hsubset)
  · rw [hsame.network] at hid hlt
    rw [hgraph] at hlt
    rw [hruledOut] at hl
    exact value_ne_none_of_subset hsubset (h.room d id huses hid hlt l hl)
  · rw [hgraph] at hactive
    rw [hsame.network] at hshared
    rw [hclosedBy] at hl
    exact value_ne_none_of_subset hsubset (h.closed id huses hactive hfresh hshared l hl)

-- ======================================================= cycles and new edges

section
variable {g : ActiveGraph} {lowered : List (Direction × Timepoint)}

/-- Shared edges in force once one more edge is. -/
theorem mem_sharedInForce_of_accepts (h : t.graph.Accepts t.network a g lowered) (i : EdgeId) :
    i ∈ ({ t with graph := g } : Theory).sharedInForce ↔
      (i ∈ t.sharedInForce ∨ i = a) ∧ (t.network.edge i).isShared = true := by
  have hactive := h.active i
  constructor
  · rintro ⟨hi, hshared⟩
    exact ⟨(hactive.mp hi).imp_left fun hold => ⟨hold, hshared⟩, hshared⟩
  · rintro ⟨hi, hshared⟩
    exact ⟨hactive.mpr (hi.imp_left fun hold => hold.1), hshared⟩

/-- A cycle through `id` and `c` that runs over `a` as well is one through
`a` and `c`. -/
theorem ClosesWith.of_cut {c : EdgeId} {u v : Theory}
    (hu : u.sharedInForce = insert a v.sharedInForce) (hnetwork : u.network = v.network)
    (hid : id ∈ u.sharedInForce) (h : u.ClosesWith id c) :
    v.ClosesWith id c ∨ u.ClosesWith a c := by
  obtain ⟨there, back, hthere, hback, hneg⟩ := h
  have hsingle : u.network.Walk u.sharedInForce (u.network.edge id).source
      (u.network.edge id).target (u.network.edge id).weight := .single hid
  rcases (hu ▸ hthere).cut with hthere₀ | ⟨before, after, hbefore, hafter, hsum⟩
  · rcases (hu ▸ hback).cut with hback₀ | ⟨before, after, hbefore, hafter, hsum⟩
    · rw [hnetwork] at hthere₀ hback₀ hneg
      exact .inl ⟨there, back, hthere₀, hback₀, hneg⟩
    · rw [← hu] at hbefore hafter
      exact .inr ⟨_, before, hafter.append (hsingle.append hthere), hbefore, by omega⟩
  · rw [← hu] at hbefore hafter
    exact .inr ⟨after, _, hafter, hback.append (hsingle.append hbefore), by omega⟩

/-- A negative cycle is there already, or goes through the new edge: then
it is one that the new edge closes. -/
theorem closesWith_of_accepts (h : t.graph.Accepts t.network a g lowered) {c : EdgeId}
    (hid : id ∈ ({ t with graph := g } : Theory).sharedInForce)
    (hcloses : ({ t with graph := g } : Theory).ClosesWith id c) :
    t.ClosesWith id c ∨ (t.network.edge a).isShared = true ∧
      (t.network.edge a).isLoop = false ∧ ({ t with graph := g } : Theory).ClosesWith a c := by
  have hmem := mem_sharedInForce_of_accepts h
  by_cases hshared : (t.network.edge a).isShared = true
  · have hinsert : ({ t with graph := g } : Theory).sharedInForce = insert a t.sharedInForce := by
      ext i
      rw [hmem, Set.mem_insert_iff]
      constructor
      · exact fun hi => hi.1.symm
      · rintro (rfl | hi)
        · exact ⟨.inr rfl, hshared⟩
        · exact ⟨.inl hi, hi.2⟩
    by_cases hloop : (t.network.edge a).isLoop = true
    · -- a loop in force is not negative, and no cycle needs it
      have hweight := h.sound.weight_nonneg_of_isLoop ((h.active a).mpr (.inr rfl)) hloop
      obtain ⟨there, back, hthere, hback, hneg⟩ := hcloses
      rw [hinsert] at hthere hback
      obtain ⟨there', hle, hthere'⟩ := hthere.withoutLoop hloop hweight
      obtain ⟨back', hle', hback'⟩ := hback.withoutLoop hloop hweight
      refine .inl ⟨there', back', hthere', hback', ?_⟩
      have hneg' : there + (t.network.edge c).weight + back + (t.network.edge id).weight < 0 := hneg
      omega
    · have hcut := hcloses.of_cut hinsert rfl hid
      exact hcut.imp_right fun hnew => ⟨hshared, Bool.eq_false_iff.mpr hloop, hnew⟩
  · -- an edge that is not shared is on no such cycle
    have hsubset : ∀ i ∈ ({ t with graph := g } : Theory).sharedInForce,
        i ∈ t.sharedInForce ∧ t.network.edge i = t.network.edge i := by
      intro i hi
      obtain ⟨hold | rfl, hi'⟩ := (hmem i).mp hi
      · exact ⟨hold, rfl⟩
      · exact absurd hi' hshared
    obtain ⟨there, back, hthere, hback, hneg⟩ := hcloses
    exact .inl ⟨there, back, hthere.transfer hsubset, hback.transfer hsubset, hneg⟩

-- ==================================================== saturation is kept

/-- An edge has lost its room: that is noticed at the end that was
lowered. -/
theorem mem_noticed_of_ruledOut (ht : t.Coherent) (huses : t.config.propagation.usesBounds = true)
    (hid : t.network.hasEdge id = true) {d : Direction} (hl : l ∈ t.ruledOut [id])
    (hlowered : (d, (t.network.edge id).tail d) ∈ lowered) : l ∈ t.noticed lowered := by
  obtain ⟨hguard, hslack⟩ := mem_ruledOut_singleton.mp hl
  refine ⟨_, hlowered, .inr ⟨huses, id, (ht.network.guarded d _ id).mpr ⟨hid, ?_, rfl⟩, hguard,
    hslack⟩⟩
  rw [hguard]
  rfl

/-- The room of an edge depends on the bounds of its ends. -/
theorem slack_eq_of_value (h : ∀ d, g.value d ((t.network.edge id).tail d)
    = t.graph.value d ((t.network.edge id).tail d)) :
    ({ t with graph := g } : Theory).slack id = t.slack id := by
  have hforward := h .forward
  have hbackward := h .backward
  simp only [Edge.tail] at hforward hbackward
  unfold slack
  rw [hforward, hbackward]

/-- An edge lost its room before, or does so now. -/
theorem room_of_draws (haccepts : t.graph.Accepts t.network a g lowered)
    (hput : Coherent { t with graph := g })
    (hdraws : Draws (consequences { t with graph := g } a lowered) { t with graph := g } t')
    (huses : t.config.propagation.usesBounds = true) (hid : t.network.hasEdge id = true)
    (hl : l ∈ t'.ruledOut [id]) (hnone : t'.value l = none) :
    l ∈ t.ruledOut [id] ∧ ∀ d, g.value d ((t.network.edge id).tail d)
      = t.graph.value d ((t.network.edge id).tail d) := by
  rw [hdraws.ruledOut] at hl
  have hunchanged : ∀ d, g.value d ((t.network.edge id).tail d)
      = t.graph.value d ((t.network.edge id).tail d) := by
    intro d
    refine (haccepts.changed d _).resolve_right fun hlowered => ?_
    exact hdraws.decided l (.inl (mem_noticed_of_ruledOut hput huses hid hl hlowered)) hnone
  refine ⟨mem_ruledOut_singleton.mpr ?_, hunchanged⟩
  obtain ⟨hguard, hslack⟩ := mem_ruledOut_singleton.mp hl
  rw [slack_eq_of_value hunchanged] at hslack
  exact ⟨hguard, hslack⟩

/-- A candidate that has no value yet closed a negative cycle with the edge
before: what the new edge closes has a value now. -/
theorem closesWith_of_draws (haccepts : t.graph.Accepts t.network a g lowered)
    (hdraws : Draws (consequences { t with graph := g } a lowered) { t with graph := g } t')
    (huses : t.config.propagation.usesEdges = true) {c : EdgeId}
    (hc : t.network.hasEdge c = true) (hcShared : (t.network.edge c).isShared = true)
    (hguard : (t.network.edge c).guard? = some l.negate) (hnone : t'.value l = none)
    (hid : id ∈ ({ t with graph := g } : Theory).sharedInForce)
    (hloop : (t.network.edge id).isLoop = false)
    (hcloses : ({ t with graph := g } : Theory).ClosesWith id c) :
    t.ClosesWith id c ∧ id ≠ a := by
  have hnew : (t.network.edge a).isShared = true → (t.network.edge a).isLoop = false →
      ¬ ({ t with graph := g } : Theory).ClosesWith a c := fun ha haLoop hnow =>
    hdraws.decided l (.inr ⟨huses, ha, haLoop, c, hc, hguard, hcShared, hnow⟩) hnone
  have hne : id ≠ a := by
    rintro rfl
    exact hnew hid.2 hloop hcloses
  rcases closesWith_of_accepts haccepts hid hcloses with hold | ⟨ha, haLoop, hnow⟩
  · exact ⟨hold, hne⟩
  · exact absurd hnow (hnew ha haLoop)

/-- An edge closed a negative cycle before, or does so now. -/
theorem closed_of_draws (haccepts : t.graph.Accepts t.network a g lowered)
    (hdraws : Draws (consequences { t with graph := g } a lowered) { t with graph := g } t')
    (huses : t.config.propagation.usesEdges = true) (hactive : t'.graph.isActive id = true)
    (hshared : (t.network.edge id).isShared = true) (hl : l ∈ t'.closedBy id)
    (hnone : t'.value l = none) : l ∈ t.closedBy id ∧ id ≠ a := by
  rw [hdraws.closedBy] at hl
  rw [hdraws.graph] at hactive
  obtain ⟨hloop, c, hc, hguard, hcShared, hcloses⟩ := hl
  obtain ⟨hold, hne⟩ := closesWith_of_draws haccepts hdraws huses hc hcShared hguard hnone
    ⟨hactive, hshared⟩ hloop hcloses
  exact ⟨⟨hloop, c, hc, hguard, hcShared, hold⟩, hne⟩

end

/-- An advance leaves nothing to be drawn: what the new edge brings about is
drawn with it. -/
theorem Advance.saturated (h : Advance t t') (ht : t.Coherent)
    (hp : t.config.propagation = p) (hs : Saturated p g₀ t) : Saturated p g₀ t' := by
  have hfired := h.fired hs.fired
  cases h with
  | idle steps graph known => exact hs.of_subset steps.sameProblem graph steps.trueLiterals_subset
  | activated enabled fresh accepts grounded lowers draws =>
      have hput : Coherent _ := (Step.activated enabled accepts grounded).coherent ht
      have hnetwork := draws.same.network
      refine ⟨hfired, fun d id huses hid hlt l hl hnone => ?_,
        fun id huses hactive hfresh hshared l hl hnone => ?_⟩
      · rw [hnetwork] at hid hlt
        obtain ⟨hold, hunchanged⟩ := room_of_draws accepts hput draws (hp ▸ huses) hid hl hnone
        rw [draws.graph, hunchanged] at hlt
        exact draws.steps.value_ne_none (hs.room d id huses hid hlt l hold) hnone
      · rw [hnetwork] at hshared
        obtain ⟨hold, hne⟩ := closed_of_draws accepts draws (hp ▸ huses) hactive hshared hl hnone
        rw [draws.graph] at hactive
        have hbefore := ((accepts.active id).mp hactive).resolve_right hne
        exact draws.steps.value_ne_none (hs.closed id huses hbefore hfresh hshared l hold) hnone

theorem Advances.saturated (h : Advances t t') (ht : t.Coherent)
    (hp : t.config.propagation = p) (hs : Saturated p g₀ t) : Saturated p g₀ t' :=
  h.keeps (fun config => config.propagation = p) (Saturated p g₀)
    (fun _ _ hadvance hu hp hs => hadvance.saturated hu hp hs) ht hp hs

end Theory

end TemporalNetwork
