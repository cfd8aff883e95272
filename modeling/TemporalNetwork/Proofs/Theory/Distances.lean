/-
Distances are exact.

Between two timepoints a theory gives the least weight of a walk along
the edges in force, and lists it for all timepoints at once. In the
forward view walks lead from the timepoint that is asked about, in the
backward view they lead to it. The two views have all shared edges in
common, so that without a directed edge in force one list is as good as
the other.

All of this is read off a search that found what it was asked for:
`PathSearch.exists_run_to` and `PathSearch.Covers.isLeast_distance?`. What
is added here is that there is always an answer, the fallback to the
bounds of the timepoints being for walks that are not there.
-/
import TemporalNetwork.Proofs.ActiveGraph.Distance
import TemporalNetwork.Proofs.Theory.History

namespace TemporalNetwork

namespace Theory

variable {t : Theory} {a b x : Timepoint} {d : Direction} {c : Config} {rs : List Request}
  {v w : Int}

theorem requireTimepoint_of (ha : t.network.hasTimepoint a = true) :
    t.requireTimepoint a = .ok () := if_pos ha

/-- A search among all edges uses those in force of its view. -/
theorem leads_usable_iff (t : Theory) (d : Direction) :
    t.network.Leads (PathSearch.usable t.network t.graph false d) d a b w ↔
      t.network.Leads {id | t.isActive id = true} d a b w := by
  have hview : t.network.inView d (PathSearch.usable t.network t.graph false d)
      = t.network.inView d {id | t.isActive id = true} := by
    ext id
    constructor
    · exact fun h => ⟨h.1.1, h.2⟩
    · exact fun h => ⟨⟨h.1, h.2, fun honly => nomatch honly⟩, h.2⟩
  unfold Network.Leads
  cases d <;> rw [hview]

/-- The distance from a timepoint to itself is no walk at all: a closed
walk in a view is not negative. -/
theorem Coherent.eq_zero_of_isLeast (ht : t.Coherent)
    (h : IsLeast {w | t.network.Leads {id | t.isActive id = true} d a a w} v) : v = 0 := by
  have hle : v ≤ 0 := h.2 (Network.Leads.refl a)
  have hge := h.1.le_of_respected (f := t.graph.value d)
    fun id hactive hin => ht.graph.respected d id hactive hin
  omega

/-- Between two timepoints the least weight of a walk in the forward view
is given. -/
theorem Coherent.isLeast_distance (ht : t.Coherent) (ha : t.network.hasTimepoint a = true)
    (hb : t.network.hasTimepoint b = true) : ∃ v, t.distance a b = .ok v ∧
      IsLeast {w | t.network.Leads {id | t.isActive id = true} .forward a b w} v := by
  obtain ⟨s, v, hrun, hfound, hleast⟩ :=
    PathSearch.exists_run_to ht.network ht.limited ht.graph .forward ha hb false
  simp only [leads_usable_iff] at hleast
  refine ⟨v, ?_, hleast⟩
  unfold distance
  simp only [requireTimepoint_of ha, requireTimepoint_of hb, hrun, hfound, Checked.bind_eq_ok,
    Except.ok.injEq, exists_eq_left', true_and, exists_const, Checked.pure_eq_ok]

/-- All timepoints are listed in their order, each with the least weight of
a walk in the view. -/
theorem Coherent.isLeast_distances (ht : t.Coherent) (d : Direction)
    (ha : t.network.hasTimepoint a = true) : ∃ reached, t.distances d a = .ok reached ∧
      reached.map Prod.fst = t.network.timepoints ∧
      ∀ p ∈ reached, IsLeast {w | t.network.Leads {id | t.isActive id = true} d a p.1 w} p.2 := by
  obtain ⟨s, hrun, hcovers, rfl, rfl⟩ :=
    PathSearch.exists_run ht.network ht.limited ht.graph d ha false
  obtain ⟨reached, hreached, -⟩ := hcovers.exists_distances ht.limited ht.graph
  have hfst := hcovers.map_fst_distances hreached
  refine ⟨reached, ?_, hfst, fun p hp => ?_⟩
  · unfold distances
    simp only [requireTimepoint_of ha, hrun, hreached, Checked.bind_eq_ok, Except.ok.injEq,
      exists_eq_left', true_and, exists_const]
  · have hnode : t.network.hasTimepoint p.1 = true :=
      Network.mem_timepoints.mp (hfst ▸ List.mem_map_of_mem hp)
    obtain ⟨v, hv, hleast⟩ := hcovers.isLeast_distance? ht.network ht.graph ht.limited hnode
    cases hv.symm.trans (PathSearch.mem_distances hreached p hp)
    simpa only [leads_usable_iff] using hleast

/-- In every state that can arise distances are exact: between two
timepoints, and for all of them in either view. Without a directed edge
in force the list of the backward view gives the distances as well. -/
theorem distances_of_performAll (h : (initial c).performAll rs = .ok t)
    (ha : t.network.hasTimepoint a = true) (hb : t.network.hasTimepoint b = true) :
    (∃ v, t.distance a b = .ok v ∧ (a = b → v = 0) ∧
      IsLeast {w | t.network.Walk (t.network.inView .forward {id | t.isActive id = true})
        a b w} v) ∧
    (∃ listed, t.distances .forward a = .ok listed ∧
      listed.map Prod.fst = t.network.timepoints ∧
      ∀ p ∈ listed, t.distance a p.1 = .ok p.2) ∧
    ∃ listed, t.distances .backward b = .ok listed ∧
      listed.map Prod.fst = t.network.timepoints ∧
      (∀ p ∈ listed, IsLeast {w | t.network.Walk
        (t.network.inView .backward {id | t.isActive id = true}) p.1 b w} p.2) ∧
      ((∀ id, t.isActive id = true → (t.network.edge id).isShared = true) →
        ∃ v, (a, v) ∈ listed ∧ t.distance a b = .ok v) := by
  have ht := (settled_of_performAll h).coherent
  refine ⟨?_, ?_, ?_⟩
  · obtain ⟨v, hv, hleast⟩ := ht.isLeast_distance ha hb
    refine ⟨v, hv, fun hab => ?_, hleast⟩
    subst hab
    exact ht.eq_zero_of_isLeast hleast
  · obtain ⟨listed, hlisted, hfst, hall⟩ := ht.isLeast_distances .forward ha
    refine ⟨listed, hlisted, hfst, fun p hp => ?_⟩
    have hnode : t.network.hasTimepoint p.1 = true :=
      Network.mem_timepoints.mp (hfst ▸ List.mem_map_of_mem hp)
    obtain ⟨v, hv, hleast⟩ := ht.isLeast_distance ha hnode
    rw [hv, hleast.unique (hall p hp)]
  · obtain ⟨listed, hlisted, hfst, hall⟩ := ht.isLeast_distances .backward hb
    refine ⟨listed, hlisted, hfst, hall, fun hshared => ?_⟩
    have hmem : a ∈ listed.map Prod.fst := hfst ▸ Network.mem_timepoints.mpr ha
    obtain ⟨⟨_, v⟩, hp, rfl⟩ := List.mem_map.mp hmem
    obtain ⟨w, hw, hleast⟩ := ht.isLeast_distance ha hb
    have hback := hall _ hp
    -- shared edges belong to both views
    have hboth : ∀ id ∈ {id | t.isActive id = true}, (t.network.edge id).isShared = true := hshared
    simp only [Network.leads_forward_iff hboth] at hleast
    simp only [Network.leads_backward_iff hboth] at hback
    refine ⟨v, hp, ?_⟩
    rw [hw, hleast.unique hback]

/-- Of two edges with negative weights the one that is directed is in force
in the backward view only, and shows in that list alone. -/
theorem distances_of_performAll_directed :
    ∃ t, (initial .standard).performAll
        [.newTimepoint ⟨0, 10⟩, .newTimepoint ⟨0, 10⟩, .newVariable,
          .addPermanentEdge ⟨2⟩ ⟨1⟩ (-1), .addDirectedEdge ⟨2⟩ ⟨1⟩ (-4) ⟨⟨0⟩, true⟩ .backward,
          .pushCheckpoint, .assign ⟨⟨0⟩, true⟩] = .ok t ∧
      t.distance ⟨2⟩ ⟨1⟩ = .ok (-1) ∧
      IsLeast {w | t.network.Walk (t.network.inView .forward {id | t.isActive id = true})
        ⟨2⟩ ⟨1⟩ w} (-1) ∧
      t.distances .backward ⟨1⟩ = .ok [(⟨0⟩, 6), (⟨1⟩, 0), (⟨2⟩, -4)] ∧
      IsLeast {w | t.network.Walk (t.network.inView .backward {id | t.isActive id = true})
        ⟨2⟩ ⟨1⟩ w} (-4) := by
  have hrun : ((initial .standard).performAll
      [.newTimepoint ⟨0, 10⟩, .newTimepoint ⟨0, 10⟩, .newVariable,
        .addPermanentEdge ⟨2⟩ ⟨1⟩ (-1), .addDirectedEdge ⟨2⟩ ⟨1⟩ (-4) ⟨⟨0⟩, true⟩ .backward,
        .pushCheckpoint, .assign ⟨⟨0⟩, true⟩]).answers (fun t =>
          t.network.hasTimepoint ⟨1⟩ && t.network.hasTimepoint ⟨2⟩ &&
          decide (t.distance ⟨2⟩ ⟨1⟩ = .ok (-1)) &&
          decide (t.distances .backward ⟨1⟩ = .ok [(⟨0⟩, 6), (⟨1⟩, 0), (⟨2⟩, -4)]))
      = true := by decide +kernel
  obtain ⟨t, ht, hstate⟩ := Checked.exists_of_answers hrun
  simp only [Bool.and_eq_true, decide_eq_true_eq] at hstate
  obtain ⟨⟨⟨hone, htwo⟩, hdistance⟩, hdistances⟩ := hstate
  obtain ⟨⟨v, hv, -, hleast⟩, -, ⟨listed, hlisted, -, hall, -⟩⟩ :=
    distances_of_performAll ht htwo hone
  cases hdistance.symm.trans hv
  cases hdistances.symm.trans hlisted
  exact ⟨t, ht, hdistance, hleast, hdistances, hall (⟨2⟩, -4) (by decide)⟩

end Theory

end TemporalNetwork
