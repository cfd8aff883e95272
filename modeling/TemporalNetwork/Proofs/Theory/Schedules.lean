/-
The earliest and the latest schedule.

With every timepoint at its lower bound the edges in force of the
backward view are respected, and no times that respect them put a
timepoint earlier. With every timepoint at its upper bound the same holds
of the forward view, and none puts it later. Edges that belong to one
view only are respected by one of the two schedules and may be violated
by the other. All this is said of the edges in force, under a conflict as
well as without.

# One argument for both

Seen in a view, times are potentials: the times themselves in the forward
view, their negations in the backward one. Times respect an edge of the
view if and only if the edge could not lower them, so that along any walk
from the origin they add up to no more than its weight. The potential of
the graph is the weight of such a walk. It is thus the greatest of all,
and the schedules are its two readings.
-/
import TemporalNetwork.Proofs.Theory.History

namespace TemporalNetwork

-- ======================================================= times, as potentials

/-- A time as a potential of the view, or a potential as a time. -/
def Direction.oriented (d : Direction) (k : Int) : Int :=
  match d with
  | .forward => k
  | .backward => -k

/-- Times respect an edge if it does not lower them in a view. -/
theorem Edge.holds_iff_oriented {τ : Timepoint → Int} (e : Edge) (d : Direction) : e.Holds τ ↔
    d.oriented (τ (e.head d)) ≤ d.oriented (τ (e.tail d)) + e.weight := by
  cases d with
  | forward =>
      show τ e.target - τ e.source ≤ e.weight ↔ τ e.target ≤ τ e.source + e.weight
      omega
  | backward =>
      show τ e.target - τ e.source ≤ e.weight ↔ -τ e.source ≤ -τ e.target + e.weight
      omega

/-- Of all that the edges in force of a view do not lower, the potential
is the greatest. -/
theorem ActiveGraph.Sound.le_value {net : Network} {g : ActiveGraph} (h : g.Sound net)
    {d : Direction} {f : Timepoint → Int} (horigin : f .origin = 0)
    (hf : ∀ id, g.isActive id = true → (net.edge id).isIn d = true →
      f ((net.edge id).head d) ≤ f ((net.edge id).tail d) + (net.edge id).weight)
    {x : Timepoint} (hx : net.hasTimepoint x = true) : f x ≤ g.value d x := by
  have hle := (h.reached d x hx).le_of_respected (f := f) hf
  omega

namespace Theory

variable {t : Theory} {d : Direction} {τ : Timepoint → Int} {x : Timepoint} {c : Config}
  {rs : List Request}

/-- The times put the origin at 0 and respect all edges in force of the
view. -/
structure Respects (t : Theory) (d : Direction) (τ : Timepoint → Int) : Prop where
  origin : τ .origin = 0
  edge (id : EdgeId) : t.isActive id = true → (t.network.edge id).isIn d = true →
    (t.network.edge id).Holds τ

/-- No times that respect the view are beyond the potential. -/
theorem Respects.oriented_le (h : t.Respects d τ) (ht : t.Coherent)
    (hx : t.network.hasTimepoint x = true) : d.oriented (τ x) ≤ t.graph.value d x := by
  have horigin : d.oriented (τ .origin) = 0 := by
    rw [h.origin]
    cases d <;> rfl
  exact ht.graph.le_value (f := fun y => d.oriented (τ y)) horigin
    (fun id hid hin => ((t.network.edge id).holds_iff_oriented d).mp (h.edge id hid hin)) hx

/-- Times that are the potentials of the view respect it. -/
theorem Coherent.respects (ht : t.Coherent)
    (hτ : ∀ x, t.network.hasTimepoint x = true → d.oriented (τ x) = t.graph.value d x) :
    t.Respects d τ where
  origin := by
    have horigin := hτ .origin ht.network.origin
    rw [ht.graph.origin] at horigin
    cases d with
    | forward => exact horigin
    | backward => exact Int.neg_eq_zero.mp horigin
  edge id hid hin := by
    have hedge := ht.graph.hasEdge hid
    rw [(t.network.edge id).holds_iff_oriented d, hτ _ (ht.network.head hedge d),
      hτ _ (ht.network.tail hedge d)]
    exact ht.graph.respected d id hid hin

-- ================================================================ schedules

/-- A vector with one time for each timepoint. -/
theorem keys_ofList_timepoints (t : Theory) (f : Timepoint → Int) :
    (HandleVector.ofList (t.network.timepoints.map f) : HandleVector Timepoint Int).keys
      = t.network.timepoints := by
  have hsize : (HandleVector.ofList (t.network.timepoints.map f) :
      HandleVector Timepoint Int).size = t.network.domains.size := by
    unfold HandleVector.size HandleVector.ofList
    rw [List.size_toArray, List.length_map]
    exact t.network.length_timepoints
  unfold HandleVector.keys
  rw [hsize]
  rfl

theorem get_ofList_timepoints (f : Timepoint → Int) (hx : t.network.hasTimepoint x = true) :
    (HandleVector.ofList (t.network.timepoints.map f) : HandleVector Timepoint Int).get x
      = f x := by
  have hget := HandleVector.get?_ofList_map_keys t.network.domains f x
  rw [if_pos ((HandleVector.contains_iff _ _).mp hx)] at hget
  unfold HandleVector.get
  exact congrArg (·.getD default) hget

/-- The earliest schedule is the least of all times that respect the
edges in force of the backward view, and the latest one the greatest of
all that respect those of the forward view. The one is nowhere later than
the other. -/
theorem schedules_extreme (h : (initial c).performAll rs = .ok t) :
    (t.earliestSchedule.keys = t.network.timepoints ∧
      t.Respects .backward t.earliestSchedule.get ∧
      ∀ τ, t.Respects .backward τ → ∀ x, t.network.hasTimepoint x = true →
        t.earliestSchedule.get x ≤ τ x) ∧
    (t.latestSchedule.keys = t.network.timepoints ∧
      t.Respects .forward t.latestSchedule.get ∧
      ∀ τ, t.Respects .forward τ → ∀ x, t.network.hasTimepoint x = true →
        τ x ≤ t.latestSchedule.get x) ∧
    ∀ x, t.network.hasTimepoint x = true →
      t.earliestSchedule.get x ≤ t.latestSchedule.get x := by
  have ht := (settled_of_performAll h).coherent
  -- the bounds are the values of the two views, the lower one with its sign turned
  have hearliest : ∀ x, t.network.hasTimepoint x = true →
      t.earliestSchedule.get x = -t.graph.value .backward x :=
    fun x hx => get_ofList_timepoints t.graph.lower hx
  have hlatest : ∀ x, t.network.hasTimepoint x = true →
      t.latestSchedule.get x = t.graph.value .forward x :=
    fun x hx => get_ofList_timepoints t.graph.upper hx
  refine ⟨⟨keys_ofList_timepoints t _, ?_, ?_⟩, ⟨keys_ofList_timepoints t _, ?_, ?_⟩, ?_⟩
  · refine ht.respects fun x hx => ?_
    rw [hearliest x hx]
    exact Int.neg_neg _
  · intro τ hτ x hx
    have hle : -τ x ≤ t.graph.value .backward x := hτ.oriented_le ht hx
    rw [hearliest x hx]
    omega
  · exact ht.respects hlatest
  · intro τ hτ x hx
    rw [hlatest x hx]
    exact hτ.oriented_le ht hx
  · intro x hx
    have huncrossed := ht.graph.uncrossed x
    rw [hearliest x hx, hlatest x hx]
    omega

/-- An edge that is only used for upper bounds: the latest schedule
respects it and the earliest one does not. -/
theorem schedules_extreme_directed :
    ∃ t, (initial .standard).performAll
        [.newTimepoint ⟨0, 10⟩, .newTimepoint ⟨0, 10⟩, .newVariable,
          .addPermanentEdge .origin ⟨1⟩ 4, .addPermanentEdge ⟨2⟩ .origin (-5),
          .addDirectedEdge ⟨1⟩ ⟨2⟩ 3 ⟨⟨0⟩, true⟩ .forward,
          .pushCheckpoint, .assign ⟨⟨0⟩, true⟩] = .ok t ∧
      t.earliestSchedule.values = [0, 0, 5] ∧ t.latestSchedule.values = [0, 4, 7] ∧
      (∀ τ, t.Respects .backward τ → 5 ≤ τ ⟨2⟩) ∧ ∀ τ, t.Respects .forward τ → τ ⟨2⟩ ≤ 7 := by
  have hrun : ((initial .standard).performAll
      [.newTimepoint ⟨0, 10⟩, .newTimepoint ⟨0, 10⟩, .newVariable,
        .addPermanentEdge .origin ⟨1⟩ 4, .addPermanentEdge ⟨2⟩ .origin (-5),
        .addDirectedEdge ⟨1⟩ ⟨2⟩ 3 ⟨⟨0⟩, true⟩ .forward,
        .pushCheckpoint, .assign ⟨⟨0⟩, true⟩]).answers (fun t =>
          decide (t.earliestSchedule.values = [0, 0, 5] ∧ t.latestSchedule.values = [0, 4, 7] ∧
            t.earliestSchedule.get ⟨2⟩ = 5 ∧ t.latestSchedule.get ⟨2⟩ = 7)
            && t.network.hasTimepoint ⟨2⟩) = true := by decide +kernel
  obtain ⟨t, ht, hstate⟩ := Checked.exists_of_answers hrun
  simp only [Bool.and_eq_true, decide_eq_true_eq] at hstate
  obtain ⟨⟨hearliest, hlatest, hlower, hupper⟩, htimepoint⟩ := hstate
  obtain ⟨⟨-, -, hleast⟩, ⟨-, -, hgreatest⟩, -⟩ := schedules_extreme ht
  refine ⟨t, ht, hearliest, hlatest, fun τ hτ => ?_, fun τ hτ => ?_⟩
  · rw [← hlower]
    exact hleast τ hτ ⟨2⟩ htimepoint
  · rw [← hupper]
    exact hgreatest τ hτ ⟨2⟩ htimepoint

end Theory

end TemporalNetwork
