/-
Distances that are found are least.

A search that is not stopped labels every node, and no label can be
improved through an edge that it may use. Shifted back by the potentials
the labels therefore respect each of these edges, so that no walk from
the start is shorter than what its end is labelled with. The path that
belongs to a label is such a walk, and no longer: what is reported is the
least weight of a walk.

Where a search stops at a node, the labels of the others need not be
final. The labels below that of the node are, and cut off at it the
labels respect the edges all the same, since no edge is negative once it
is shifted.
-/
import Mathlib.Data.List.Sort
import TemporalNetwork.Proofs.ActiveGraph.Reach

namespace TemporalNetwork

namespace PathSearch

open ActiveGraph (Grounded)

variable {net : Network} {g : ActiveGraph} {sharedOnly : Bool} {s : PathSearch} {d : Direction}
  {start x : Timepoint} {label : PathLabel} {w : Int}

/-- The edges that a search may use, as a set. -/
def usable (net : Network) (g : ActiveGraph) (sharedOnly : Bool) (d : Direction) : Set EdgeId :=
  {id | Usable net g sharedOnly d id}

/-- What a search that was not stopped has found. -/
theorem covers_run (hnet : net.WellFormed) (hlimited : net.Limited) (hg : g.Grounded net)
    (hstart : net.hasTimepoint start = true) (hrun : run net g d start sharedOnly none = .ok s) :
    Covers net g sharedOnly s ∧ s.view = d ∧ s.start = start := by
  obtain ⟨found, hfound, hcovers⟩ := exists_run hnet hlimited hg d hstart sharedOnly
  cases hfound.symm.trans hrun
  exact hcovers

section
variable (h : Covers net g sharedOnly s) (hnet : net.WellFormed) (hg : g.Grounded net)
include h hnet hg

/-- No walk from the start is shorter than the label of its end. -/
theorem Covers.le_of_leads (hwalk : net.Leads (usable net g sharedOnly s.view) s.view s.start x w)
    (hlabel : s.labels.get? x = some label) :
    label.distance - g.value s.view s.start + g.value s.view x ≤ w := by
  have hfirst : s.labels.get? s.start = some ⟨0, none⟩ := by
    obtain ⟨first, hfirst⟩ := h.reached s.start h.node
    have hloose := h.loose
    unfold incoming at hloose
    rw [hfirst] at hloose
    obtain ⟨distance, via⟩ := first
    obtain ⟨-, rfl⟩ := h.first _ _ hfirst hloose
    obtain rfl : via = none := hloose
    exact hfirst
  have hwalk' := hwalk.le_of_respected
    (f := fun y => ((s.labels.get? y).map (·.distance)).getD 0 + g.value s.view y) (by
      intro id husable hin
      have htail := hnet.tail (hg.hasEdge husable.1) s.view
      obtain ⟨before, hbefore⟩ := h.reached _ htail
      obtain ⟨after, hafter, hle⟩ := h.tight id before husable hbefore
      simp only [hbefore, hafter, Option.map_some, Option.getD_some]
      unfold reduced at hle
      omega)
  simp only [hfirst, hlabel, Option.map_some, Option.getD_some] at hwalk'
  omega

end

/-- A distance that no walk falls short of is the least weight of one: the
path that belongs to the label attains it. -/
theorem Accounted.isLeast (h : Accounted net g sharedOnly s) {es : List EdgeId} {v : Int}
    (hdistance : s.distance? g x = .ok (some v)) (hpath : s.pathTo net g x = .ok es)
    (hleast : ∀ w, net.Leads (usable net g sharedOnly s.view) s.view s.start x w → v ≤ w) :
    IsLeast {w | net.Leads (usable net g sharedOnly s.view) s.view s.start x w} v := by
  obtain ⟨husable, hlead, hweight⟩ := h.pathTo hdistance hpath
  have hwalk : net.Leads (usable net g sharedOnly s.view) s.view s.start x (net.weight es) :=
    hlead.mono husable
  refine ⟨?_, hleast⟩
  rw [Set.mem_ofPred_eq, Int.le_antisymm (hleast _ hwalk) hweight]
  exact hwalk

section
variable (h : Covers net g sharedOnly s) (hnet : net.WellFormed) (hg : g.Grounded net)
include h hnet hg

/-- What is reported for a timepoint is the least weight of a walk to it
from the start, along the edges that the search may use. -/
theorem Covers.isLeast_distance? (hlimited : net.Limited) (hx : net.hasTimepoint x = true) :
    ∃ v, s.distance? g x = .ok (some v) ∧
      IsLeast {w | net.Leads (usable net g sharedOnly s.view) s.view s.start x w} v := by
  obtain ⟨label, hlabel⟩ := h.reached x hx
  obtain ⟨-, hpos, hle⟩ := h.label x label hlabel
  have hstart := hg.value_mem hlimited s.view h.node
  have hvalue := hg.value_mem hlimited s.view hx
  have hfound := distance?_eq hlimited hg h.node hx hlabel hpos (by omega)
  obtain ⟨es, hpath⟩ := h.exists_pathTo hg hnet x
  exact ⟨_, hfound, h.toAccounted.isLeast hfound hpath
    fun w hw => h.le_of_leads hnet hg hw hlabel⟩

end

-- ========================================================= stopped searches

/-- How far a node is from the start, no further than the search went. -/
def cutoff (s : PathSearch) (distance : Int) (x : Timepoint) : Int :=
  if s.settled.contains x then ((s.labels.get? x).map (·.distance)).getD distance else distance

/-- A settled node is as far as its label says. -/
theorem cutoff_of_settled (hsettled : s.settled.contains x = true)
    (hlabel : s.labels.get? x = some label) (distance : Int) :
    s.cutoff distance x = label.distance := by
  unfold cutoff
  rw [if_pos hsettled, hlabel]
  rfl

/-- All other nodes count as far as the search has come. -/
theorem cutoff_of_not_settled (hopen : s.settled.contains x = false) (distance : Int) :
    s.cutoff distance x = distance := by
  unfold cutoff
  rw [hopen]
  rfl

section
variable {distance : Int} {goal : Timepoint} {id : EdgeId}

/-- A label is no less than the distance of its node, cut off. -/
theorem Explores.cutoff_le (h : Explores net g sharedOnly s distance)
    (hlabel : s.labels.get? x = some label) : s.cutoff distance x ≤ label.distance := by
  cases hsettled : s.settled.contains x with
  | true => exact Int.le_of_eq (cutoff_of_settled hsettled hlabel distance)
  | false =>
      rw [cutoff_of_not_settled hsettled]
      exact h.ahead x label hsettled hlabel

/-- No node counts further than that. -/
theorem Explores.cutoff_le_distance (h : Explores net g sharedOnly s distance) (x : Timepoint) :
    s.cutoff distance x ≤ distance := by
  cases hsettled : s.settled.contains x with
  | true =>
      obtain ⟨label, hlabel, hle⟩ := h.settled x hsettled
      rwa [cutoff_of_settled hsettled hlabel]
  | false => exact Int.le_of_eq (cutoff_of_not_settled hsettled distance)

section
variable (h : Halts net g sharedOnly s goal distance) (hg : g.Grounded net)
include h hg

/-- No edge leads further down than where the search was cut off. -/
theorem Halts.cutoff_head_le (husable : Usable net g sharedOnly s.view id) :
    s.cutoff distance ((net.edge id).head s.view)
      ≤ s.cutoff distance ((net.edge id).tail s.view) + reduced net g s.view id := by
  have hnonneg := reduced_nonneg hg husable.1 husable.2.1
  have hhead := h.cutoff_le_distance ((net.edge id).head s.view)
  cases hsettled : s.settled.contains ((net.edge id).tail s.view) with
  | false =>
      rw [cutoff_of_not_settled hsettled]
      omega
  | true =>
      obtain ⟨label, hlabel, hle⟩ := h.settled _ hsettled
      rw [cutoff_of_settled hsettled hlabel]
      by_cases hlt : label.distance < distance
      · obtain ⟨after, hafter, hafterle⟩ := h.tight id label hsettled husable hlabel hlt
        exact Int.le_trans (h.cutoff_le hafter) hafterle
      · omega

/-- No walk from the start to where the search stopped is shorter than its
label. -/
theorem Halts.le_of_leads
    (hwalk : net.Leads (usable net g sharedOnly s.view) s.view s.start goal w)
    (hlabel : s.labels.get? goal = some label) :
    label.distance - g.value s.view s.start + g.value s.view goal ≤ w := by
  have hrespected := hwalk.le_of_respected
    (f := fun y => s.cutoff distance y + g.value s.view y) (by
      intro id husable hin
      have hle := h.cutoff_head_le hg husable
      unfold reduced at hle
      omega)
  have hstart : s.cutoff distance s.start ≤ 0 := h.cutoff_le h.origin
  rw [cutoff_of_settled h.stopped hlabel] at hrespected
  omega

/-- What is reported for the node at which a search stopped is the least
weight of a walk to it. -/
theorem Halts.isLeast_distance? (hnet : net.WellFormed) (hlimited : net.Limited)
    (hstart : net.hasTimepoint s.start = true) :
    ∃ v, s.distance? g goal = .ok (some v) ∧
      IsLeast {w | net.Leads (usable net g sharedOnly s.view) s.view s.start goal w} v := by
  obtain ⟨label, hlabel, hgoal, hpos, hle⟩ := h.exists_label
  have hfound := distance?_eq hlimited hg hstart hgoal hlabel hpos hle
  obtain ⟨es, hchain⟩ := h.chain goal label hlabel
  have hpath := h.toAccounted.pathTo_eq hnet hg hstart h.incoming_start hchain
  exact ⟨_, hfound, h.toAccounted.isLeast hfound hpath fun w hw => h.le_of_leads hg hw hlabel⟩

end

end

/-- A search that goes no further than to a timepoint reports the least
weight of a walk to it. -/
theorem exists_run_to (hnet : net.WellFormed) (hlimited : net.Limited) (hg : g.Grounded net)
    (d : Direction) (hstart : net.hasTimepoint start = true) (hx : net.hasTimepoint x = true)
    (sharedOnly : Bool) :
    ∃ s v, run net g d start sharedOnly (some x) = .ok s ∧ s.distance? g x = .ok (some v) ∧
      IsLeast {w | net.Leads (usable net g sharedOnly d) d start x w} v := by
  obtain ⟨s, hrun, rfl, rfl, hend⟩ :=
    exists_run_until hnet hlimited hg d hstart sharedOnly (some x)
  rcases hend with hcovers | ⟨_, last, hstop, hhalts⟩
  · obtain ⟨v, hv, hleast⟩ := hcovers.isLeast_distance? hnet hg hlimited hx
    exact ⟨s, v, hrun, hv, hleast⟩
  · cases hstop
    obtain ⟨v, hv, hleast⟩ := hhalts.isLeast_distance? hg hnet hlimited hstart
    exact ⟨s, v, hrun, hv, hleast⟩

-- ===================================================== lists of distances

/-- A labelled node is listed with a distance. -/
theorem distance?_ne_none (hlabel : s.labels.get? x = some label) :
    s.distance? g x ≠ .ok none := by
  intro hnone
  unfold distance? at hnone
  simp only [hlabel, Checked.bind_eq_ok, Checked.pure_eq_ok, reduceCtorEq, and_false,
    exists_false] at hnone

/-- The labelled nodes are listed, by increasing handle. -/
theorem map_fst_distances {reached : List (Timepoint × Int)} (h : s.distances g = .ok reached) :
    reached.map Prod.fst = s.labels.toList.map Prod.fst := by
  have hgo : ∀ entries reached, distances.go g s entries = .ok reached →
      (∀ entry ∈ entries, s.labels.get? entry.1 = some entry.2) →
        reached.map Prod.fst = entries.map Prod.fst := by
    intro entries
    induction entries with
    | nil =>
        intro reached hgo _
        cases hgo
        rfl
    | cons entry rest ih =>
        intro reached hgo hentries
        simp only [distances.go, Checked.bind_eq_ok, Checked.pure_eq_ok] at hgo
        obtain ⟨found, hfound, others, hothers, rfl⟩ := hgo
        have hrest := ih others hothers fun e he => hentries e (List.mem_cons_of_mem entry he)
        cases found with
        | none => exact absurd hfound (distance?_ne_none (hentries entry List.mem_cons_self))
        | some v => rw [List.map_cons, List.map_cons, hrest]
  exact hgo _ _ h fun entry hentry => (HandleMap.mem_toList _ _ _).mp hentry

/-- A search that was not stopped lists each timepoint once, in order. -/
theorem Covers.map_fst_distances (h : Covers net g sharedOnly s)
    {reached : List (Timepoint × Int)} (hreached : s.distances g = .ok reached) :
    reached.map Prod.fst = net.timepoints := by
  rw [PathSearch.map_fst_distances hreached]
  have hirrefl : Std.Irrefl fun x y : Timepoint => Handle.index x < Handle.index y :=
    ⟨fun _ => Nat.lt_irrefl _⟩
  have hantisymm : Std.Antisymm fun x y : Timepoint => Handle.index x < Handle.index y :=
    ⟨fun _ _ hlt hgt => absurd hgt (Nat.lt_asymm hlt)⟩
  refine List.Pairwise.eq_of_mem_iff (List.pairwise_map.mpr s.labels.pairwise_toList)
    net.domains.pairwise_keys fun x => ?_
  rw [List.mem_map]
  constructor
  · rintro ⟨⟨_, label⟩, hentry, rfl⟩
    have hlabel := (HandleMap.mem_toList _ _ _).mp hentry
    exact Network.mem_timepoints.mpr (h.label _ label hlabel).1
  · intro hx
    obtain ⟨label, hlabel⟩ := h.reached x (Network.mem_timepoints.mp hx)
    exact ⟨(x, label), (HandleMap.mem_toList _ _ _).mpr hlabel, rfl⟩

/-- All nodes that a search has reached are listed, each with what is
reported for it. -/
theorem exists_mem_distances {reached : List (Timepoint × Int)} (h : s.distances g = .ok reached)
    (hx : s.distance? g x = .ok (some w)) : (x, w) ∈ reached := by
  have hgo : ∀ entries reached, distances.go g s entries = .ok reached →
      (∃ label, (x, label) ∈ entries) → (x, w) ∈ reached := by
    intro entries
    induction entries with
    | nil =>
        rintro reached - ⟨label, hmem⟩
        exact absurd hmem List.not_mem_nil
    | cons entry rest ih =>
        rintro reached hgo ⟨label, hmem⟩
        simp only [distances.go, Checked.bind_eq_ok, Checked.pure_eq_ok] at hgo
        obtain ⟨found, hfound, others, hothers, rfl⟩ := hgo
        rcases List.mem_cons.mp hmem with rfl | hmem
        · cases hfound.symm.trans hx
          exact List.mem_cons_self
        · have hrest := ih others hothers ⟨label, hmem⟩
          cases found with
          | none => exact hrest
          | some v => exact List.mem_cons_of_mem _ hrest
  obtain ⟨label, hlabel, -⟩ := distance?_eq_some hx
  exact hgo _ _ h ⟨label, (HandleMap.mem_toList _ _ _).mpr hlabel⟩

end PathSearch

end TemporalNetwork
