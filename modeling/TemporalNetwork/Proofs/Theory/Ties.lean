/-
Ties between nodes as near as each other, and what hangs on them.

The searches around an edge take the nearest node, and of several the one
with the least handle. A queue may give any of them (`QueuedSearch`), which
decides through which edges nodes are found. The distances are the same in
whatever order nodes are taken, so that the same edges are found to close a
negative cycle, in the same order, and the same literals are implied. What
differs is how they are explained: by one shortest path or another, and
each of these explanations is valid (`exists_ruleOutClosing_of_finds`).
Nothing in the theory reads an explanation again.
-/
import TemporalNetwork.Proofs.ActiveGraph.Queue
import TemporalNetwork.Proofs.Theory.Progress

namespace TemporalNetwork

variable {net : Network} {g : ActiveGraph} {sharedOnly : Bool} {d : Direction}
  {s s' after after' before before' : PathSearch} {start : Timepoint}

-- ================================================================ searches

/-- The search took entries out of its queue, in one order or another,
until nothing was queued. -/
def QueuedSearch.Finds (net : Network) (g : ActiveGraph) (sharedOnly : Bool) (d : Direction)
    (start : Timepoint) (s : PathSearch) : Prop :=
  ∃ n q, Turns net g sharedOnly n (initial d start) q ∧ q.queue = 0 ∧ q.search = s

/-- Whatever the order, such a search reaches all there is. -/
theorem QueuedSearch.Finds.covers (h : Finds net g sharedOnly d start s) (hnet : net.WellFormed)
    (hlimited : net.Limited) (hg : g.Grounded net) (hstart : net.hasTimepoint start = true) :
    s.Covers net g sharedOnly ∧ s.view = d ∧ s.start = start := by
  obtain ⟨n, q, hturns, hempty, rfl⟩ := h
  obtain ⟨hruns, hview, hsame, -⟩ := (runs_initial hstart d).turns hnet hlimited hg hstart hturns
  exact ⟨hruns.covers hempty, hview, hsame⟩

namespace PathSearch

/-- Of two searches from the same node in the same view that reach all there
is, each reports what the other one does. -/
theorem Covers.distance?_eq (h : Covers net g sharedOnly s) (h' : Covers net g sharedOnly s')
    (hnet : net.WellFormed) (hlimited : net.Limited) (hg : g.Grounded net)
    (hview : s'.view = s.view) (hstart : s'.start = s.start) (x : Timepoint) :
    s.distance? g x = s'.distance? g x := by
  by_cases hx : net.hasTimepoint x = true
  · obtain ⟨v, hv, hleast⟩ := h.isLeast_distance? hnet hg hlimited hx
    obtain ⟨w, hw, hleast'⟩ := h'.isLeast_distance? hnet hg hlimited hx
    rw [hview, hstart] at hleast'
    rw [hv, hw, hleast.unique hleast']
  · -- what is no timepoint has no label
    have hnone : ∀ r : PathSearch, r.Covers net g sharedOnly → r.distance? g x = .ok none := by
      intro r hr
      unfold distance?
      cases hlabel : r.labels.get? x with
      | none => rfl
      | some label => exact absurd (hr.label x label hlabel).1 hx
    rw [hnone s h, hnone s' h']

/-- They list the same distances. -/
theorem Covers.distances_eq (h : Covers net g sharedOnly s) (h' : Covers net g sharedOnly s')
    {reached reached' : List (Timepoint × Int)} (hreached : s.distances g = .ok reached)
    (hreached' : s'.distances g = .ok reached')
    (hsame : ∀ x, s.distance? g x = s'.distance? g x) : reached = reached' := by
  have hfst : reached.map Prod.fst = reached'.map Prod.fst := by
    rw [h.map_fst_distances hreached, h'.map_fst_distances hreached']
  have hlength : reached.length = reached'.length := by
    simpa only [List.length_map] using congrArg List.length hfst
  refine List.ext_getElem hlength fun i hi hi' => ?_
  have hnode : reached[i].1 = reached'[i].1 := by
    have := List.getElem_of_eq hfst (by simpa using hi)
    simpa only [List.getElem_map] using this
  have hfound := mem_distances hreached _ (List.getElem_mem hi)
  have hfound' := mem_distances hreached' _ (List.getElem_mem hi')
  rw [hnode, hsame, hfound', Except.ok.injEq, Option.some.injEq] at hfound
  exact Prod.ext hnode hfound.symm

end PathSearch

namespace Theory

variable {t t' u u' : Theory} {id : EdgeId} {e : Edge} {l guard : Literal}
  {found : List (Timepoint × EdgeId)}

-- ============================================================== candidates

/-- At each node, the search back counts by its distances. -/
theorem closingAt_congr (hsame : ∀ y, before.distance? t.graph y = before'.distance? t.graph y)
    (node : Timepoint) (toNode : Int) (ids : List EdgeId) :
    t.closingAt e before node toNode ids = t.closingAt e before' node toNode ids := by
  induction ids with
  | nil => rfl
  | cons id rest ih =>
      simp only [closingAt, hsame, ih]

/-- The search back counts by its distances. -/
theorem closing_congr (hsame : ∀ y, before.distance? t.graph y = before'.distance? t.graph y)
    (reached : List (Timepoint × Int)) :
    t.closing e before reached = t.closing e before' reached := by
  induction reached with
  | nil => rfl
  | cons first rest ih =>
      obtain ⟨node, toNode⟩ := first
      unfold closing
      rw [closingAt_congr hsame, ih]

-- ============================================================ explanations

/-- The second theory differs from the first one at most in the explanations
of what it has implied. -/
structure Rephrases (t t' : Theory) : Prop where
  eq : t' = { t with implications := t'.implications }
  marks : t'.implications.marks = t.implications.marks
  backtracks : t'.implications.backtracks = t.implications.backtracks
  literals : t'.implications.toList.map Implication.literal
    = t.implications.toList.map Implication.literal

theorem Rephrases.refl (t : Theory) : Rephrases t t := ⟨rfl, rfl, rfl, rfl⟩

/-- Explanations are no values. -/
theorem Rephrases.value (h : Rephrases t t') : t'.value = t.value := by
  rw [h.eq]
  rfl

theorem Rephrases.network (h : Rephrases t t') : t'.network = t.network := by rw [h.eq]

/-- A literal is implied, and explained in two ways. -/
theorem Rephrases.imply (h : Rephrases t t') (hnone : t.value l = none) (x x' : Explanation) :
    Rephrases (t.imply l x) (t'.imply l x') := by
  obtain ⟨heq, hmarks, hbacktracks, hliterals⟩ := h
  generalize t'.implications = q at heq hmarks hbacktracks hliterals
  subst heq
  have hnone' : Theory.value { t with implications := q } l = none := hnone
  rw [imply_of_none hnone, imply_of_none hnone', setLiteral_of_none hnone,
    setLiteral_of_none hnone']
  refine ⟨rfl, hmarks, hbacktracks, ?_⟩
  simp only [EventQueue.toList, EventQueue.push, Array.toList_push, List.map_append]
    at hliterals ⊢
  rw [hliterals]
  rfl

/-- An edge is ruled out, and explained in two ways. -/
theorem Rephrases.ruleOut (h : Rephrases t t') (hnone : t.value guard = none)
    (x x' : Explanation) : Rephrases (t.ruleOut guard x) (t'.ruleOut guard x') := by
  unfold Theory.ruleOut
  have hcounted : Rephrases
      { t with stats := { t.stats with edgePropagations := t.stats.edgePropagations + 1 } }
      { t' with stats := { t'.stats with edgePropagations := t'.stats.edgePropagations + 1 } } := by
    refine ⟨?_, h.marks, h.backtracks, h.literals⟩
    rw [h.eq]
  exact hcounted.imply (value_negate_eq_none.mpr hnone) x x'

/-- Edges are ruled out by two pairs of searches, found as they are. -/
theorem Rephrases.ruleOutClosing (h : Rephrases t t')
    (hrun : t.ruleOutClosing id after before found = .ok u)
    (hrun' : t'.ruleOutClosing id after' before' found = .ok u') : Rephrases u u' := by
  induction found generalizing t t' with
  | nil =>
      cases hrun
      cases hrun'
      exact h
  | cons first rest ih =>
      obtain ⟨node, candidate⟩ := first
      unfold Theory.ruleOutClosing at hrun hrun'
      rw [h.network, h.value] at hrun'
      simp only at hrun hrun'
      cases hguard : (t.network.edge candidate).guard? with
      | none =>
          rw [hguard] at hrun hrun'
          exact ih h hrun hrun'
      | some guard =>
          rw [hguard] at hrun hrun'
          simp only at hrun hrun'
          split at hrun
          next hset =>
            rw [if_pos hset] at hrun'
            exact ih h hrun hrun'
          next hunset =>
            rw [if_neg hunset] at hrun'
            simp only [Checked.bind_eq_ok, Checked.pure_eq_ok] at hrun hrun'
            obtain ⟨there, -, back, -, _, rfl, hrest⟩ := hrun
            obtain ⟨there', -, back', -, _, rfl, hrest'⟩ := hrun'
            exact ih (h.ruleOut (Option.not_isSome_iff_eq_none.mp hunset) _ _) hrest hrest'

-- ==================================================================== ties

/-- Two searches around an edge in force that take their nodes from queues,
whichever of the least entries come out, find the same edges and rule them
out: they draw what closes a negative cycle with the edge, as the searches
that look for the nearest node do. The theories differ in explanations
alone, and those are valid either way. -/
theorem exists_ruleOutClosing_of_finds (ht : t.Coherent) (hactive : t.graph.isActive id = true)
    (hshared : (t.network.edge id).isShared = true) (hloop : (t.network.edge id).isLoop = false)
    (hafter : QueuedSearch.Finds t.network t.graph true .forward (t.network.edge id).target after)
    (hbefore : QueuedSearch.Finds t.network t.graph true .backward (t.network.edge id).source
      before) :
    ∃ reached found u u', after.distances t.graph = .ok reached ∧
      t.closing (t.network.edge id) before reached = .ok found ∧
      t.ruleOutClosing id after before found = .ok u' ∧ Draws (t.closedBy id) t u' ∧
      (∀ i ∈ u'.implications.toList, i.Valid u'.network) ∧
      t.ruleOutAround id = .ok u ∧ Rephrases u u' := by
  have hid := ht.graph.hasEdge hactive
  have hheadAfter := ht.network.head hid .forward
  have hheadBefore := ht.network.head hid .backward
  obtain ⟨hcovers, hview, hstart⟩ := hafter.covers ht.network ht.limited ht.graph hheadAfter
  obtain ⟨hcovers', hview', hstart'⟩ := hbefore.covers ht.network ht.limited ht.graph hheadBefore
  -- what is drawn in this order
  obtain ⟨reached, hreached, hwithin⟩ := hcovers.exists_distances ht.limited ht.graph
  obtain ⟨found, hfound⟩ := ht.exists_closing hcovers' (ht.limited id hid) hwithin
  obtain ⟨u', hrun'⟩ := exists_ruleOutClosing ht.network ht.graph hcovers hcovers' found
  have hsurveys : Surveys t id after before :=
    ⟨hactive, hshared, hcovers, hview, hstart, hcovers', hview', hstart'⟩
  have hdraws := hsurveys.draws ht hloop hreached hfound hrun'
  -- and by the searches that are run
  obtain ⟨u, hrun⟩ := ht.exists_ruleOutAround hid
  have haround := hrun
  unfold ruleOutAround at hrun
  simp only [hloop, Bool.false_eq_true, if_false, Checked.bind_eq_ok] at hrun
  obtain ⟨a, ha, b, hb, reached₁, hreached₁, found₁, hfound₁, hrun⟩ := hrun
  obtain ⟨hacovers, haview, hastart⟩ := PathSearch.covers_run ht.network ht.limited ht.graph
    hheadAfter ha
  obtain ⟨hbcovers, hbview, hbstart⟩ := PathSearch.covers_run ht.network ht.limited ht.graph
    hheadBefore hb
  have hsame := hacovers.distance?_eq hcovers ht.network ht.limited ht.graph
    (hview.trans haview.symm) (hstart.trans hastart.symm)
  have hsame' := hbcovers.distance?_eq hcovers' ht.network ht.limited ht.graph
    (hview'.trans hbview.symm) (hstart'.trans hbstart.symm)
  obtain rfl := hacovers.distances_eq hcovers hreached₁ hreached hsame
  rw [closing_congr hsame'] at hfound₁
  cases hfound₁.symm.trans hfound
  exact ⟨_, _, u, u', hreached, hfound, hrun', hdraws, (hdraws.coherent ht).implied, haround,
    (Rephrases.refl t).ruleOutClosing hrun hrun'⟩

end Theory

end TemporalNetwork
