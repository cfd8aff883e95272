/-
How far a search for shortest paths reaches.

On a graph that is grounded, in a network within the limits, a search
never breaks off, and what it finds is in reach of 32 bits. Nodes are
settled in the order of their distances, so that a node which is settled
is not labelled again, and following the edges by which nodes were found
ends at the start.

# Limits

The start is one shared edge away from the origin, and the origin one
from each node. So once the start is settled the origin is labelled, at no
more than the limit allows, and once the origin is settled all nodes are.
No node can be settled further away than that, and the edges that leave a
node add what is less than the rest of the 32 bits.

If the search is stopped early this is said of the nodes that are settled
only: a node may be labelled through an edge that is heavy before it is
labelled through the origin.
-/
import TemporalNetwork.Proofs.ActiveGraph.Grounded
import TemporalNetwork.Proofs.ActiveGraph.ShortestPath

namespace TemporalNetwork

namespace PathSearch

open ActiveGraph (Grounded Sound)

variable {net : Network} {g : ActiveGraph} {sharedOnly : Bool} {s s' : PathSearch}
  {node x : Timepoint} {id : EdgeId} {es ids : List EdgeId} {label : PathLabel}
  {distance : Int} {n : Nat}

-- ============================================================== the nearest

/-- What is chosen is not settled, and no further than what it replaces. -/
theorem choose_spec (best : Option (Timepoint × Int)) (entry : Timepoint × PathLabel)
    (hbest : ∀ b ∈ best, s.settled.contains b.1 = false) :
    (∀ b ∈ nearest?.choose s best entry, s.settled.contains b.1 = false) ∧
      (∀ b ∈ best, ∃ b' ∈ nearest?.choose s best entry, b'.2 ≤ b.2) ∧
      (s.settled.contains entry.1 = false →
        ∃ b' ∈ nearest?.choose s best entry, b'.2 ≤ entry.2.distance) := by
  unfold nearest?.choose
  split
  next hsettled =>
    refine ⟨hbest, fun b hb => ⟨b, hb, Int.le_refl _⟩, fun hopen => ?_⟩
    rw [hsettled] at hopen
    cases hopen
  next hopen =>
    have hentry : s.settled.contains entry.1 = false := Bool.not_eq_true _ ▸ hopen
    split
    next =>
      refine ⟨fun b hb => ?_, fun b hb => absurd hb (Option.not_mem_none b),
        fun _ => ⟨_, rfl, Int.le_refl _⟩⟩
      cases hb
      exact hentry
    next old =>
      split
      next hlt =>
        refine ⟨fun b hb => ?_, fun b hb => ⟨_, rfl, ?_⟩, fun _ => ⟨_, rfl, Int.le_refl _⟩⟩
        · cases hb
          exact hentry
        · cases hb
          exact Int.le_of_lt hlt
      next hnlt =>
        exact ⟨hbest, fun b hb => ⟨b, hb, Int.le_refl _⟩,
          fun _ => ⟨_, rfl, Int.not_lt.mp hnlt⟩⟩

/-- What is chosen is not settled, and no further than the best so far or any
entry that is not settled. -/
theorem foldl_choose_eq_some {entries : List (Timepoint × PathLabel)}
    {best : Option (Timepoint × Int)} (hbest : ∀ b ∈ best, s.settled.contains b.1 = false)
    (h : entries.foldl (nearest?.choose s) best = some (node, distance)) :
    s.settled.contains node = false ∧ (∀ b ∈ best, distance ≤ b.2) ∧
      ∀ entry ∈ entries, s.settled.contains entry.1 = false → distance ≤ entry.2.distance := by
  induction entries generalizing best with
  | nil =>
      rw [List.foldl_nil] at h
      subst h
      refine ⟨hbest _ rfl, fun b hb => ?_, fun entry hentry => absurd hentry List.not_mem_nil⟩
      cases hb
      exact Int.le_refl _
  | cons entry rest ih =>
      rw [List.foldl_cons] at h
      obtain ⟨hopen, hkept, hnew⟩ := choose_spec best entry hbest
      obtain ⟨hnode, hle, hrest⟩ := ih hopen h
      refine ⟨hnode, fun b hb => ?_, fun e he hesettled => ?_⟩
      · obtain ⟨b', hb', hb'le⟩ := hkept b hb
        exact Int.le_trans (hle b' hb') hb'le
      · rcases List.mem_cons.mp he with rfl | he
        · obtain ⟨b', hb', hb'le⟩ := hnew hesettled
          exact Int.le_trans (hle b' hb') hb'le
        · exact hrest e he hesettled

/-- Nothing is chosen only if there was nothing before and all entries are
settled. -/
theorem foldl_choose_eq_none {entries : List (Timepoint × PathLabel)}
    {best : Option (Timepoint × Int)} (h : entries.foldl (nearest?.choose s) best = none) :
    best = none ∧ ∀ entry ∈ entries, s.settled.contains entry.1 = true := by
  induction entries generalizing best with
  | nil => exact ⟨h, fun entry hentry => absurd hentry List.not_mem_nil⟩
  | cons entry rest ih =>
      obtain ⟨hchosen, hrest⟩ := ih h
      have hboth : best = none ∧ s.settled.contains entry.1 = true := by
        unfold nearest?.choose at hchosen
        split at hchosen
        next hsettled => exact ⟨hchosen, hsettled⟩
        next =>
          split at hchosen
          next => cases hchosen
          next =>
            split at hchosen
            next => cases hchosen
            next => cases hchosen
      refine ⟨hboth.1, fun e he => ?_⟩
      rcases List.mem_cons.mp he with rfl | he
      · exact hboth.2
      · exact hrest e he

/-- A node is labelled with the distance and not settled, and no other such
node is nearer. There may be several as near. -/
structure Nearest (s : PathSearch) (node : Timepoint) (distance : Int) : Prop where
  label : ∃ label, s.labels.get? node = some label ∧ label.distance = distance
  unsettled : s.settled.contains node = false
  least (x : Timepoint) (label : PathLabel) : s.labels.get? x = some label →
    s.settled.contains x = false → distance ≤ label.distance

/-- The node that a search settles next is one that is nearest. -/
theorem nearest_of_nearest? (h : s.nearest? = some (node, distance)) :
    Nearest s node distance := by
  obtain ⟨hnode, -, hall⟩ :=
    foldl_choose_eq_some (fun b hb => absurd hb (Option.not_mem_none b)) h
  refine ⟨label_of_nearest? h, hnode, fun x label hx hopen => ?_⟩
  exact hall (x, label) ((HandleMap.mem_toList _ _ _).mpr hx) hopen

/-- If no node is left all that are labelled are settled. -/
theorem nearest?_eq_none (h : s.nearest? = none) (hx : s.labels.get? x = some label) :
    s.settled.contains x = true :=
  (foldl_choose_eq_none h).2 (x, label) ((HandleMap.mem_toList _ _ _).mpr hx)

-- ============================================================= the invariant

/-- The edge by which the node was found. -/
def incoming (s : PathSearch) (x : Timepoint) : Option EdgeId :=
  (s.labels.get? x).bind (·.incoming)

/-- A search that has settled all nodes up to a distance, and none beyond
it. -/
structure Explores (net : Network) (g : ActiveGraph) (sharedOnly : Bool) (s : PathSearch)
    (distance : Int) : Prop extends Accounted net g sharedOnly s where
  origin : s.labels.get? s.start = some ⟨0, none⟩
  node (x : Timepoint) (label : PathLabel) : s.labels.get? x = some label →
    net.hasTimepoint x = true ∧ 0 ≤ label.distance
  settled (x : Timepoint) : s.settled.contains x = true →
    ∃ label, s.labels.get? x = some label ∧ label.distance ≤ distance
  ahead (x : Timepoint) (label : PathLabel) : s.settled.contains x = false →
    s.labels.get? x = some label → distance ≤ label.distance
  behind (x : Timepoint) (id : EdgeId) : s.incoming x = some id →
    s.settled.contains ((net.edge id).tail s.view) = true
  chain (x : Timepoint) (label : PathLabel) : s.labels.get? x = some label →
    ∃ es, net.Chain s.view s.incoming x es s.start

/-- The start was not found through an edge. -/
theorem Explores.incoming_start (h : Explores net g sharedOnly s distance) :
    s.incoming s.start = none := by
  unfold incoming
  rw [h.origin]
  rfl

/-- The search that has just begun has settled nothing, and its one label is
that of the start. -/
theorem explores_initial {d : Direction} {start : Timepoint}
    (hstart : net.hasTimepoint start = true) : Explores net g sharedOnly (initial d start) 0 := by
  have hlabel : ∀ x label, (initial d start).labels.get? x = some label →
      x = start ∧ label = ⟨0, none⟩ := by
    intro x label h
    simp only [initial, HandleMap.get?_insert, HandleMap.get?_empty] at h
    split at h
    next hx =>
      cases h
      exact ⟨(Handle.index_inj.mp hx).symm, rfl⟩
    next => cases h
  have hnone : ∀ x, (initial d start).settled.contains x = false := HandleSet.contains_empty
  refine ⟨accounted_initial d start, ?_, ?_, ?_, ?_, ?_, ?_⟩
  · simp only [initial, HandleMap.get?_insert, if_true]
  · intro x label hx
    obtain ⟨rfl, rfl⟩ := hlabel x label hx
    exact ⟨hstart, Int.le_refl 0⟩
  · intro x hx
    rw [hnone] at hx
    cases hx
  · intro x label _ hx
    obtain ⟨-, rfl⟩ := hlabel x label hx
    exact Int.le_refl 0
  · intro x id hid
    obtain ⟨label, hx, hid⟩ := Option.bind_eq_some_iff.mp hid
    obtain ⟨-, rfl⟩ := hlabel x label hx
    cases hid
  · intro x label hx
    obtain ⟨rfl, -⟩ := hlabel x label hx
    exact ⟨[], .nil _⟩

/-- One node more is settled. -/
theorem contains_insert_settled (s : PathSearch) (node x : Timepoint) :
    (s.settled.insert node).contains x = true ↔ x = node ∨ s.settled.contains x = true := by
  rw [HandleSet.contains_insert, Bool.or_eq_true, decide_eq_true_eq, Handle.index_inj]
  exact or_congr_left eq_comm

/-- A node that is nearest is settled next. -/
theorem Explores.settle (h : Explores net g sharedOnly s distance) {next : Int}
    (hnearest : s.Nearest node next) :
    Explores net g sharedOnly { s with settled := s.settled.insert node } next := by
  obtain ⟨⟨label, hlabel, rfl⟩, hopen, hleast⟩ := hnearest
  have hle := h.ahead node label hopen hlabel
  have hmem := contains_insert_settled s node
  refine ⟨⟨h.first, h.toAccounted.incoming⟩, h.origin, h.node, ?_, ?_, ?_, h.chain⟩
  · intro x hx
    rcases (hmem x).mp hx with rfl | hx
    · exact ⟨label, hlabel, Int.le_refl _⟩
    · obtain ⟨before, hbefore, hbeforele⟩ := h.settled x hx
      exact ⟨before, hbefore, Int.le_trans hbeforele hle⟩
  · intro x other hx hother
    refine hleast x other hother ?_
    by_contra hsettled
    rw [(hmem x).mpr (.inr (Bool.not_eq_false _ ▸ hsettled))] at hx
    cases hx
  · intro x id hid
    exact (hmem _).mpr (.inr (h.behind x id hid))

section
variable {total : Int} (hbetter : (s.labels.get? node).all (total < ·.distance) = true)
include hbetter

/-- A distance that is less takes the place of what was found. -/
theorem get?_labels_of_better (x : Timepoint) : (s.improve node total id).labels.get? x
    = if node = x then some ⟨total, some id⟩ else s.labels.get? x := by
  simp only [get?_labels_improve, hbetter, and_true]

theorem incoming_improve_self : (s.improve node total id).incoming node = some id := by
  unfold PathSearch.incoming
  rw [get?_labels_of_better hbetter, if_pos rfl]
  rfl

theorem incoming_improve_of_ne (hx : x ≠ node) :
    (s.improve node total id).incoming x = s.incoming x := by
  unfold PathSearch.incoming
  rw [get?_labels_of_better hbetter, if_neg hx.symm]

/-- The chains of all other nodes do not pass a node that is not settled. -/
theorem Explores.chain_improve (h : Explores net g sharedOnly s distance)
    (hopen : s.settled.contains node = false) (hx : x ≠ node)
    (hlabel : s.labels.get? x = some label) :
    ∃ es, net.Chain s.view (s.improve node total id).incoming x es s.start := by
  obtain ⟨es, hes⟩ := h.chain x label hlabel
  refine ⟨es, hes.update hx (fun w e he heq => ?_) fun w hw => incoming_improve_of_ne hbetter hw⟩
  have hbehind := h.behind w e he
  rw [heq, hopen] at hbehind
  cases hbehind

end

/-- A node that is not settled is found through one that is. -/
theorem Explores.improve (h : Explores net g sharedOnly s distance) {total : Int}
    (hnode : net.hasTimepoint ((net.edge id).head s.view) = true)
    (hopen : s.settled.contains ((net.edge id).head s.view) = false)
    (htail : s.settled.contains ((net.edge id).tail s.view) = true)
    (haccounted : Accounted net g sharedOnly (s.improve ((net.edge id).head s.view) total id))
    (hpos : 0 ≤ distance) (hle : distance ≤ total) :
    Explores net g sharedOnly (s.improve ((net.edge id).head s.view) total id) distance := by
  by_cases hbetter : (s.labels.get? ((net.edge id).head s.view)).all (total < ·.distance) = true
  swap
  · unfold PathSearch.improve
    rw [if_neg hbetter]
    exact h
  have hlabels : ∀ x, (s.improve ((net.edge id).head s.view) total id).labels.get? x =
      if (net.edge id).head s.view = x then some ⟨total, some id⟩ else s.labels.get? x :=
    get?_labels_of_better hbetter
  have hsettled := settled_improve s ((net.edge id).head s.view) total id
  have hview := view_improve s ((net.edge id).head s.view) total id
  have hstart := start_improve s ((net.edge id).head s.view) total id
  refine ⟨haccounted, ?_, ?_, ?_, ?_, ?_, ?_⟩
  · -- the start stays at 0, as no total is below it
    rw [hstart, hlabels, if_neg]
    · exact h.origin
    · intro heq
      rw [heq, h.origin] at hbetter
      simp only [Option.all_some, decide_eq_true_eq] at hbetter
      omega
  · intro x label hx
    rw [hlabels] at hx
    split at hx
    next heq =>
      cases hx
      rw [← heq]
      exact ⟨hnode, Int.le_trans hpos hle⟩
    next => exact h.node x label hx
  · -- what is settled keeps its label, as the node that changes is not
    intro x hx
    rw [hsettled] at hx
    rw [hlabels, if_neg]
    · exact h.settled x hx
    · rintro rfl
      rw [hopen] at hx
      cases hx
  · intro x label hx hlabel
    rw [hsettled] at hx
    rw [hlabels] at hlabel
    split at hlabel
    next =>
      cases hlabel
      exact hle
    next => exact h.ahead x label hx hlabel
  · -- the node comes from a settled one
    intro x e hx
    rw [hview, hsettled]
    by_cases heq : x = (net.edge id).head s.view
    · rw [heq, incoming_improve_self hbetter] at hx
      cases hx
      exact htail
    · rw [incoming_improve_of_ne hbetter heq] at hx
      exact h.behind x e hx
  · -- and the chain of that one leads it back to the start
    intro x label hx
    rw [hview, hstart]
    by_cases heq : x = (net.edge id).head s.view
    · rw [heq]
      obtain ⟨before, hbefore, -⟩ := h.settled _ htail
      have htailne : (net.edge id).tail s.view ≠ (net.edge id).head s.view := by
        intro hloop
        rw [hloop, hopen] at htail
        cases htail
      obtain ⟨es, hes⟩ := h.chain_improve hbetter hopen htailne hbefore
      exact ⟨id :: es, .cons (incoming_improve_self hbetter) rfl hes⟩
    · rw [hlabels, if_neg fun hhead => heq hhead.symm] at hx
      exact h.chain_improve hbetter hopen heq hx

-- ================================================================ scanning

/-- The edges that leave a node settled at the distance were looked at. -/
structure Scans (net : Network) (g : ActiveGraph) (sharedOnly : Bool) (s s' : PathSearch)
    (distance : Int) (ids : List EdgeId) : Prop where
  explores : Explores net g sharedOnly s' distance
  continues : Continues net g sharedOnly s s'
  settled : s'.settled = s.settled
  kept (x : Timepoint) : s.settled.contains x = true → s'.labels.get? x = s.labels.get? x
  found (id : EdgeId) : id ∈ ids → (sharedOnly = true → (net.edge id).isShared = true) →
    ∃ label, s'.labels.get? ((net.edge id).head s.view) = some label ∧
      label.distance ≤ distance + reduced net g s.view id

/-- A node that was looked at has a label that is no worse. -/
theorem exists_label_improve (s : PathSearch) (node : Timepoint) (distance : Int)
    (via : EdgeId) : ∃ label, (s.improve node distance via).labels.get? node = some label ∧
      label.distance ≤ distance := by
  rw [get?_labels_improve]
  split
  next => exact ⟨_, rfl, Int.le_refl _⟩
  next hkept =>
    cases hold : s.labels.get? node with
    | none =>
        rw [hold] at hkept
        exact absurd ⟨rfl, rfl⟩ hkept
    | some old =>
        rw [hold] at hkept
        refine ⟨old, rfl, Int.not_lt.mp fun hlt => hkept ⟨rfl, ?_⟩⟩
        exact decide_eq_true hlt

/-- No edge in force leads closer to the start than the node it leaves. -/
theorem reduced_nonneg (hg : g.Grounded net) {d : Direction} (hactive : g.isActive id = true)
    (hin : (net.edge id).isIn d = true) : 0 ≤ reduced net g d id := by
  have hrespected := hg.respected d id hactive hin
  unfold reduced
  omega

section
variable (hnet : net.WellFormed) (hlimited : net.Limited) (hg : g.Grounded net)
include hnet hlimited hg

/-- Following an edge up: none of the three sums leaves its 32 bits. -/
theorem scanEdge_eq_improve (hactive : g.isActive id = true)
    (hin : (net.edge id).isIn s.view = true)
    (hskip : ¬ (sharedOnly && !(net.edge id).isShared) = true)
    (hdone : ¬ (s.labels.get? ((net.edge id).head s.view)).any (·.distance ≤ distance) = true)
    (hpos : 0 ≤ distance) (hle : distance ≤ 4 * maxMagnitude) :
    scanEdge net g sharedOnly ((net.edge id).tail s.view) distance s id
      = .ok (s.improve ((net.edge id).head s.view) (distance + reduced net g s.view id) id) := by
  have hedge := hg.hasEdge hactive
  have hweight := hlimited id hedge
  have htail := hg.value_mem hlimited s.view (hnet.tail hedge s.view)
  have hhead := hg.value_mem hlimited s.view (hnet.head hedge s.view)
  have hreduced := reduced_nonneg hg hactive hin
  have hsum : (net.edge id).weight + g.value s.view ((net.edge id).tail s.view)
      - g.value s.view ((net.edge id).head s.view) = reduced net g s.view id := rfl
  have hfits₁ : FitsInt32 ((net.edge id).weight
      + g.value s.view ((net.edge id).tail s.view)) := by
    apply fitsInt32_of_limits
    · omega
    · omega
  have hfits₂ : FitsInt32 (reduced net g s.view id) := by
    unfold reduced
    apply fitsInt32_of_limits
    · omega
    · omega
  have hfits₃ : FitsInt32 (distance + reduced net g s.view id) := by
    unfold reduced at *
    apply fitsInt32_of_limits
    · omega
    · omega
  unfold scanEdge
  simp only [hskip, hdone, int32_of hfits₁, hsum, int32_of hfits₂, hreduced, int32_of hfits₃,
    Checked.require_of, if_false, Bool.false_eq_true, Checked.bind_eq_ok, Except.ok.injEq,
    exists_eq_left', Checked.pure_eq_ok, exists_const, and_self]

/-- Looking at an edge that leaves a node within reach. -/
theorem Explores.exists_scanEdge (h : Explores net g sharedOnly s distance)
    (hactive : g.isActive id = true) (hin : (net.edge id).isIn s.view = true)
    (hlabel : s.labels.get? ((net.edge id).tail s.view) = some label)
    (hdistance : label.distance ≤ distance)
    (hsettled : s.settled.contains ((net.edge id).tail s.view) = true)
    (hle : distance ≤ 4 * maxMagnitude) :
    ∃ s', scanEdge net g sharedOnly ((net.edge id).tail s.view) distance s id = .ok s' ∧
      Scans net g sharedOnly s s' distance [id] := by
  have hhead := hnet.head (hg.hasEdge hactive) s.view
  have hreduced := reduced_nonneg hg hactive hin
  have hpos : 0 ≤ distance := Int.le_trans (h.node _ label hlabel).2 hdistance
  by_cases hskip : (sharedOnly && !(net.edge id).isShared) = true
  · refine ⟨s, ?_, h, .refl h.toAccounted, rfl, fun _ _ => rfl, fun i hi hshared => ?_⟩
    · unfold scanEdge
      simp only [hskip, if_true]
    · rw [List.mem_singleton.mp hi] at hshared
      obtain ⟨honly, hdirected⟩ := Bool.and_eq_true_iff.mp hskip
      rw [hshared honly] at hdirected
      cases hdirected
  by_cases hdone : (s.labels.get? ((net.edge id).head s.view)).any (·.distance ≤ distance) = true
  · refine ⟨s, ?_, h, .refl h.toAccounted, rfl, fun _ _ => rfl, fun i hi _ => ?_⟩
    · unfold scanEdge
      simp only [hskip, hdone, if_true, if_false, Bool.false_eq_true]
    · rw [List.mem_singleton.mp hi]
      cases hold : s.labels.get? ((net.edge id).head s.view) with
      | none =>
          rw [hold] at hdone
          cases hdone
      | some old =>
          rw [hold] at hdone
          have holdle : old.distance ≤ distance := of_decide_eq_true hdone
          exact ⟨old, rfl, by omega⟩
  have hrun := scanEdge_eq_improve hnet hlimited hg hactive hin hskip hdone hpos hle
  have hcontinues := h.toAccounted.scanEdge hactive hin hlabel hdistance hrun
  -- what is settled is no further away than the node, and is skipped
  have hopen : s.settled.contains ((net.edge id).head s.view) = false := by
    by_contra hnot
    obtain ⟨old, hold, holdle⟩ := h.settled _ (Bool.not_eq_false _ ▸ hnot)
    rw [hold] at hdone
    exact hdone (decide_eq_true holdle)
  refine ⟨_, hrun, h.improve hhead hopen hsettled hcontinues.accounted hpos (by omega),
    hcontinues, settled_improve _ _ _ _, fun x hx => ?_, fun i hi _ => ?_⟩
  · rw [get?_labels_improve, if_neg]
    rintro ⟨rfl, -⟩
    rw [hopen] at hx
    cases hx
  · rw [List.mem_singleton.mp hi]
    exact exists_label_improve s _ _ id

/-- All edges that leave a node within reach, looked at in turn. -/
theorem Explores.exists_scanEdges (h : Explores net g sharedOnly s distance)
    (hids : ∀ id ∈ ids, g.isActive id = true ∧ (net.edge id).isIn s.view = true ∧
      (net.edge id).tail s.view = node)
    (hlabel : s.labels.get? node = some label) (hdistance : label.distance ≤ distance)
    (hsettled : s.settled.contains node = true) (hle : distance ≤ 4 * maxMagnitude) :
    ∃ s', scanEdges net g sharedOnly node distance s ids = .ok s' ∧
      Scans net g sharedOnly s s' distance ids := by
  induction ids generalizing s label with
  | nil =>
      exact ⟨s, rfl, h, .refl h.toAccounted, rfl, fun _ _ => rfl,
        fun i hi => absurd hi List.not_mem_nil⟩
  | cons id rest ih =>
      obtain ⟨hactive, hin, htail⟩ := hids id List.mem_cons_self
      obtain ⟨s₁, hscan, hscans⟩ := h.exists_scanEdge hnet hlimited hg hactive hin
        (by rw [htail]; exact hlabel) hdistance (by rw [htail]; exact hsettled) hle
      rw [htail] at hscan
      have hview := hscans.continues.view
      have hsettled₁ : s₁.settled.contains node = true := hscans.settled ▸ hsettled
      obtain ⟨after, hafter, hafterle⟩ := hscans.continues.improved node label hlabel
      obtain ⟨s', hrest, hscans'⟩ := ih hscans.explores
        (fun i hi => by rw [hview]; exact hids i (List.mem_cons_of_mem id hi)) hafter
        (Int.le_trans hafterle hdistance) hsettled₁
      refine ⟨s', ?_, hscans'.explores, hscans.continues.trans hscans'.continues,
        hscans'.settled.trans hscans.settled, fun x hx => ?_, fun i hi hshared => ?_⟩
      · unfold scanEdges
        simp only [hscan, Checked.bind_eq_ok, Except.ok.injEq, exists_eq_left']
        exact hrest
      · rw [hscans'.kept x (hscans.settled ▸ hx), hscans.kept x hx]
      · rcases List.mem_cons.mp hi with rfl | hi
        · obtain ⟨found, hfound, hfoundle⟩ := hscans.found i (List.mem_singleton.mpr rfl) hshared
          obtain ⟨better, hbetter, hbetterle⟩ := hscans'.continues.improved _ found hfound
          exact ⟨better, hbetter, Int.le_trans hbetterle hfoundle⟩
        · have hfound := hscans'.found i hi hshared
          rwa [hview] at hfound

end

-- =============================================================== the search

/-- How far nodes can be from the start, from what is settled already. -/
structure Within (net : Network) (g : ActiveGraph) (s : PathSearch) : Prop where
  first : s.settled.contains s.start = false → ∀ x label, s.labels.get? x = some label →
    x = s.start
  near : s.settled.contains s.start = true → ∃ label, s.labels.get? .origin = some label ∧
    label.distance ≤ maxMagnitude + g.value s.view s.start
  far : s.settled.contains .origin = true → ∀ x, net.hasTimepoint x = true →
    ∃ label, s.labels.get? x = some label ∧
      label.distance ≤ 2 * maxMagnitude + g.value s.view s.start - g.value s.view x

/-- No node is settled yet. -/
theorem within_initial (d : Direction) (start : Timepoint) :
    Within net g (initial d start) := by
  have hnone : ∀ x, (initial d start).settled.contains x = false := HandleSet.contains_empty
  refine ⟨fun _ x label hx => ?_, fun hstart => ?_, fun horigin => ?_⟩
  · simp only [initial, HandleMap.get?_insert, HandleMap.get?_empty] at hx
    split at hx
    next heq => exact (Handle.index_inj.mp heq).symm
    next => cases hx
  · rw [hnone] at hstart
    cases hstart
  · rw [hnone] at horigin
    cases horigin

section
variable (hlimited : net.Limited) (hg : g.Grounded net)
  (hstart : net.hasTimepoint s.start = true)
include hlimited hg hstart

/-- No node is settled too far away. -/
theorem Within.distance_le (h : Within net g s) (hexplores : Explores net g sharedOnly s distance)
    {next : Int} (hnearest : s.Nearest node next) : next ≤ 4 * maxMagnitude := by
  obtain ⟨⟨label, hlabel, rfl⟩, hopen, hleast⟩ := hnearest
  have hstartValue := hg.value_mem hlimited s.view hstart
  have hnodeValue := hg.value_mem hlimited s.view (hexplores.node node label hlabel).1
  by_cases hfirst : s.settled.contains s.start = true
  · obtain ⟨there, hthere, htherele⟩ := h.near hfirst
    by_cases horigin : s.settled.contains .origin = true
    · obtain ⟨same, hsame, hsamele⟩ := h.far horigin node (hexplores.node node label hlabel).1
      rw [hlabel] at hsame
      cases hsame
      omega
    · have := hleast .origin there hthere (Bool.not_eq_true _ ▸ horigin)
      unfold maxMagnitude at *
      omega
  · obtain rfl := h.first (Bool.not_eq_true _ ▸ hfirst) node label hlabel
    rw [hexplores.origin] at hlabel
    cases hlabel
    decide

/-- When the edges of the start have been looked at the origin is labelled. -/
theorem Within.near_of_scans (h : Within net g s)
    (hexplores : Explores net g sharedOnly s distance)
    (hlabel : s.labels.get? node = some label)
    (hscans : Scans net g sharedOnly { s with settled := s.settled.insert node } s'
      label.distance (g.out s.view node)) :
    ∃ there, s'.labels.get? .origin = some there ∧
      there.distance ≤ maxMagnitude + g.value s.view s.start := by
  have himproved := hscans.continues.improved
  by_cases hfirst : s.settled.contains s.start = true
  · obtain ⟨there, hthere, htherele⟩ := h.near hfirst
    obtain ⟨after, hafter, hafterle⟩ := himproved .origin there hthere
    exact ⟨after, hafter, Int.le_trans hafterle htherele⟩
  · obtain rfl := h.first (Bool.not_eq_true _ ▸ hfirst) node label hlabel
    have hzero := hexplores.origin
    rw [hlabel] at hzero
    cases hzero
    by_cases horigin : s.start = .origin
    · obtain ⟨after, hafter, hafterle⟩ := himproved s.start _ hlabel
      refine ⟨after, horigin ▸ hafter, Int.le_trans hafterle ?_⟩
      rw [horigin, hg.origin]
      decide
    · obtain ⟨id, rest, hout, hshared, hhead⟩ := hg.toOrigin s.view s.start hstart horigin
      have hid : id ∈ g.out s.view s.start := by
        rw [hout]
        exact List.mem_cons_self
      obtain ⟨hactive, -, htail⟩ := (hg.mem_out s.view s.start id).mp hid
      obtain ⟨there, hthere, htherele⟩ := hscans.found id hid fun _ => hshared
      have hweight := hlimited id (hg.hasEdge hactive)
      simp only [reduced, hhead, htail, hg.origin] at hthere htherele
      exact ⟨there, hthere, by omega⟩

omit hlimited hstart in
/-- The origin is settled within the limit of the start. -/
theorem Within.origin_le (h : Within net g s)
    (hexplores : Explores net g sharedOnly s distance)
    (hlabel : s.labels.get? .origin = some label) :
    label.distance ≤ maxMagnitude + g.value s.view s.start := by
  by_cases hfirst : s.settled.contains s.start = true
  · obtain ⟨there, hthere, htherele⟩ := h.near hfirst
    rw [hlabel] at hthere
    cases hthere
    exact htherele
  · have hsame := h.first (Bool.not_eq_true _ ▸ hfirst) .origin label hlabel
    have hzero := hexplores.origin
    rw [← hsame, hlabel] at hzero
    cases hzero
    rw [← hsame, hg.origin]
    decide

/-- When the edges of the origin have been looked at all is labelled. -/
theorem Within.far_of_scans (h : Within net g s)
    (hexplores : Explores net g sharedOnly s distance)
    (hlabel : s.labels.get? .origin = some label)
    (hscans : Scans net g sharedOnly { s with settled := s.settled.insert .origin } s'
      label.distance (g.out s.view .origin)) (hx : net.hasTimepoint x = true) :
    ∃ there, s'.labels.get? x = some there ∧
      there.distance ≤ 2 * maxMagnitude + g.value s.view s.start - g.value s.view x := by
  have hnext := h.origin_le hg hexplores hlabel
  by_cases hxorigin : x = .origin
  · obtain ⟨there, hthere, htherele⟩ := h.near_of_scans hlimited hg hstart hexplores hlabel hscans
    refine ⟨there, hxorigin ▸ hthere, ?_⟩
    rw [hxorigin, hg.origin]
    unfold maxMagnitude at *
    omega
  · obtain ⟨id, hactive, hshared, htail, hhead, -⟩ := hg.fromOrigin s.view x hx hxorigin
    have hid : id ∈ g.out s.view .origin :=
      (hg.mem_out s.view .origin id).mpr
        ⟨hactive, Edge.isIn_of_isShared hshared s.view, htail⟩
    obtain ⟨there, hthere, htherele⟩ := hscans.found id hid fun _ => hshared
    have hweight := hlimited id (hg.hasEdge hactive)
    simp only [reduced, hhead, htail, hg.origin] at hthere htherele
    exact ⟨there, hthere, by omega⟩

/-- After the edges of a node were looked at the limits hold again. -/
theorem Within.scans (h : Within net g s) (hexplores : Explores net g sharedOnly s distance)
    {next : Int} (hnearest : s.Nearest node next)
    (hscans : Scans net g sharedOnly { s with settled := s.settled.insert node } s' next
      (g.out s.view node)) : Within net g s' := by
  obtain ⟨label, hlabel, rfl⟩ := hnearest.label
  have hmem : ∀ x, s'.settled.contains x = true ↔ x = node ∨ s.settled.contains x = true := by
    intro x
    rw [hscans.settled]
    exact contains_insert_settled s node x
  have hview : s'.view = s.view := hscans.continues.view
  have hstart' : s'.start = s.start := hscans.continues.start
  refine ⟨fun hfirst => ?_, fun _ => ?_, fun horigin x hx => ?_⟩
  · -- the start is settled first
    have hbegun : s'.settled.contains s.start = true := by
      rw [hmem]
      by_cases hbefore : s.settled.contains s.start = true
      · exact .inr hbefore
      · exact .inl (h.first (Bool.not_eq_true _ ▸ hbefore) node label hlabel).symm
    rw [hstart', hbegun] at hfirst
    cases hfirst
  · rw [hview, hstart']
    exact h.near_of_scans hlimited hg hstart hexplores hlabel hscans
  · rw [hview, hstart']
    by_cases hbefore : s.settled.contains .origin = true
    · obtain ⟨there, hthere, htherele⟩ := h.far hbefore x hx
      obtain ⟨after, hafter, hafterle⟩ := hscans.continues.improved x there hthere
      exact ⟨after, hafter, Int.le_trans hafterle htherele⟩
    · obtain rfl := ((hmem .origin).mp horigin).resolve_right hbefore
      exact h.far_of_scans hlimited hg hstart hexplores hlabel hscans hx

end

/-- Where a node is settled the edges that leave it have been looked at: no
label can be improved through one of them. -/
def Tight (net : Network) (g : ActiveGraph) (sharedOnly : Bool) (s : PathSearch) : Prop :=
  ∀ id label, s.settled.contains ((net.edge id).tail s.view) = true →
    Usable net g sharedOnly s.view id → s.labels.get? ((net.edge id).tail s.view) = some label →
      ∃ after, s.labels.get? ((net.edge id).head s.view) = some after ∧
        after.distance ≤ label.distance + reduced net g s.view id

/-- Nor is there an edge that leaves a settled node. -/
theorem tight_initial (d : Direction) (start : Timepoint) :
    Tight net g sharedOnly (initial d start) := by
  intro id label htail
  rw [show (initial d start).settled.contains _ = false from HandleSet.contains_empty _] at htail
  cases htail

/-- After the edges of the node that is settled were looked at. -/
theorem Tight.scans (h : Tight net g sharedOnly s) (hg : g.Shaped net)
    (hlabel : s.labels.get? node = some label)
    (hscans : Scans net g sharedOnly { s with settled := s.settled.insert node } s'
      label.distance (g.out s.view node)) : Tight net g sharedOnly s' := by
  have hview : s'.view = s.view := hscans.continues.view
  have hmem := contains_insert_settled s node
  intro id before hsettled husable hbefore
  rw [hscans.settled] at hsettled
  rw [hview] at hsettled husable hbefore ⊢
  -- the label with which the tail was settled is the one it has now
  rw [hscans.kept _ hsettled] at hbefore
  rcases (hmem _).mp hsettled with htail | hold
  · obtain ⟨hactive, hin, hshared⟩ := husable
    have hout : id ∈ g.out s.view node := (hg.mem_out s.view node id).mpr ⟨hactive, hin, htail⟩
    have hsame : before = label := by
      rw [htail] at hbefore
      exact Option.some.inj (hbefore.symm.trans hlabel)
    rw [hsame]
    exact hscans.found id hout hshared
  · obtain ⟨after, hafter, hafterle⟩ := h id before hold husable hbefore
    obtain ⟨better, hbetter, hbetterle⟩ := hscans.continues.improved _ after hafter
    exact ⟨better, hbetter, Int.le_trans hbetterle hafterle⟩

/-- A search that was stopped where a node was settled. The edges that leave
it, and nodes as far away, may not have been looked at. -/
structure Halts (net : Network) (g : ActiveGraph) (sharedOnly : Bool) (s : PathSearch)
    (goal : Timepoint) (distance : Int) : Prop extends Explores net g sharedOnly s distance where
  stopped : s.settled.contains goal = true
  near : distance ≤ 4 * maxMagnitude
  tight (id : EdgeId) (label : PathLabel) : s.settled.contains ((net.edge id).tail s.view) = true →
    Usable net g sharedOnly s.view id → s.labels.get? ((net.edge id).tail s.view) = some label →
      label.distance < distance → ∃ after, s.labels.get? ((net.edge id).head s.view) = some after ∧
        after.distance ≤ label.distance + reduced net g s.view id

/-- A node that is nearest is settled, and the search stopped there. -/
theorem Explores.halts (h : Explores net g sharedOnly s distance)
    (htight : Tight net g sharedOnly s) {next : Int}
    (hnearest : s.Nearest node next) (hnear : next ≤ 4 * maxMagnitude) :
    Halts net g sharedOnly { s with settled := s.settled.insert node } node next := by
  have hmem := contains_insert_settled s node
  refine ⟨h.settle hnearest, (hmem node).mpr (.inl rfl), hnear,
    fun id before hsettled husable hbefore hlt => ?_⟩
  rcases (hmem _).mp hsettled with htail | hold
  · -- the label of the node itself is no less
    obtain ⟨label, hlabel, rfl⟩ := hnearest.label
    rw [htail] at hbefore
    cases hlabel.symm.trans hbefore
    exact absurd hlt (Int.lt_irrefl _)
  · exact htight id before hold husable hbefore

/-- What the node is labelled with is within reach. -/
theorem Halts.exists_label (h : Halts net g sharedOnly s node distance) :
    ∃ label, s.labels.get? node = some label ∧ net.hasTimepoint node = true ∧
      0 ≤ label.distance ∧ label.distance ≤ 4 * maxMagnitude := by
  obtain ⟨label, hlabel, hle⟩ := h.settled node h.stopped
  obtain ⟨hnode, hpos⟩ := h.node node label hlabel
  exact ⟨label, hlabel, hnode, hpos, Int.le_trans hle h.near⟩

/-- The timepoints that are still to be settled. -/
def unsettled (net : Network) (s : PathSearch) : List Timepoint :=
  net.timepoints.filter fun x => !s.settled.contains x

/-- The nodes that are left are the timepoints that were not settled. -/
theorem mem_unsettled : x ∈ unsettled net s ↔
    net.hasTimepoint x = true ∧ s.settled.contains x = false := by
  unfold unsettled
  rw [List.mem_filter, Network.mem_timepoints, Bool.not_eq_true']

/-- Settling a node takes it off that list. -/
theorem unsettled_eq_erase (hsettled : s'.settled = s.settled.insert node) :
    unsettled net s' = (unsettled net s).erase node := by
  have hnodup : net.timepoints.Nodup :=
    net.domains.pairwise_keys.imp fun hlt heq => Nat.ne_of_lt hlt (congrArg Handle.index heq)
  unfold unsettled
  rw [(hnodup.filter _).erase_eq_filter, hsettled, List.filter_filter]
  refine List.filter_congr fun x _ => ?_
  rw [HandleSet.contains_insert, Bool.not_or, Bool.eq_iff_iff]
  simp only [Bool.and_eq_true, Bool.not_eq_true', decide_eq_false_iff_not, Handle.index_inj,
    bne_iff_ne, ne_comm]

/-- So the list becomes shorter with each node that is settled. -/
theorem length_unsettled_lt (hnode : net.hasTimepoint node = true)
    (hopen : s.settled.contains node = false) (hsettled : s'.settled = s.settled.insert node) :
    (unsettled net s').length < (unsettled net s).length := by
  have hmem := mem_unsettled.mpr ⟨hnode, hopen⟩
  rw [unsettled_eq_erase hsettled, List.length_erase_of_mem hmem]
  exact Nat.sub_lt (List.length_pos_of_mem hmem) Nat.one_pos

section
variable (hnet : net.WellFormed) (hlimited : net.Limited) (hg : g.Grounded net)
  (hstart : net.hasTimepoint s.start = true)
include hnet hlimited hg hstart

/-- A node that is nearest is settled, and the edges that leave it are
looked at. -/
theorem Explores.exists_scanNearest (h : Explores net g sharedOnly s distance)
    (hwithin : Within net g s) (htight : Tight net g sharedOnly s) {next : Int}
    (hnearest : s.Nearest node next) :
    ∃ s', scanEdges net g sharedOnly node next { s with settled := s.settled.insert node }
        (g.out s.view node) = .ok s' ∧
      Scans net g sharedOnly { s with settled := s.settled.insert node } s' next
        (g.out s.view node) ∧
      Within net g s' ∧ Tight net g sharedOnly s' := by
  obtain ⟨label, hlabel, rfl⟩ := hnearest.label
  have hids : ∀ id ∈ g.out s.view node, g.isActive id = true ∧
      (net.edge id).isIn s.view = true ∧ (net.edge id).tail s.view = node :=
    fun id hid => (hg.mem_out s.view node id).mp hid
  have hinsert := (contains_insert_settled s node node).mpr (.inl rfl)
  obtain ⟨s', hscan, hscans⟩ := (h.settle hnearest).exists_scanEdges hnet hlimited hg hids
    hlabel (Int.le_refl _) hinsert (hwithin.distance_le hlimited hg hstart h hnearest)
  exact ⟨s', hscan, hscans, hwithin.scans hlimited hg hstart h hnearest hscans,
    htight.scans hg.toShaped hlabel hscans⟩

/-- Each node is settled once, until the node at which the search is to
stop is settled, or none is left. -/
theorem Explores.exists_settle (h : Explores net g sharedOnly s distance)
    (hwithin : Within net g s) (htight : Tight net g sharedOnly s) (stop : Option Timepoint)
    (n : Nat) :
    ∃ s' last, PathSearch.settle net g sharedOnly stop n s = .ok s' ∧
      Explores net g sharedOnly s' last ∧
      ((∃ node, stop = some node ∧ Halts net g sharedOnly s' node last) ∨
        Within net g s' ∧ Tight net g sharedOnly s' ∧ ((unsettled net s).length ≤ n →
          ∀ x label, s'.labels.get? x = some label → s'.settled.contains x = true)) := by
  induction n generalizing s distance with
  | zero =>
      refine ⟨s, distance, rfl, h, .inr ⟨hwithin, htight, fun hn x label hx => ?_⟩⟩
      by_contra hopen
      have hmem : x ∈ unsettled net s :=
        mem_unsettled.mpr ⟨(h.node x label hx).1, Bool.not_eq_true _ ▸ hopen⟩
      exact absurd (List.length_pos_of_mem hmem) (Nat.not_lt.mpr hn)
  | succ n ih =>
      unfold PathSearch.settle
      cases hnearest : s.nearest? with
      | none =>
          exact ⟨s, distance, rfl, h,
            .inr ⟨hwithin, htight, fun _ x label hx => nearest?_eq_none hnearest hx⟩⟩
      | some best =>
          obtain ⟨node, next⟩ := best
          have hnext := nearest_of_nearest? hnearest
          by_cases hstop : stop = some node
          · -- the node to stop at is the nearest one
            have hnear := hwithin.distance_le hlimited hg hstart h hnext
            exact ⟨{ s with settled := s.settled.insert node }, next, if_pos hstop,
              h.settle hnext, .inl ⟨node, hstop, h.halts htight hnext hnear⟩⟩
          · -- one node fewer is left to be settled
            obtain ⟨s₁, hscan, hscans, hwithin₁, htight₁⟩ :=
              h.exists_scanNearest hnet hlimited hg hstart hwithin htight hnext
            obtain ⟨label, hlabel, -⟩ := hnext.label
            have hfewer := length_unsettled_lt (h.node node label hlabel).1 hnext.unsettled
              hscans.settled
            obtain ⟨s', last, hrest, hexplores, hend⟩ :=
              ih (hscans.continues.start.symm ▸ hstart) hscans.explores hwithin₁ htight₁
            refine ⟨s', last, ?_, hexplores, ?_⟩
            · simp only [hstop, if_false, hscan, Checked.bind_eq_ok, Except.ok.injEq,
                exists_eq_left']
              exact hrest
            · rcases hend with hstopped | ⟨hwithin', htight', hall⟩
              · exact .inl hstopped
              · exact .inr ⟨hwithin', htight', fun hn => hall (by omega)⟩

end

-- ================================================================= answers

/-- What a search has found: all nodes, no further away than twice the
limit, each with a path, and no label that an edge could improve. -/
structure Covers (net : Network) (g : ActiveGraph) (sharedOnly : Bool) (s : PathSearch) :
    Prop extends Accounted net g sharedOnly s where
  loose : s.incoming s.start = none
  node : net.hasTimepoint s.start = true
  label (x : Timepoint) (label : PathLabel) : s.labels.get? x = some label →
    net.hasTimepoint x = true ∧ 0 ≤ label.distance ∧
      label.distance ≤ 2 * maxMagnitude + g.value s.view s.start - g.value s.view x
  chain (x : Timepoint) (label : PathLabel) : s.labels.get? x = some label →
    ∃ es, net.Chain s.view s.incoming x es s.start
  reached (x : Timepoint) : net.hasTimepoint x = true → ∃ label, s.labels.get? x = some label
  tight (id : EdgeId) (label : PathLabel) : Usable net g sharedOnly s.view id →
    s.labels.get? ((net.edge id).tail s.view) = some label →
      ∃ after, s.labels.get? ((net.edge id).head s.view) = some after ∧
        after.distance ≤ label.distance + reduced net g s.view id

/-- A search that has settled all that it labelled. -/
theorem Explores.covers (h : Explores net g sharedOnly s distance) (hwithin : Within net g s)
    (htight : Tight net g sharedOnly s)
    (hall : ∀ x label, s.labels.get? x = some label → s.settled.contains x = true) :
    Covers net g sharedOnly s := by
  obtain ⟨origin, horigin, -⟩ := hwithin.near (hall _ _ h.origin)
  have hfar := hwithin.far (hall _ _ horigin)
  refine ⟨h.toAccounted, h.incoming_start, (h.node _ _ h.origin).1, fun x label hx => ?_, h.chain,
    fun x hx => ?_, fun id label husable hlabel => htight id label (hall _ _ hlabel) husable hlabel⟩
  · obtain ⟨hnode, hpos⟩ := h.node x label hx
    obtain ⟨same, hsame, hle⟩ := hfar x hnode
    rw [hx] at hsame
    cases hsame
    exact ⟨hnode, hpos, hle⟩
  · obtain ⟨label, hlabel, -⟩ := hfar x hx
    exact ⟨label, hlabel⟩

/-- A search may settle as many nodes as there are. -/
theorem length_unsettled_le (hg : g.Grounded net) (s : PathSearch) :
    (unsettled net s).length ≤ g.numNodes := by
  have hnodes : g.numNodes = net.numTimepoints := hg.sizePotentials .forward
  rw [hnodes, ← Network.length_timepoints]
  exact List.length_filter_le _ _

/-- A search ends, either at the node where it is to stop or with all nodes
settled. -/
theorem exists_run_until (hnet : net.WellFormed) (hlimited : net.Limited) (hg : g.Grounded net)
    (d : Direction) {start : Timepoint} (hstart : net.hasTimepoint start = true)
    (sharedOnly : Bool) (stop : Option Timepoint) :
    ∃ s, run net g d start sharedOnly stop = .ok s ∧ s.view = d ∧ s.start = start ∧
      (Covers net g sharedOnly s ∨
        ∃ node last, stop = some node ∧ Halts net g sharedOnly s node last) := by
  obtain ⟨s, last, hrun, hexplores, hend⟩ :=
    (explores_initial hstart).exists_settle hnet hlimited hg hstart (within_initial d start)
      (tight_initial d start) stop g.numNodes
  obtain ⟨-, hview, hsame⟩ := accounted_run hg.toShaped hrun
  refine ⟨s, hrun, hview, hsame, ?_⟩
  rcases hend with ⟨node, hstop, hhalts⟩ | ⟨hwithin, htight, hall⟩
  · exact .inr ⟨node, last, hstop, hhalts⟩
  · exact .inl (hexplores.covers hwithin htight (hall (length_unsettled_le hg _)))

/-- A search that is not stopped settles all nodes. -/
theorem exists_run (hnet : net.WellFormed) (hlimited : net.Limited) (hg : g.Grounded net)
    (d : Direction) {start : Timepoint} (hstart : net.hasTimepoint start = true)
    (sharedOnly : Bool) :
    ∃ s, run net g d start sharedOnly none = .ok s ∧ Covers net g sharedOnly s ∧ s.view = d ∧
      s.start = start := by
  obtain ⟨s, hrun, hview, hsame, hend⟩ :=
    exists_run_until hnet hlimited hg d hstart sharedOnly none
  have hcovers := hend.resolve_right fun ⟨_, _, hstop, _⟩ => nomatch hstop
  exact ⟨s, hrun, hcovers, hview, hsame⟩

/-- A search that is not stopped has settled what it has labelled. -/
theorem settled_of_run (hnet : net.WellFormed) (hlimited : net.Limited) (hg : g.Grounded net)
    {d : Direction} {start : Timepoint} (hstart : net.hasTimepoint start = true)
    (hrun : run net g d start sharedOnly none = .ok s) (hx : s.labels.get? x = some label) :
    s.settled.contains x = true := by
  obtain ⟨found, last, hfound, -, hend⟩ :=
    (explores_initial hstart).exists_settle hnet hlimited hg hstart (within_initial d start)
      (tight_initial d start) none g.numNodes
  cases hfound.symm.trans hrun
  obtain ⟨-, -, hall⟩ := hend.resolve_left fun ⟨_, hstop, _⟩ => nomatch hstop
  exact hall (length_unsettled_le hg _) x label hx

/-- Nodes are settled in the order of their distances, at whatever node
the search is to stop: what is settled next is no nearer than what has
been settled. -/
theorem le_of_nearest? (hnet : net.WellFormed) (hlimited : net.Limited) (hg : g.Grounded net)
    {d : Direction} {start : Timepoint} (hstart : net.hasTimepoint start = true)
    {stop : Option Timepoint}
    (hrun : PathSearch.settle net g sharedOnly stop n (initial d start) = .ok s)
    (hnearest : s.nearest? = some (node, distance)) (hx : s.settled.contains x = true) :
    ∃ label, s.labels.get? x = some label ∧ label.distance ≤ distance := by
  obtain ⟨found, last, hfound, hexplores, -⟩ :=
    (explores_initial hstart).exists_settle hnet hlimited hg hstart (within_initial d start)
      (tight_initial d start) stop n
  cases hfound.symm.trans hrun
  exact (hexplores.settle (nearest_of_nearest? hnearest)).settled x
    ((contains_insert_settled s node x).mpr (.inr hx))

/-- A chain that ends is what is collected. -/
theorem pathFrom_eq {y : Timepoint} (h : net.Chain s.view s.incoming x es y)
    (hy : s.incoming y = none) (hn : es.length ≤ n) : pathFrom net s n x = .ok es := by
  induction h generalizing n with
  | nil x =>
      unfold incoming at hy
      unfold pathFrom
      rw [hy]
  | @cons x y e es step head rest ih =>
      cases n with
      | zero => cases hn
      | succ n =>
          unfold incoming at step
          unfold pathFrom
          simp only [step, ih hy (Nat.le_of_succ_le_succ hn), Checked.bind_eq_ok,
            Except.ok.injEq, exists_eq_left', Checked.pure_eq_ok]

/-- The chain of edges by which nodes were found is the path that is given. -/
theorem Accounted.pathTo_eq (h : Accounted net g sharedOnly s) (hnet : net.WellFormed)
    (hg : g.Grounded net) (hstart : net.hasTimepoint s.start = true)
    (hloose : s.incoming s.start = none)
    (hchain : net.Chain s.view s.incoming x es s.start) : s.pathTo net g x = .ok es := by
  have hedges : ∀ id ∈ es, net.hasEdge id = true := by
    intro id hid
    obtain ⟨after, hafter, hincoming⟩ := Option.bind_eq_some_iff.mp (hchain.next_head hid)
    exact hg.hasEdge (h.incoming _ after id hafter hincoming).1.1
  have hlength := hchain.length_lt hloose hnet hedges hstart
  have hnodes : g.numNodes = net.numTimepoints := hg.sizePotentials .forward
  exact pathFrom_eq hchain hloose (by omega)

/-- The distance that a label stands for is given, if the label is within
reach. -/
theorem distance?_eq (hlimited : net.Limited) (hg : g.Grounded net)
    (hstart : net.hasTimepoint s.start = true) (hx : net.hasTimepoint x = true)
    (hlabel : s.labels.get? x = some label) (hpos : 0 ≤ label.distance)
    (hle : label.distance ≤ 4 * maxMagnitude) : s.distance? g x
      = .ok (some (label.distance - g.value s.view s.start + g.value s.view x)) := by
  have hstartValue := hg.value_mem hlimited s.view hstart
  have hvalue := hg.value_mem hlimited s.view hx
  have hfits₁ : FitsInt32 (label.distance - g.value s.view s.start) := by
    apply fitsInt32_of_limits
    · omega
    · omega
  have hfits₂ : FitsInt32 (label.distance - g.value s.view s.start + g.value s.view x) := by
    apply fitsInt32_of_limits
    · omega
    · omega
  unfold distance?
  simp only [hlabel, int32_of hfits₁, Checked.bind_eq_ok, Except.ok.injEq,
    exists_eq_left', int32_of hfits₂, Checked.pure_eq_ok]

section
variable (h : Covers net g sharedOnly s) (hlimited : net.Limited) (hg : g.Grounded net)
include h hlimited hg

/-- Distances are given, and are no more than twice the limit. -/
theorem Covers.exists_distance? (x : Timepoint) :
    ∃ found, s.distance? g x = .ok found ∧
      ∀ v ∈ found, -2 * maxMagnitude ≤ v ∧ v ≤ 2 * maxMagnitude := by
  cases hlabel : s.labels.get? x with
  | none =>
      refine ⟨none, ?_, fun v hv => absurd hv (Option.not_mem_none v)⟩
      unfold distance?
      rw [hlabel]
  | some label =>
      obtain ⟨hnode, hpos, hle⟩ := h.label x label hlabel
      have hstartValue := hg.value_mem hlimited s.view h.node
      have hvalue := hg.value_mem hlimited s.view hnode
      refine ⟨_, distance?_eq hlimited hg h.node hnode hlabel hpos (by omega), fun v hv => ?_⟩
      cases hv
      omega

/-- The list of distances is given, and each of them is within the way round
by the origin. -/
theorem Covers.exists_distances : ∃ reached, s.distances g = .ok reached ∧
    ∀ p ∈ reached, -2 * maxMagnitude ≤ p.2 ∧ p.2 ≤ 2 * maxMagnitude := by
  have hgo : ∀ entries : List (Timepoint × PathLabel), ∃ reached,
      distances.go g s entries = .ok reached := by
    intro entries
    induction entries with
    | nil => exact ⟨[], rfl⟩
    | cons entry rest ih =>
        obtain ⟨found, hfound, -⟩ := h.exists_distance? hlimited hg entry.1
        obtain ⟨others, hothers⟩ := ih
        refine Checked.exists_bind ⟨found, hfound⟩ fun _ _ => ?_
        exact Checked.exists_bind ⟨others, hothers⟩ fun _ _ => ⟨_, rfl⟩
  obtain ⟨reached, hreached⟩ := hgo s.labels.toList
  refine ⟨reached, hreached, fun p hp => ?_⟩
  obtain ⟨found, hfound, hwithin⟩ := h.exists_distance? hlimited hg p.1
  rw [mem_distances hreached p hp] at hfound
  cases hfound
  exact hwithin p.2 rfl

omit hlimited in
/-- Paths are given. -/
theorem Covers.exists_pathTo (hnet : net.WellFormed) (x : Timepoint) :
    ∃ es, s.pathTo net g x = .ok es := by
  cases hlabel : s.labels.get? x with
  | none =>
      refine ⟨[], ?_⟩
      unfold pathTo pathFrom
      rw [hlabel]
      rfl
  | some label =>
      obtain ⟨es, hchain⟩ := h.chain x label hlabel
      exact ⟨es, h.pathTo_eq hnet hg h.node h.loose hchain⟩

end

end PathSearch

end TemporalNetwork
