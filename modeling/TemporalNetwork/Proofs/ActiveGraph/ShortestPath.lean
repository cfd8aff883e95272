/-
Paths justify the distances that are found.

Each label is accounted for: the edge by which a node was found is in
force in the view of the search, the node where it begins is labelled as
well, and its label and the reduced weight of the edge come to no more
than the label of the node. Labels only improve, so that this stays true
while other nodes are relabelled. Following the edges back from a node
therefore collects a walk from the start, which weighs no more than the
distance that is reported.

Nothing is said here about the distance being least; the search may also
have been stopped early.
-/
import TemporalNetwork.ActiveGraph.ShortestPath
import TemporalNetwork.Proofs.ActiveGraph.Sound

namespace TemporalNetwork

namespace PathSearch

variable {net : Network} {g : ActiveGraph} {sharedOnly : Bool} {s s' : PathSearch}
  {node start x : Timepoint} {id : EdgeId} {es ids : List EdgeId} {label : PathLabel}
  {distance : Int} {n : Nat}

/-- The weight of an edge as the potentials of the view shift it. -/
def reduced (net : Network) (g : ActiveGraph) (d : Direction) (id : EdgeId) : Int :=
  (net.edge id).weight + g.value d ((net.edge id).tail d) - g.value d ((net.edge id).head d)

/-- The edges that a search may use. -/
def Usable (net : Network) (g : ActiveGraph) (sharedOnly : Bool) (d : Direction) (id : EdgeId) :
    Prop :=
  g.isActive id = true ∧ (net.edge id).isIn d = true ∧
    (sharedOnly = true → (net.edge id).isShared = true)

/-- Each label is accounted for by the edge through which it was found,
and the start by none. -/
structure Accounted (net : Network) (g : ActiveGraph) (sharedOnly : Bool) (s : PathSearch) :
    Prop where
  first (x : Timepoint) (label : PathLabel) : s.labels.get? x = some label →
    label.incoming = none → x = s.start ∧ label.distance = 0
  incoming (x : Timepoint) (label : PathLabel) (id : EdgeId) : s.labels.get? x = some label →
    label.incoming = some id → Usable net g sharedOnly s.view id ∧ (net.edge id).head s.view = x ∧
      ∃ before, s.labels.get? ((net.edge id).tail s.view) = some before ∧
        before.distance + reduced net g s.view id ≤ label.distance

/-- The one label there is at first is that of the start. -/
theorem accounted_initial (d : Direction) (start : Timepoint) :
    Accounted net g sharedOnly (initial d start) := by
  have hlabel : ∀ x label, (initial d start).labels.get? x = some label →
      x = start ∧ label = ⟨0, none⟩ := by
    intro x label h
    simp only [initial, HandleMap.get?_insert, HandleMap.get?_empty] at h
    split at h
    next hx =>
      cases h
      exact ⟨(Handle.index_inj.mp hx).symm, rfl⟩
    next => cases h
  refine ⟨?_, ?_⟩
  · intro x label h _
    obtain ⟨hx, rfl⟩ := hlabel x label h
    exact ⟨hx, rfl⟩
  · intro x label id h hid
    obtain ⟨-, rfl⟩ := hlabel x label h
    cases hid

-- ================================================================ the search

/-- A label is replaced by a better one only. -/
theorem get?_labels_improve (s : PathSearch) (node x : Timepoint) (distance : Int)
    (via : EdgeId) : (s.improve node distance via).labels.get? x
      = if node = x ∧ (s.labels.get? node).all (distance < ·.distance) = true
        then some ⟨distance, some via⟩ else s.labels.get? x := by
  have hindex : Handle.index node = Handle.index x ↔ node = x := Handle.index_inj
  unfold improve
  by_cases hbetter : (s.labels.get? node).all (distance < ·.distance) = true
  · rw [if_pos hbetter]
    simp only [HandleMap.get?_insert, hindex, hbetter, and_true]
  · rw [if_neg hbetter, if_neg fun h => hbetter h.2]

@[simp] theorem view_improve (s : PathSearch) (node : Timepoint) (distance : Int)
    (via : EdgeId) : (s.improve node distance via).view = s.view := by
  unfold improve
  split <;> rfl

@[simp] theorem start_improve (s : PathSearch) (node : Timepoint) (distance : Int)
    (via : EdgeId) : (s.improve node distance via).start = s.start := by
  unfold improve
  split <;> rfl

@[simp] theorem settled_improve (s : PathSearch) (node : Timepoint) (distance : Int)
    (via : EdgeId) : (s.improve node distance via).settled = s.settled := by
  unfold improve
  split <;> rfl

/-- Labels only improve. -/
theorem label_improve_le {before : PathLabel} (h : s.labels.get? x = some before) (node : Timepoint)
    (distance : Int) (via : EdgeId) :
    ∃ after, (s.improve node distance via).labels.get? x = some after ∧
      after.distance ≤ before.distance := by
  rw [get?_labels_improve]
  split
  next hx =>
    obtain ⟨rfl, hbetter⟩ := hx
    rw [h] at hbetter
    exact ⟨_, rfl, Int.le_of_lt (by simpa using hbetter)⟩
  next => exact ⟨before, h, Int.le_refl _⟩

/-- A node is found through an edge from a node with a label. -/
theorem Accounted.improve (h : Accounted net g sharedOnly s) {before : PathLabel}
    (husable : Usable net g sharedOnly s.view id)
    (hbefore : s.labels.get? ((net.edge id).tail s.view) = some before)
    (hle : before.distance + reduced net g s.view id ≤ distance) :
    Accounted net g sharedOnly (s.improve ((net.edge id).head s.view) distance id) := by
  refine ⟨?_, ?_⟩
  · intro x label hx hnone
    rw [start_improve]
    rw [get?_labels_improve] at hx
    split at hx
    next =>
      cases hx
      cases hnone
    next => exact h.first x label hx hnone
  · intro x label i hx hi
    rw [view_improve]
    rw [get?_labels_improve] at hx
    split at hx
    next heq =>
      cases hx
      cases hi
      obtain ⟨new, hnew, hnewle⟩ := label_improve_le hbefore _ distance id
      exact ⟨husable, heq.1, new, hnew, by simp only; omega⟩
    next =>
      obtain ⟨husable', hhead, old, hold, holdle⟩ := h.incoming x label i hx hi
      obtain ⟨new, hnew, hnewle⟩ := label_improve_le hold _ distance id
      exact ⟨husable', hhead, new, hnew, by omega⟩

/-- The search goes on from the same node in the same view, with labels
that are accounted for and no worse. -/
structure Continues (net : Network) (g : ActiveGraph) (sharedOnly : Bool) (s s' : PathSearch) :
    Prop where
  accounted : Accounted net g sharedOnly s'
  view : s'.view = s.view
  start : s'.start = s.start
  improved (x : Timepoint) (before : PathLabel) : s.labels.get? x = some before →
    ∃ after, s'.labels.get? x = some after ∧ after.distance ≤ before.distance

theorem Continues.refl (h : Accounted net g sharedOnly s) : Continues net g sharedOnly s s :=
  ⟨h, rfl, rfl, fun _ before hb => ⟨before, hb, Int.le_refl _⟩⟩

/-- Labels that improve in turn have improved. -/
theorem Continues.trans {s'' : PathSearch} (h : Continues net g sharedOnly s s')
    (h' : Continues net g sharedOnly s' s'') : Continues net g sharedOnly s s'' where
  accounted := h'.accounted
  view := h'.view.trans h.view
  start := h'.start.trans h.start
  improved x before hb := by
    obtain ⟨mid, hmid, hle⟩ := h.improved x before hb
    obtain ⟨after, hafter, hle'⟩ := h'.improved x mid hmid
    exact ⟨after, hafter, Int.le_trans hle' hle⟩

/-- An edge that leaves a node with a label, looked at with a distance
that is no less. -/
theorem Accounted.scanEdge (h : Accounted net g sharedOnly s) {before : PathLabel}
    (hactive : g.isActive id = true) (hin : (net.edge id).isIn s.view = true)
    (hbefore : s.labels.get? ((net.edge id).tail s.view) = some before)
    (hle : before.distance ≤ distance)
    (hscan : scanEdge net g sharedOnly ((net.edge id).tail s.view) distance s id = .ok s') :
    Continues net g sharedOnly s s' := by
  unfold PathSearch.scanEdge at hscan
  simp only at hscan
  split at hscan
  next =>
    cases hscan
    exact .refl h
  next hshared =>
    split at hscan
    next =>
      cases hscan
      exact .refl h
    next =>
      simp only [Checked.bind_eq_ok, int32_eq_ok, Checked.require_eq_ok,
        Checked.pure_eq_ok] at hscan
      obtain ⟨_, ⟨-, rfl⟩, _, ⟨-, rfl⟩, _, -, _, ⟨-, rfl⟩, rfl⟩ := hscan
      have husable : Usable net g sharedOnly s.view id := by
        refine ⟨hactive, hin, fun honly => ?_⟩
        simpa [honly] using hshared
      refine ⟨h.improve husable hbefore ?_, view_improve _ _ _ _, start_improve _ _ _ _,
        fun x old hold => label_improve_le hold _ _ _⟩
      unfold reduced
      omega

/-- All edges that leave a node, looked at in turn. -/
theorem Accounted.scanEdges (h : Accounted net g sharedOnly s) {before : PathLabel}
    (hids : ∀ id ∈ ids, g.isActive id = true ∧ (net.edge id).isIn s.view = true ∧
      (net.edge id).tail s.view = node)
    (hbefore : s.labels.get? node = some before) (hle : before.distance ≤ distance)
    (hscan : scanEdges net g sharedOnly node distance s ids = .ok s') :
    Continues net g sharedOnly s s' := by
  induction ids generalizing s before with
  | nil =>
      cases hscan
      exact .refl h
  | cons id rest ih =>
      simp only [PathSearch.scanEdges, Checked.bind_eq_ok] at hscan
      obtain ⟨s₁, hfirst, hrest⟩ := hscan
      obtain ⟨hactive, hin, htail⟩ := hids id List.mem_cons_self
      rw [← htail] at hfirst hbefore
      have hstep := h.scanEdge hactive hin hbefore hle hfirst
      obtain ⟨after, hafter, hafterle⟩ := hstep.improved _ before hbefore
      rw [htail] at hafter
      refine hstep.trans (ih hstep.accounted (fun i hi => ?_) hafter (by omega) hrest)
      rw [hstep.view]
      exact hids i (List.mem_cons_of_mem id hi)

/-- The nearest node has a label, at the distance given. -/
theorem label_of_nearest? (h : s.nearest? = some (node, distance)) :
    ∃ label, s.labels.get? node = some label ∧ label.distance = distance := by
  have hfold : ∀ (entries : List (Timepoint × PathLabel)) (best : Option (Timepoint × Int)),
      entries.foldl (nearest?.choose s) best = some (node, distance) →
        best = some (node, distance) ∨
          ∃ label, (node, label) ∈ entries ∧ label.distance = distance := by
    intro entries
    induction entries with
    | nil => exact fun best hbest => .inl hbest
    | cons entry rest ih =>
        intro best hbest
        rcases ih _ hbest with hchosen | ⟨label, hmem, hlabel⟩
        · have hcases : nearest?.choose s best entry = best ∨
              nearest?.choose s best entry = some (entry.1, entry.2.distance) := by
            unfold nearest?.choose
            split
            · exact .inl rfl
            · split
              · exact .inr rfl
              · split
                · exact .inr rfl
                · exact .inl rfl
          rcases hcases with heq | heq
          · exact .inl (heq ▸ hchosen)
          · rw [heq] at hchosen
            cases hchosen
            exact .inr ⟨entry.2, List.mem_cons_self, rfl⟩
        · exact .inr ⟨label, List.mem_cons_of_mem entry hmem, hlabel⟩
  rcases hfold _ _ h with hnone | ⟨label, hmem, hlabel⟩
  · cases hnone
  · exact ⟨label, (HandleMap.mem_toList _ _ _).mp hmem, hlabel⟩

/-- However many nodes are settled, and wherever the search is stopped, its
labels are accounted for. -/
theorem Accounted.settle (h : Accounted net g sharedOnly s) (hg : g.Shaped net)
    {stop : Option Timepoint} (hrun : settle net g sharedOnly stop n s = .ok s') :
    Continues net g sharedOnly s s' := by
  induction n generalizing s with
  | zero =>
      cases hrun
      exact .refl h
  | succ n ih =>
      unfold PathSearch.settle at hrun
      split at hrun
      next =>
        cases hrun
        exact .refl h
      next node distance hnearest =>
        obtain ⟨label, hlabel, hdistance⟩ := label_of_nearest? hnearest
        -- settling a node touches no label
        have hsettled : Continues net g sharedOnly s
            { s with settled := s.settled.insert node } :=
          ⟨⟨h.first, h.incoming⟩, rfl, rfl, fun _ before hb => ⟨before, hb, Int.le_refl _⟩⟩
        simp only at hrun
        split at hrun
        next =>
          cases hrun
          exact hsettled
        next =>
          simp only [Checked.bind_eq_ok] at hrun
          obtain ⟨s₁, hscan, hrest⟩ := hrun
          have hids : ∀ id ∈ g.out s.view node, g.isActive id = true ∧
              (net.edge id).isIn s.view = true ∧ (net.edge id).tail s.view = node :=
            fun id hid => (hg.mem_out s.view node id).mp hid
          have hstep := hsettled.trans (hsettled.accounted.scanEdges hids hlabel
            (Int.le_of_eq hdistance) hscan)
          exact hstep.trans (ih hstep.accounted hrest)

/-- A search from a node ends with labels that are accounted for. -/
theorem accounted_run (hg : g.Shaped net) {d : Direction} {stop : Option Timepoint}
    (hrun : run net g d start sharedOnly stop = .ok s) :
    Accounted net g sharedOnly s ∧ s.view = d ∧ s.start = start := by
  have hcontinues := (accounted_initial d start).settle hg hrun
  exact ⟨hcontinues.accounted, hcontinues.view, hcontinues.start⟩

-- =============================================================== the answers

/-- The next edge to follow is the one of the label. -/
theorem pathFrom_eq_ok (hlabel : s.labels.get? node = some label)
    (hpath : pathFrom net s n node = .ok es) :
    label.incoming = none ∧ es = [] ∨
      ∃ id m rest, label.incoming = some id ∧ n = m + 1 ∧ es = id :: rest ∧
        pathFrom net s m ((net.edge id).tail s.view) = .ok rest := by
  have hincoming : (s.labels.get? node).bind (·.incoming) = label.incoming := by
    rw [hlabel]
    rfl
  unfold pathFrom at hpath
  rw [hincoming] at hpath
  cases hid : label.incoming with
  | none =>
      rw [hid] at hpath
      cases hpath
      exact .inl ⟨rfl, rfl⟩
  | some id =>
      rw [hid] at hpath
      cases n with
      | zero => cases hpath
      | succ m =>
          simp only [Checked.bind_eq_ok, Checked.pure_eq_ok] at hpath
          obtain ⟨rest, hrest, rfl⟩ := hpath
          exact .inr ⟨id, m, rest, rfl, rfl, rfl, hrest⟩

/-- Nothing is collected at the start. -/
theorem Accounted.pathFrom_nil (h : Accounted net g sharedOnly s)
    (hlabel : s.labels.get? node = some label) (hnone : label.incoming = none) :
    net.Leads {id | id ∈ ([] : List EdgeId)} s.view s.start node (net.weight []) ∧
      net.weight [] + g.value s.view s.start - g.value s.view node ≤ label.distance := by
  obtain ⟨rfl, hzero⟩ := h.first node label hlabel hnone
  exact ⟨.refl _, by simp [Network.weight, hzero]⟩

/-- What is collected from a labelled node back to the start is a walk,
no heavier than the label allows. -/
theorem Accounted.pathFrom (h : Accounted net g sharedOnly s)
    (hlabel : s.labels.get? node = some label) (hpath : pathFrom net s n node = .ok es) :
    (∀ id ∈ es, Usable net g sharedOnly s.view id) ∧
      net.Leads {id | id ∈ es} s.view s.start node (net.weight es) ∧
      net.weight es + g.value s.view s.start - g.value s.view node ≤ label.distance := by
  induction n generalizing node label es with
  | zero =>
      rcases pathFrom_eq_ok hlabel hpath with ⟨hnone, rfl⟩ | ⟨id, m, rest, -, hm, -, -⟩
      · exact ⟨fun id hid => absurd hid List.not_mem_nil, h.pathFrom_nil hlabel hnone⟩
      · exact absurd hm (Nat.succ_ne_zero m).symm
  | succ n ih =>
      rcases pathFrom_eq_ok hlabel hpath with ⟨hnone, rfl⟩ | ⟨id, m, rest, hid, hm, rfl, hrest⟩
      · exact ⟨fun id hid => absurd hid List.not_mem_nil, h.pathFrom_nil hlabel hnone⟩
      · obtain rfl : n = m := Nat.succ.inj hm
        obtain ⟨husable, hhead, before, hbefore, hle⟩ := h.incoming node label id hlabel hid
        obtain ⟨hall, hlead, hweight⟩ := ih hbefore hrest
        have hsum : net.weight (id :: rest) = net.weight rest + (net.edge id).weight := by
          rw [Network.weight_cons, Int.add_comm]
        refine ⟨?_, ?_, ?_⟩
        · intro i hi
          rcases List.mem_cons.mp hi with rfl | hi
          · exact husable
          · exact hall i hi
        · rw [hsum, ← hhead]
          exact (hlead.mono fun i hi => List.mem_cons_of_mem id hi).snoc List.mem_cons_self
            husable.2.1
        · rw [hsum]
          unfold reduced at hle
          rw [hhead] at hle
          omega

/-- A distance that is reported belongs to a label. -/
theorem distance?_eq_some (h : s.distance? g node = .ok (some distance)) :
    ∃ label, s.labels.get? node = some label ∧
      distance = label.distance - g.value s.view s.start + g.value s.view node := by
  unfold distance? at h
  cases hlabel : s.labels.get? node with
  | none =>
      rw [hlabel] at h
      cases h
  | some label =>
      rw [hlabel] at h
      simp only [Checked.bind_eq_ok, int32_eq_ok, Checked.pure_eq_ok, Option.some.injEq] at h
      obtain ⟨_, ⟨-, rfl⟩, _, ⟨-, rfl⟩, rfl⟩ := h
      exact ⟨label, rfl, rfl⟩

/-- A path that is reported is a walk from the start to the node, no
longer than the distance that is. -/
theorem Accounted.pathTo (h : Accounted net g sharedOnly s)
    (hdistance : s.distance? g node = .ok (some distance))
    (hpath : pathTo net g s node = .ok es) :
    (∀ id ∈ es, Usable net g sharedOnly s.view id) ∧
      net.Leads {id | id ∈ es} s.view s.start node (net.weight es) ∧
      net.weight es ≤ distance := by
  obtain ⟨label, hlabel, rfl⟩ := distance?_eq_some hdistance
  obtain ⟨hall, hlead, hweight⟩ := h.pathFrom hlabel hpath
  exact ⟨hall, hlead, by omega⟩

/-- Each entry of the list is what is reported for its node. -/
theorem mem_distances {reached : List (Timepoint × Int)} (h : s.distances g = .ok reached) :
    ∀ p ∈ reached, s.distance? g p.1 = .ok (some p.2) := by
  have hgo : ∀ entries reached, distances.go g s entries = .ok reached →
      ∀ p ∈ reached, s.distance? g p.1 = .ok (some p.2) := by
    intro entries
    induction entries with
    | nil =>
        intro reached hgo p hp
        cases hgo
        exact absurd hp List.not_mem_nil
    | cons entry rest ih =>
        intro reached hgo p hp
        simp only [distances.go, Checked.bind_eq_ok, Checked.pure_eq_ok] at hgo
        obtain ⟨found, hfound, others, hothers, rfl⟩ := hgo
        cases found with
        | none => exact ih others hothers p hp
        | some d =>
            rcases List.mem_cons.mp hp with rfl | hp
            · exact hfound
            · exact ih others hothers p hp
  exact hgo _ _ h

end PathSearch

end TemporalNetwork
