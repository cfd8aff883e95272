/-
How a network grows, and what stays true of it.

Timepoints and edges are only added, so that whatever a network says
once it says for good: `Grows` is the order in which networks follow one
another, and a set of literals that excludes itself does so in every
later network.

A network is well-formed if its edges join timepoints that it has and
its two indexes list the guarded edges where they leave and enter. The
domain of a timepoint is stated a second time, by two permanent edges
between it and the origin: `Enforced` says that they are there.
-/
import TemporalNetwork.Proofs.Network.Walk

namespace TemporalNetwork

namespace Network

variable {net net' net'' : Network} {d : Direction}

-- ================================================================== growth

/-- The second network has all that the first has. -/
structure Grows (net net' : Network) : Prop where
  edge (id : EdgeId) : net.hasEdge id = true →
    net'.hasEdge id = true ∧ net'.edge id = net.edge id
  timepoint (tp : Timepoint) : net.hasTimepoint tp = true →
    net'.hasTimepoint tp = true ∧ net'.domain tp = net.domain tp

/-- Every network has grown out of itself. -/
theorem Grows.refl (net : Network) : net.Grows net :=
  ⟨fun _ h => ⟨h, rfl⟩, fun _ h => ⟨h, rfl⟩⟩

/-- Growth composes. -/
theorem Grows.trans (h : net.Grows net') (h' : net'.Grows net'') : net.Grows net'' where
  edge id hid := by
    obtain ⟨hid', heq⟩ := h.edge id hid
    obtain ⟨hid'', heq'⟩ := h'.edge id hid'
    exact ⟨hid'', heq'.trans heq⟩
  timepoint tp htp := by
    obtain ⟨htp', heq⟩ := h.timepoint tp htp
    obtain ⟨htp'', heq'⟩ := h'.timepoint tp htp'
    exact ⟨htp'', heq'.trans heq⟩

/-- Edges that are enabled stay so, and stay the same edges. -/
theorem Grows.enabledBy (h : net.Grows net') {M : Set Literal} :
    ∀ id ∈ net.enabledBy M, id ∈ net'.enabledBy M ∧ net'.edge id = net.edge id := by
  intro id hid
  obtain ⟨hid', heq⟩ := h.edge id hid.1
  refine ⟨⟨hid', fun g hg => ?_⟩, heq⟩
  rw [heq] at hg
  exact hid.2 g hg

/-- What was excluded stays excluded. -/
theorem Grows.excludes (h : net.Grows net') {M : Set Literal} (hM : net.Excludes M) :
    net'.Excludes M :=
  Inconsistent.transfer h.enabledBy hM

section
variable {es : List EdgeId}

/-- The weight of a path depends on its edges only. -/
theorem weight_congr (h : ∀ id ∈ es, net'.edge id = net.edge id) :
    net'.weight es = net.weight es := by
  induction es with
  | nil => rfl
  | cons id rest ih =>
      rw [weight_cons, weight_cons, h id List.mem_cons_self,
        ih fun i hi => h i (List.mem_cons_of_mem id hi)]

/-- Being a path depends on the edges only. -/
theorem isPath_congr (h : ∀ id ∈ es, net'.edge id = net.edge id) :
    net'.isPath es = net.isPath es := by
  induction es with
  | nil => rfl
  | cons a rest ih =>
      cases rest with
      | nil => rfl
      | cons b rest =>
          unfold isPath
          rw [h a List.mem_cons_self, h b (List.mem_cons_of_mem a List.mem_cons_self),
            ih fun id hid => h id (List.mem_cons_of_mem a hid)]

/-- Being a cycle depends on the edges only. -/
theorem isCycle_congr (h : ∀ id ∈ es, net'.edge id = net.edge id) :
    net'.isCycle es = net.isCycle es := by
  unfold isCycle
  cases hfirst : es.head? with
  | none => rfl
  | some first =>
      cases hlast : es.getLast? with
      | none => rfl
      | some last =>
          have hfirst' := h first (List.mem_of_head? hfirst)
          have hlast' := h last (List.mem_of_getLast? hlast)
          simp only [hfirst', hlast', isPath_congr h]

end

-- ============================================================ added edges

/-- The handles of edges are those below their number. -/
theorem hasEdge_iff {id : EdgeId} : net.hasEdge id = true ↔ id.index < net.numEdges := by
  simp [hasEdge, numEdges, Handle.index]

/-- The handles of timepoints are those below their number. -/
theorem hasTimepoint_iff {tp : Timepoint} :
    net.hasTimepoint tp = true ↔ tp.index < net.numTimepoints := by
  simp [hasTimepoint, numTimepoints, Handle.index]

@[simp] theorem domains_addEdge (e : Edge) : (net.addEdge e).domains = net.domains := by
  unfold addEdge
  split <;> rfl

@[simp] theorem edges_addEdge (e : Edge) : (net.addEdge e).edges = net.edges.push e := by
  unfold addEdge
  split <;> rfl

@[simp] theorem hasTimepoint_addEdge (e : Edge) (tp : Timepoint) :
    (net.addEdge e).hasTimepoint tp = net.hasTimepoint tp := by
  rw [hasTimepoint, domains_addEdge, hasTimepoint]

@[simp] theorem numTimepoints_addEdge (e : Edge) :
    (net.addEdge e).numTimepoints = net.numTimepoints := by
  simp [numTimepoints]

@[simp] theorem numEdges_addEdge (e : Edge) : (net.addEdge e).numEdges = net.numEdges + 1 := by
  simp [numEdges]

/-- The new edge stands at the next handle, and the others where they were. -/
theorem edge_addEdge (e : Edge) (id : EdgeId) :
    (net.addEdge e).edge id = if id.index = net.numEdges then e else net.edge id := by
  unfold edge
  rw [edges_addEdge, HandleVector.get_push]
  rfl

/-- The edges after an addition. -/
theorem hasEdge_addEdge (e : Edge) (id : EdgeId) :
    (net.addEdge e).hasEdge id = true ↔ id.index = net.numEdges ∨ net.hasEdge id = true := by
  rw [hasEdge_iff, hasEdge_iff, numEdges_addEdge]
  omega

/-- The edge that was added, under its handle. -/
theorem edge_addEdge_nextKey (e : Edge) : (net.addEdge e).edge net.edges.nextKey = e := by
  rw [edge_addEdge, if_pos]
  exact HandleVector.index_nextKey net.edges

/-- The next handle is that of the new edge. -/
theorem hasEdge_addEdge_nextKey (e : Edge) :
    (net.addEdge e).hasEdge net.edges.nextKey = true :=
  (hasEdge_addEdge e _).mpr (.inl (HandleVector.index_nextKey net.edges))

/-- Earlier edges stay as they are. -/
theorem edge_addEdge_of_hasEdge {e : Edge} {id : EdgeId} (h : net.hasEdge id = true) :
    (net.addEdge e).edge id = net.edge id := by
  rw [edge_addEdge, if_neg]
  exact Nat.ne_of_lt (hasEdge_iff.mp h)

/-- An edge of the network is new, or was there before. -/
theorem hasEdge_or_eq_of_addEdge {e : Edge} {id : EdgeId}
    (hid : (net.addEdge e).hasEdge id = true) :
    net.hasEdge id = true ∨ (net.addEdge e).edge id = e := by
  rcases (hasEdge_addEdge e id).mp hid with hnew | hold
  · right
    rw [edge_addEdge, if_pos hnew]
  · exact .inl hold

/-- A network grows by an edge. -/
theorem grows_addEdge (net : Network) (e : Edge) : net.Grows (net.addEdge e) where
  edge id h := ⟨(hasEdge_addEdge e id).mpr (.inr h), edge_addEdge_of_hasEdge h⟩
  timepoint tp h := by
    refine ⟨?_, ?_⟩
    · rwa [hasTimepoint_addEdge]
    · rw [domain, domains_addEdge, domain]

/-- The edge is one of those of the network. -/
def Contains (net : Network) (e : Edge) : Prop := ∃ id, net.hasEdge id = true ∧ net.edge id = e

/-- Growth loses no edge. -/
theorem Grows.contains (h : net.Grows net') {e : Edge} (he : net.Contains e) :
    net'.Contains e := by
  obtain ⟨id, hid, hedge⟩ := he
  exact ⟨id, (h.edge id hid).1, (h.edge id hid).2.trans hedge⟩

/-- The new edge is contained in the network. -/
theorem contains_addEdge (net : Network) (e : Edge) : (net.addEdge e).Contains e :=
  ⟨_, hasEdge_addEdge_nextKey e, edge_addEdge_nextKey e⟩

/-- Nothing is added besides. -/
theorem contains_addEdge_iff {e e' : Edge} :
    (net.addEdge e).Contains e' ↔ net.Contains e' ∨ e' = e := by
  constructor
  · rintro ⟨id, hid, rfl⟩
    rw [edge_addEdge]
    split
    next => exact .inr rfl
    next hne => exact .inl ⟨id, ((hasEdge_addEdge e id).mp hid).resolve_left hne, rfl⟩
  · rintro (he | rfl)
    · exact (grows_addEdge net e).contains he
    · exact contains_addEdge net e'

/-- A network grows by any number of edges. -/
theorem grows_addEdges (es : List Edge) (net : Network) : net.Grows (es.foldl addEdge net) := by
  induction es generalizing net with
  | nil => exact .refl net
  | cons e es ih => exact (grows_addEdge net e).trans (ih (net.addEdge e))

/-- Edges that are added in turn. -/
theorem contains_addEdges (es : List Edge) (net : Network) :
    ∀ e ∈ es, (es.foldl addEdge net).Contains e := by
  induction es generalizing net with
  | nil => exact fun e he => absurd he List.not_mem_nil
  | cons e es ih =>
      intro e' he
      rcases List.mem_cons.mp he with rfl | he
      · exact (grows_addEdges es _).contains (contains_addEdge net e')
      · exact ih (net.addEdge e) e' he

@[simp] theorem edges_addTimepoint (dom : Domain) : (net.addTimepoint dom).edges = net.edges := rfl

@[simp] theorem numTimepoints_addTimepoint (dom : Domain) :
    (net.addTimepoint dom).numTimepoints = net.numTimepoints + 1 := by
  simp [numTimepoints, addTimepoint]

/-- The new timepoint has the domain it was created with. -/
theorem domain_addTimepoint (dom : Domain) (tp : Timepoint) :
    (net.addTimepoint dom).domain tp
      = if tp.index = net.numTimepoints then dom else net.domain tp :=
  HandleVector.get_push _ _ _

/-- A network grows by a timepoint. -/
theorem grows_addTimepoint (net : Network) (dom : Domain) : net.Grows (net.addTimepoint dom) where
  edge id h := ⟨h, rfl⟩
  timepoint tp h := by
    have hlt := hasTimepoint_iff.mp h
    refine ⟨?_, ?_⟩
    · rw [hasTimepoint_iff, numTimepoints_addTimepoint]
      omega
    · rw [domain_addTimepoint, if_neg (Nat.ne_of_lt hlt)]

-- ========================================================= well-formedness

/-- The edges join timepoints, and the guarded ones are indexed. -/
structure WellFormed (net : Network) : Prop where
  origin : net.hasTimepoint .origin = true
  source (id : EdgeId) : net.hasEdge id = true → net.hasTimepoint (net.edge id).source = true
  target (id : EdgeId) : net.hasEdge id = true → net.hasTimepoint (net.edge id).target = true
  sizeOut : net.guardedOut.size = net.numTimepoints
  sizeIn : net.guardedIn.size = net.numTimepoints
  guarded (d : Direction) (tp : Timepoint) (id : EdgeId) : id ∈ net.guardedAt d tp ↔
    net.hasEdge id = true ∧ (net.edge id).guard?.isSome = true ∧ (net.edge id).tail d = tp

/-- In either view, an edge leaves a timepoint of the network. -/
theorem WellFormed.tail (h : net.WellFormed) {id : EdgeId} (hid : net.hasEdge id = true)
    (d : Direction) : net.hasTimepoint ((net.edge id).tail d) = true := by
  cases d with
  | forward => exact h.source id hid
  | backward => exact h.target id hid

/-- In either view, an edge leads to a timepoint of the network. -/
theorem WellFormed.head (h : net.WellFormed) {id : EdgeId} (hid : net.hasEdge id = true)
    (d : Direction) : net.hasTimepoint ((net.edge id).head d) = true := by
  cases d with
  | forward => exact h.target id hid
  | backward => exact h.source id hid

/-- The index of a new edge lists it where it leaves in the view. -/
theorem mem_guardedAt_addEdge (h : net.WellFormed) {e : Edge}
    (hsource : net.hasTimepoint e.source = true) (htarget : net.hasTimepoint e.target = true)
    (d : Direction) (tp : Timepoint) (id : EdgeId) :
    id ∈ (net.addEdge e).guardedAt d tp ↔
      id ∈ net.guardedAt d tp
        ∨ id.index = net.numEdges ∧ e.guard?.isSome = true ∧ e.tail d = tp := by
  have hid : id = net.edges.nextKey ↔ id.index = net.numEdges := by
    rw [← Handle.index_inj, HandleVector.index_nextKey]
    rfl
  have hout : e.source.index < net.guardedOut.size := by
    rw [h.sizeOut]
    exact hasTimepoint_iff.mp hsource
  have hin : e.target.index < net.guardedIn.size := by
    rw [h.sizeIn]
    exact hasTimepoint_iff.mp htarget
  unfold addEdge
  -- only a guarded edge is entered in the indices
  cases hg : e.guard? with
  | none => simp [guardedAt]
  | some g =>
      cases d with
      | forward =>
          simp only [guardedAt, HandleVector.get_modify, Edge.tail]
          by_cases htp : e.source = tp
          · subst htp
            rw [if_pos ⟨rfl, hout⟩]
            simp [hid]
          · rw [if_neg (fun hc => htp (Handle.index_inj.mp hc.1))]
            simp [htp]
      | backward =>
          simp only [guardedAt, HandleVector.get_modify, Edge.tail]
          by_cases htp : e.target = tp
          · subst htp
            rw [if_pos ⟨rfl, hin⟩]
            simp [hid]
          · rw [if_neg (fun hc => htp (Handle.index_inj.mp hc.1))]
            simp [htp]

/-- An edge between timepoints keeps the network well-formed. -/
theorem WellFormed.addEdge (h : net.WellFormed) {e : Edge}
    (hsource : net.hasTimepoint e.source = true) (htarget : net.hasTimepoint e.target = true) :
    (net.addEdge e).WellFormed := by
  have hgrows := grows_addEdge net e
  refine ⟨(hgrows.timepoint _ h.origin).1, ?_, ?_, ?_, ?_, ?_⟩
  · intro id hid
    rw [edge_addEdge]
    split
    · exact (hgrows.timepoint _ hsource).1
    next hne =>
      have hold := ((hasEdge_addEdge e id).mp hid).resolve_left hne
      exact (hgrows.timepoint _ (h.source id hold)).1
  · intro id hid
    rw [edge_addEdge]
    split
    · exact (hgrows.timepoint _ htarget).1
    next hne =>
      have hold := ((hasEdge_addEdge e id).mp hid).resolve_left hne
      exact (hgrows.timepoint _ (h.target id hold)).1
  · rw [numTimepoints_addEdge, ← h.sizeOut]
    unfold Network.addEdge
    split <;> simp
  · rw [numTimepoints_addEdge, ← h.sizeIn]
    unfold Network.addEdge
    split <;> simp
  · -- the indices list the guarded edges, the new one included
    intro d tp id
    rw [mem_guardedAt_addEdge h hsource htarget, h.guarded, hasEdge_addEdge, edge_addEdge]
    by_cases hid : id.index = net.numEdges
    · have hold : ¬ net.hasEdge id = true := by
        rw [hasEdge_iff]
        omega
      simp [hid, hold]
    · simp [hid]

/-- A timepoint keeps the network well-formed. -/
theorem WellFormed.addTimepoint (h : net.WellFormed) (dom : Domain) :
    (net.addTimepoint dom).WellFormed := by
  have hgrows := grows_addTimepoint net dom
  refine ⟨(hgrows.timepoint _ h.origin).1, ?_, ?_, ?_, ?_, ?_⟩
  · intro id hid
    exact (hgrows.timepoint _ (h.source id hid)).1
  · intro id hid
    exact (hgrows.timepoint _ (h.target id hid)).1
  · rw [numTimepoints_addTimepoint, ← h.sizeOut]
    exact HandleVector.size_push _ _
  · rw [numTimepoints_addTimepoint, ← h.sizeIn]
    exact HandleVector.size_push _ _
  · intro d tp id
    have hindex : (net.addTimepoint dom).guardedAt d tp = net.guardedAt d tp := by
      cases d with
      | forward =>
          simp only [guardedAt, Network.addTimepoint, HandleVector.get_push]
          split
          next htp =>
            rw [HandleVector.get, (HandleVector.get?_eq_none_iff _ _).mpr (Nat.le_of_eq htp.symm)]
            rfl
          next => rfl
      | backward =>
          simp only [guardedAt, Network.addTimepoint, HandleVector.get_push]
          split
          next htp =>
            rw [HandleVector.get, (HandleVector.get?_eq_none_iff _ _).mpr (Nat.le_of_eq htp.symm)]
            rfl
          next => rfl
    rw [hindex]
    exact h.guarded d tp id

/-- The first network has the origin only. -/
theorem wellFormed_initial : initial.WellFormed := by
  refine ⟨by decide, ?_, ?_, rfl, rfl, ?_⟩
  · intro id hid
    exact absurd (hasEdge_iff.mp hid) (Nat.not_lt_zero _)
  · intro id hid
    exact absurd (hasEdge_iff.mp hid) (Nat.not_lt_zero _)
  · intro d tp id
    have hnone : ¬ initial.hasEdge id = true := by
      rw [hasEdge_iff]
      exact Nat.not_lt_zero _
    have hempty : initial.guardedAt d tp = [] := by
      obtain ⟨n⟩ := tp
      cases d <;> cases n <;> rfl
    simp [hnone, hempty]

-- ================================================================= domains

/-- Two permanent edges bound each timepoint to its domain, and the
origin has no other value than 0. -/
structure Enforced (net : Network) : Prop where
  origin : net.domain .origin = ⟨0, 0⟩
  upper (tp : Timepoint) : net.hasTimepoint tp = true → tp ≠ .origin →
    ∃ id, net.hasEdge id = true ∧
      net.edge id = ⟨.origin, tp, (net.domain tp).upper, .permanent⟩
  lower (tp : Timepoint) : net.hasTimepoint tp = true → tp ≠ .origin →
    ∃ id, net.hasEdge id = true ∧
      net.edge id = ⟨tp, .origin, -(net.domain tp).lower, .permanent⟩

/-- No edge makes the network less strict. -/
theorem Enforced.addEdge (h : net.Enforced) (e : Edge) : (net.addEdge e).Enforced := by
  have hdomain : ∀ tp, (net.addEdge e).domain tp = net.domain tp := fun tp => by
    rw [domain, domains_addEdge, domain]
  have htimepoint : ∀ tp, (net.addEdge e).hasTimepoint tp = net.hasTimepoint tp := fun tp => by
    rw [hasTimepoint, domains_addEdge, hasTimepoint]
  refine ⟨by rw [hdomain, h.origin], ?_, ?_⟩
  · intro tp htp hne
    obtain ⟨id, hid, hedge⟩ := h.upper tp (htimepoint tp ▸ htp) hne
    obtain ⟨hid', heq⟩ := (grows_addEdge net e).edge id hid
    exact ⟨id, hid', by rw [heq, hedge, hdomain]⟩
  · intro tp htp hne
    obtain ⟨id, hid, hedge⟩ := h.lower tp (htimepoint tp ▸ htp) hne
    obtain ⟨hid', heq⟩ := (grows_addEdge net e).edge id hid
    exact ⟨id, hid', by rw [heq, hedge, hdomain]⟩

/-- A network grows by a timepoint with its two edges. -/
theorem grows_addBounded (net : Network) (dom : Domain) : net.Grows (net.addBounded dom) :=
  ((grows_addTimepoint net dom).trans (grows_addEdge _ _)).trans (grows_addEdge _ _)

/-- The domains after a timepoint has been added with its edges. -/
theorem domain_addBounded (dom : Domain) (tp : Timepoint) : (net.addBounded dom).domain tp
    = if tp.index = net.numTimepoints then dom else net.domain tp := by
  rw [← domain_addTimepoint]
  simp only [addBounded, domain, domains_addEdge]

/-- A bounded timepoint brings the two edges of its domain, and no other. -/
theorem contains_addBounded_iff {dom : Domain} {e : Edge} :
    (net.addBounded dom).Contains e ↔ net.Contains e ∨
      e = ⟨.origin, net.domains.nextKey, dom.upper, .permanent⟩ ∨
        e = ⟨net.domains.nextKey, .origin, -dom.lower, .permanent⟩ := by
  have hsame : (net.addTimepoint dom).Contains e ↔ net.Contains e := Iff.rfl
  unfold addBounded
  rw [contains_addEdge_iff, contains_addEdge_iff, hsame, or_assoc]

/-- The new timepoint is the one that has the next number. -/
theorem eq_nextKey_iff {tp : Timepoint} :
    tp = net.domains.nextKey ↔ tp.index = net.numTimepoints := by
  rw [← Handle.index_inj, HandleVector.index_nextKey]
  rfl

/-- The timepoints after a bounded one has been added. -/
theorem hasTimepoint_addBounded {dom : Domain} {tp : Timepoint} :
    (net.addBounded dom).hasTimepoint tp = true ↔
      tp.index = net.numTimepoints ∨ net.hasTimepoint tp = true := by
  rw [hasTimepoint_iff, hasTimepoint_iff]
  simp only [addBounded, numTimepoints_addEdge, numTimepoints_addTimepoint]
  omega

/-- The edges after a bounded timepoint has been added. -/
theorem hasEdge_addBounded {dom : Domain} {id : EdgeId} :
    (net.addBounded dom).hasEdge id = true ↔
      net.hasEdge id = true ∨ id.index = net.numEdges ∨ id.index = net.numEdges + 1 := by
  rw [addBounded, hasEdge_addEdge, hasEdge_addEdge, numEdges_addEdge, hasEdge_iff, hasEdge_iff,
    numEdges, numEdges, edges_addTimepoint]
  omega

/-- The edge that bounds the new timepoint from above. -/
theorem edge_addBounded_upper (dom : Domain) :
    (net.addBounded dom).edge ⟨net.numEdges⟩
      = ⟨.origin, net.domains.nextKey, dom.upper, .permanent⟩ := by
  rw [addBounded, edge_addEdge, if_neg, edge_addEdge, if_pos]
  · rfl
  · rw [numEdges_addEdge]
    exact Nat.ne_of_lt (Nat.lt_succ_self _)

/-- The edge that bounds the new timepoint from below. -/
theorem edge_addBounded_lower (dom : Domain) :
    (net.addBounded dom).edge ⟨net.numEdges + 1⟩
      = ⟨net.domains.nextKey, .origin, -dom.lower, .permanent⟩ := by
  rw [addBounded, edge_addEdge, if_pos]
  rw [numEdges_addEdge]
  rfl

/-- The new timepoint is left and entered by way of the origin alone, and
the domain is not empty: a walk gains nothing by going there. -/
theorem Walk.of_addBounded {S T : Set EdgeId} {x y : Timepoint} {w : Int} {dom : Domain}
    (hnet : net.WellFormed) (hdom : dom.lower ≤ dom.upper)
    (hT : ∀ id ∈ T, (net.hasEdge id = true ∧ id ∈ S) ∨ id.index = net.numEdges ∨
      id.index = net.numEdges + 1)
    (hy : net.hasTimepoint y = true) (h : (net.addBounded dom).Walk T x y w) :
    (net.hasTimepoint x = true → ∃ v, v ≤ w ∧ net.Walk S x y v) ∧
      (x = net.domains.nextKey → ∃ v, v - dom.lower ≤ w ∧ net.Walk S .origin y v) := by
  have hnew : ¬ net.hasTimepoint net.domains.nextKey = true := by
    rw [hasTimepoint_iff, eq_nextKey_iff.mp rfl]
    exact Nat.lt_irrefl _
  induction h with
  | nil x =>
      refine ⟨fun _ => ⟨0, Int.le_refl 0, .nil x⟩, fun hx => ?_⟩
      rw [hx] at hy
      exact absurd hy hnew
  | @cons id x y w mem source rest ih =>
      obtain ⟨hold, hback⟩ := ih hy
      rcases hT id mem with ⟨hid, hS⟩ | hupper | hlower
      · -- an edge that was there joins timepoints that were there
        have hedge := ((grows_addBounded net dom).edge id hid).2
        rw [hedge] at source hold ⊢
        refine ⟨fun _ => ?_, fun hx => ?_⟩
        · obtain ⟨v, hle, hwalk⟩ := hold (hnet.target id hid)
          exact ⟨_, by omega, .cons hS source hwalk⟩
        · rw [← source] at hx
          rw [← hx] at hnew
          exact absurd (hnet.source id hid) hnew
      · -- to the new timepoint and back, at a cost that is not negative
        have hedge : (net.addBounded dom).edge id
            = ⟨.origin, net.domains.nextKey, dom.upper, .permanent⟩ := by
          rw [← edge_addBounded_upper, ← hupper]
        rw [hedge] at source hback ⊢
        obtain ⟨v, hle, hwalk⟩ := hback rfl
        refine ⟨fun _ => ?_, fun hx => ?_⟩
        · rw [← source]
          exact ⟨v, by simp only; omega, hwalk⟩
        · rw [← hx, ← source] at hnew
          exact absurd hnet.origin hnew
      · -- to the origin, from where the rest goes on
        have hedge : (net.addBounded dom).edge id
            = ⟨net.domains.nextKey, .origin, -dom.lower, .permanent⟩ := by
          rw [← edge_addBounded_lower, ← hlower]
        rw [hedge] at source hold ⊢
        obtain ⟨v, hle, hwalk⟩ := hold hnet.origin
        refine ⟨fun hx => ?_, fun _ => ⟨v, by simp only; omega, hwalk⟩⟩
        rw [← source] at hx
        exact absurd hx hnew

/-- A bounded timepoint keeps the network well-formed. -/
theorem WellFormed.addBounded (h : net.WellFormed) (dom : Domain) :
    (net.addBounded dom).WellFormed := by
  have horigin : (net.addTimepoint dom).hasTimepoint .origin = true :=
    ((grows_addTimepoint net dom).timepoint _ h.origin).1
  have hnew : (net.addTimepoint dom).hasTimepoint net.domains.nextKey = true := by
    rw [hasTimepoint_iff, numTimepoints_addTimepoint]
    exact Nat.lt_succ_of_le (Nat.le_of_eq (HandleVector.index_nextKey net.domains))
  have hgrows := grows_addEdge (net.addTimepoint dom)
    ⟨.origin, net.domains.nextKey, dom.upper, .permanent⟩
  exact ((h.addTimepoint dom).addEdge horigin hnew).addEdge
    (hgrows.timepoint _ hnew).1 (hgrows.timepoint _ horigin).1

/-- The edges of a bounded timepoint enforce its domain. -/
theorem Enforced.addBounded (h : net.Enforced) (hwf : net.WellFormed) (dom : Domain) :
    (net.addBounded dom).Enforced := by
  have hgrows := grows_addBounded net dom
  have hnew : ∀ tp : Timepoint, tp.index = net.numTimepoints → tp = net.domains.nextKey :=
    fun tp htp => eq_nextKey_iff.mpr htp
  have hdomain : ∀ tp : Timepoint, tp.index = net.numTimepoints →
      (net.addBounded dom).domain tp = dom := by
    intro tp htp
    rw [domain_addBounded, if_pos htp]
  refine ⟨?_, ?_, ?_⟩
  · rw [(hgrows.timepoint _ hwf.origin).2, h.origin]
  · intro tp htp hne
    rcases hasTimepoint_addBounded.mp htp with hidx | hold
    · rw [hdomain tp hidx, hnew tp hidx]
      refine ⟨(net.addTimepoint dom).edges.nextKey, ?_, ?_⟩
      · exact ((grows_addEdge _ _).edge _ (hasEdge_addEdge_nextKey _)).1
      · exact ((grows_addEdge _ _).edge _ (hasEdge_addEdge_nextKey _)).2.trans
          (edge_addEdge_nextKey _)
    · obtain ⟨id, hid, hedge⟩ := h.upper tp hold hne
      obtain ⟨hid', heq⟩ := hgrows.edge id hid
      exact ⟨id, hid', by rw [heq, hedge, (hgrows.timepoint tp hold).2]⟩
  · intro tp htp hne
    rcases hasTimepoint_addBounded.mp htp with hidx | hold
    · rw [hdomain tp hidx, hnew tp hidx]
      exact ⟨_, hasEdge_addEdge_nextKey _, edge_addEdge_nextKey _⟩
    · obtain ⟨id, hid, hedge⟩ := h.lower tp hold hne
      obtain ⟨hid', heq⟩ := hgrows.edge id hid
      exact ⟨id, hid', by rw [heq, hedge, (hgrows.timepoint tp hold).2]⟩

/-- The domain of the origin is that of every schedule. -/
theorem enforced_initial : initial.Enforced := by
  have hone : ∀ tp, initial.hasTimepoint tp = true → tp = .origin := by
    intro tp htp
    have hlt : tp.index < 1 := hasTimepoint_iff.mp htp
    exact Handle.index_inj.mp (Nat.lt_one_iff.mp hlt)
  exact ⟨rfl, fun tp htp hne => absurd (hone tp htp) hne,
    fun tp htp hne => absurd (hone tp htp) hne⟩

-- ================================================================== limits

/-- Weights stay within the magnitude that requests are checked for. -/
def Limited (net : Network) : Prop :=
  ∀ id, net.hasEdge id = true →
    -maxMagnitude ≤ (net.edge id).weight ∧ (net.edge id).weight ≤ maxMagnitude

/-- An edge of limited weight keeps all weights limited. -/
theorem Limited.addEdge (h : net.Limited) {e : Edge}
    (he : -maxMagnitude ≤ e.weight ∧ e.weight ≤ maxMagnitude) : (net.addEdge e).Limited := by
  intro id hid
  rw [edge_addEdge]
  split
  next => exact he
  next hne => exact h id (((hasEdge_addEdge e id).mp hid).resolve_left hne)

/-- A limited domain keeps all weights limited. -/
theorem Limited.addBounded (h : net.Limited) {dom : Domain}
    (hlower : -maxMagnitude ≤ dom.lower ∧ dom.lower ≤ maxMagnitude)
    (hupper : -maxMagnitude ≤ dom.upper ∧ dom.upper ≤ maxMagnitude) :
    (net.addBounded dom).Limited := by
  have hadded : (net.addTimepoint dom).Limited := h
  refine (hadded.addEdge hupper).addEdge ?_
  simp only
  omega

/-- The first network has no edges. -/
theorem limited_initial : initial.Limited :=
  fun _ hid => absurd (hasEdge_iff.mp hid) (Nat.not_lt_zero _)

end Network

end TemporalNetwork
