/-
Chains: edges followed backward, one for each node.

A partial map gives for a node the edge by which it was reached last.
Following these edges leads back towards where all began, and the edges
met on the way are a chain. A chain that ends, at a node for which the map
has nothing, meets no node twice: to come back to a node would be to go
round for ever. Hence it has fewer edges than there are timepoints, which
is what bounds every loop that follows such a map.

Edges are met against the orientation of the view. Read the right way
round they are a path from source to target, and a chain that comes back
to its start is a cycle.
-/
import Mathlib.Data.List.Nodup
import Mathlib.Data.List.Perm.Subperm
import TemporalNetwork.Proofs.Network.Growth

namespace TemporalNetwork

namespace Network

variable {net : Network} {d : Direction} {x y z : Timepoint} {e : EdgeId} {es fs : List EdgeId}

-- ================================================================= weights

/-- The weight of a list is the sum of those of its parts. -/
theorem weight_append (es fs : List EdgeId) :
    net.weight (es ++ fs) = net.weight es + net.weight fs := by
  induction es with
  | nil => exact (Int.zero_add _).symm
  | cons e es ih =>
      rw [List.cons_append, weight_cons, weight_cons, ih]
      omega

/-- The weight of a list does not depend on its direction. -/
theorem weight_reverse (es : List EdgeId) : net.weight es.reverse = net.weight es := by
  induction es with
  | nil => rfl
  | cons e es ih =>
      have hsingle : net.weight [e] = (net.edge e).weight := Int.add_zero _
      rw [List.reverse_cons, weight_append, ih, hsingle, weight_cons]
      omega

-- ================================================================== chains

/-- Following the map from a node the edges are met, up to another node. -/
inductive Chain (net : Network) (d : Direction) (next : Timepoint → Option EdgeId) :
    Timepoint → List EdgeId → Timepoint → Prop where
  | nil (x : Timepoint) : Chain net d next x [] x
  | cons {x y : Timepoint} {e : EdgeId} {es : List EdgeId} (step : next x = some e)
      (head : (net.edge e).head d = x) (rest : Chain net d next ((net.edge e).tail d) es y) :
      Chain net d next x (e :: es) y

variable {next next' : Timepoint → Option EdgeId}

/-- Chains can be joined where the first ends. -/
theorem Chain.append (h : net.Chain d next x es y) (h' : net.Chain d next y fs z) :
    net.Chain d next x (es ++ fs) z := by
  induction h with
  | nil => exact h'
  | cons step head _ ih => exact .cons step head (ih h')

/-- A chain can be cut anywhere. -/
theorem Chain.split (h : net.Chain d next x (es ++ fs) y) :
    ∃ z, net.Chain d next x es z ∧ net.Chain d next z fs y := by
  induction es generalizing x with
  | nil => exact ⟨x, .nil x, h⟩
  | cons e es ih =>
      cases h with
      | cons step head rest =>
          obtain ⟨z, hfirst, hlast⟩ := ih rest
          exact ⟨z, .cons step head hfirst, hlast⟩

/-- The first edge of a chain leads to the node it starts from. -/
theorem Chain.head_eq (h : net.Chain d next x (e :: es) y) : (net.edge e).head d = x := by
  cases h with
  | cons step head rest => exact head

/-- The edges of a chain are those that the map has for their heads. -/
theorem Chain.next_head (h : net.Chain d next x es y) (he : e ∈ es) :
    next ((net.edge e).head d) = some e := by
  induction h with
  | nil => exact absurd he List.not_mem_nil
  | cons step head _ ih =>
      rcases List.mem_cons.mp he with rfl | he
      · rw [head, step]
      · exact ih he

/-- The map need only be the same at the nodes that are left. -/
theorem Chain.congr (h : net.Chain d next x es y)
    (hsame : ∀ e ∈ es, next' ((net.edge e).head d) = next ((net.edge e).head d)) :
    net.Chain d next' x es y := by
  induction h with
  | nil => exact .nil _
  | @cons x y e es step head rest ih =>
      have hfirst := hsame e List.mem_cons_self
      rw [head, step] at hfirst
      exact .cons hfirst head (ih fun e he => hsame e (List.mem_cons_of_mem _ he))

/-- The map may be another at a node that no edge of it leads to. -/
theorem Chain.update (h : net.Chain d next x es y) (hx : x ≠ z)
    (hz : ∀ w e, next w = some e → (net.edge e).tail d ≠ z)
    (hsame : ∀ w, w ≠ z → next' w = next w) : net.Chain d next' x es y := by
  induction h with
  | nil => exact .nil _
  | cons step head _ ih =>
      exact .cons ((hsame _ hx).trans step) head (ih (hz _ _ step))

/-- A chain stays one where its edges say the same. -/
theorem Chain.transfer {net' : Network} (h : net.Chain d next x es y)
    (hsame : ∀ e ∈ es, net'.edge e = net.edge e) : net'.Chain d next x es y := by
  induction h with
  | nil => exact .nil _
  | @cons x y e es step head rest ih =>
      have hedge := hsame e List.mem_cons_self
      have hrest := ih fun e he => hsame e (List.mem_cons_of_mem _ he)
      rw [← hedge] at head hrest
      exact .cons step head hrest

/-- A function that each step accounts for is accounted for by a chain. -/
theorem Chain.weight_le (h : net.Chain d next x es y) {f : Timepoint → Int}
    (hf : ∀ x e, next x = some e → f ((net.edge e).tail d) + (net.edge e).weight ≤ f x) :
    f y + net.weight es ≤ f x := by
  induction h with
  | nil => exact Int.le_of_eq (Int.add_zero _)
  | cons step _ _ ih =>
      have := hf _ _ step
      rw [weight_cons]
      omega

/-- Edges that a function respects put a limit on its fall along a chain. -/
theorem Chain.le_weight (h : net.Chain d next x es y) {f : Timepoint → Int}
    (hf : ∀ e ∈ es, f ((net.edge e).head d) ≤ f ((net.edge e).tail d) + (net.edge e).weight) :
    f x ≤ f y + net.weight es := by
  induction h with
  | nil => exact Int.le_of_eq (Int.add_zero _).symm
  | @cons x y e es step head rest ih =>
      have hfirst := hf e List.mem_cons_self
      have hrest := ih fun e he => hf e (List.mem_cons_of_mem _ he)
      rw [head] at hfirst
      rw [weight_cons]
      omega

/-- Nothing is met from a node for which the map has nothing. -/
theorem Chain.eq_nil (h : net.Chain d next x es y) (hx : next x = none) : es = [] := by
  cases h with
  | nil => rfl
  | cons step head rest =>
      rw [hx] at step
      cases step

/-- Two chains from a node that end meet the same edges. -/
theorem Chain.unique (h : net.Chain d next x es y) (hy : next y = none)
    (h' : net.Chain d next x fs z) (hz : next z = none) : es = fs := by
  induction h generalizing fs with
  | nil =>
      cases h' with
      | nil => rfl
      | cons step head rest =>
          rw [hy] at step
          cases step
  | cons step head rest ih =>
      cases h' with
      | nil =>
          rw [hz] at step
          cases step
      | cons step' head' rest' =>
          rw [step] at step'
          cases step'
          rw [ih hy rest']

/-- A chain that ends leaves no node twice, nor its last node at all. -/
theorem Chain.nodup (h : net.Chain d next x es y) (hy : next y = none) :
    (y :: es.map fun e => (net.edge e).head d).Nodup := by
  induction h with
  | nil => exact List.nodup_singleton _
  | @cons x y e es step head rest ih =>
      obtain ⟨hlast, hrest⟩ := List.nodup_cons.mp (ih hy)
      have hx : x ≠ y := by
        rintro rfl
        rw [hy] at step
        cases step
      have hnew : x ∉ es.map fun e => (net.edge e).head d := by
        intro hmem
        obtain ⟨e', he', hhead⟩ := List.mem_map.mp hmem
        obtain ⟨fs, gs, rfl⟩ := List.append_of_mem he'
        -- from the second time the node is met the same chain would be left
        obtain ⟨z, -, hagain⟩ := rest.split
        obtain rfl : x = z := hhead.symm.trans hagain.head_eq
        have hlength := congrArg List.length (hagain.unique hy (.cons step head rest) hy)
        simp only [List.length_cons, List.length_append] at hlength
        omega
      rw [List.map_cons, head]
      refine List.nodup_cons.mpr ⟨?_, List.nodup_cons.mpr ⟨hnew, hrest⟩⟩
      rw [List.mem_cons]
      rintro (heq | hmem)
      · exact hx heq.symm
      · exact hlast hmem

/-- A chain that ends leads up to each node that it passes, which it has
not met before. -/
theorem Chain.exists_upTo (h : net.Chain d next x es y) (hy : next y = none) (he : e ∈ es) :
    ∃ fs ⊆ es, net.Chain d next x fs ((net.edge e).head d) ∧
      ∀ i ∈ fs, (net.edge i).head d ≠ (net.edge e).head d := by
  obtain ⟨fs, gs, rfl⟩ := List.append_of_mem he
  obtain ⟨z, hfirst, hlast⟩ := h.split
  obtain rfl : (net.edge e).head d = z := hlast.head_eq
  refine ⟨fs, List.subset_append_left fs _, hfirst, fun i hi heq => ?_⟩
  have hnodup := (List.nodup_cons.mp (h.nodup hy)).2
  rw [List.map_append, List.map_cons] at hnodup
  have hdisjoint := (List.nodup_append.mp hnodup).2.2
  exact hdisjoint _ (List.mem_map.mpr ⟨i, hi, heq⟩) _ List.mem_cons_self rfl

/-- There are as many timepoints as the network counts. -/
theorem length_timepoints (net : Network) : net.timepoints.length = net.numTimepoints := by
  unfold timepoints numTimepoints HandleVector.keys
  rw [List.length_map, List.length_range]

/-- The timepoints are listed completely. -/
theorem mem_timepoints {tp : Timepoint} : tp ∈ net.timepoints ↔ net.hasTimepoint tp = true := by
  rw [hasTimepoint_iff]
  exact HandleVector.mem_keys net.domains tp

/-- Timepoints without repetition are no more than the network has. -/
theorem length_le_numTimepoints {xs : List Timepoint} (hnodup : xs.Nodup)
    (hxs : ∀ x ∈ xs, net.hasTimepoint x = true) : xs.length ≤ net.numTimepoints := by
  rw [← length_timepoints]
  exact (hnodup.subperm fun x hx => mem_timepoints.mpr (hxs x hx)).length_le

/-- A chain that ends has fewer edges than there are timepoints. -/
theorem Chain.length_lt (h : net.Chain d next x es y) (hy : next y = none)
    (hnet : net.WellFormed) (hes : ∀ e ∈ es, net.hasEdge e = true)
    (hlast : net.hasTimepoint y = true) : es.length < net.numTimepoints := by
  have htimepoint : ∀ x ∈ y :: es.map fun e => (net.edge e).head d,
      net.hasTimepoint x = true := by
    intro x hx
    rcases List.mem_cons.mp hx with rfl | hx
    · exact hlast
    · obtain ⟨e, he, rfl⟩ := List.mem_map.mp hx
      exact hnet.head (hes e he) d
  have hlength := length_le_numTimepoints (h.nodup hy) htimepoint
  rw [List.length_cons, List.length_map] at hlength
  exact hlength

-- ============================================================ orientation

/-- The edges of a chain in the order in which a path has them. -/
def pathOf (d : Direction) (es : List EdgeId) : List EdgeId :=
  match d with
  | .forward => es.reverse
  | .backward => es

/-- A chain weighs as much as the path that is read off it. -/
theorem weight_pathOf (d : Direction) (es : List EdgeId) :
    net.weight (pathOf d es) = net.weight es := by
  cases d with
  | forward => exact weight_reverse es
  | backward => rfl

/-- A chain of the forward view is a path that leads to where it began. -/
theorem Chain.path_forward (h : net.Chain .forward next x es y) : net.Path y es.reverse x := by
  induction h with
  | nil => rfl
  | @cons x y e es step head rest ih =>
      rw [List.reverse_cons]
      exact ih.append ⟨rfl, head⟩

/-- In the backward view a chain is a path as it stands. -/
theorem Chain.path_backward (h : net.Chain .backward next x es y) : net.Path x es y := by
  induction h with
  | nil => rfl
  | cons step head rest ih => exact ⟨head, ih⟩

/-- A chain that comes back to where it began is a cycle. -/
theorem Chain.isCycle (h : net.Chain d next x es x) (hne : es ≠ []) :
    net.isCycle (pathOf d es) = true := by
  cases d with
  | forward => exact h.path_forward.isCycle fun hnil => hne (List.reverse_eq_nil_iff.mp hnil)
  | backward => exact h.path_backward.isCycle hne

end Network

end TemporalNetwork
