/-
Walks along edges, and sets of edges without a schedule.

The weights of a walk add up to a bound on the difference between its
ends. What a network says about a set of edges is therefore said by the
walks along them: how far apart two timepoints can be is a least weight,
and a closed walk of negative weight leaves no schedule.

# The two views

The edges of a set that belong to a view form a graph of their own.
`Walk` goes from sources to targets in either view; `Leads` goes the way
the view itself is oriented, so that what leads from the origin to a
timepoint bounds it from above in the forward view and from below in the
backward one. The algorithms work on `Leads`, the same in both views.

# Inconsistency

Directed edges bound a timepoint from one side only. Besides a negative
cycle in a view there is thus a second way in which edges exclude each
other: the two bounds that they put on one timepoint may cross.
-/
import Mathlib.Data.Set.Basic
import Mathlib.Order.Bounds.Basic
import TemporalNetwork.Network

namespace TemporalNetwork

namespace Edge

/-- Every edge belongs to a view. -/
theorem exists_isIn (e : Edge) : ∃ d, e.isIn d = true := by
  unfold isIn
  cases e.kind with
  | permanent => exact ⟨.forward, rfl⟩
  | conditional g => exact ⟨.forward, rfl⟩
  | directed g view => exact ⟨view, beq_self_eq_true view⟩

/-- A shared edge belongs to each view. -/
theorem isIn_of_isShared {e : Edge} (h : e.isShared = true) (d : Direction) :
    e.isIn d = true := by
  unfold isShared at h
  unfold isIn
  cases hkind : e.kind with
  | permanent => rfl
  | conditional g => rfl
  | directed g view =>
      rw [hkind] at h
      cases h

/-- The times respect the constraint of the edge. -/
def Holds (τ : Timepoint → Int) (e : Edge) : Prop := τ e.target - τ e.source ≤ e.weight

end Edge

namespace Network

variable {net : Network} {S T : Set EdgeId} {d : Direction} {x y z : Timepoint} {v w : Int}
  {e : EdgeId} {es fs : List EdgeId}

-- =================================================================== walks

/-- There is a walk along edges of the set, each from its source to its
target, of the given weight. -/
inductive Walk (net : Network) (S : Set EdgeId) : Timepoint → Timepoint → Int → Prop where
  | nil (x : Timepoint) : Walk net S x x 0
  | cons {id : EdgeId} {x y : Timepoint} {w : Int} (mem : id ∈ S)
      (source : (net.edge id).source = x) (rest : Walk net S (net.edge id).target y w) :
      Walk net S x y ((net.edge id).weight + w)

/-- An edge of the set is a walk. -/
theorem Walk.single {id : EdgeId} (h : id ∈ S) :
    net.Walk S (net.edge id).source (net.edge id).target (net.edge id).weight := by
  have hnil : net.Walk S (net.edge id).target (net.edge id).target 0 := .nil _
  have := Walk.cons h rfl hnil
  rwa [Int.add_zero] at this

/-- Walks can be joined, and their weights add up. -/
theorem Walk.append (h : net.Walk S x y v) (h' : net.Walk S y z w) :
    net.Walk S x z (v + w) := by
  induction h with
  | nil => rwa [Int.zero_add]
  | cons mem source _ ih =>
      rw [Int.add_assoc]
      exact .cons mem source (ih h')

/-- A walk stays one where its edges are there and say the same. -/
theorem Walk.transfer {net' : Network} (hS : ∀ id ∈ S, id ∈ T ∧ net'.edge id = net.edge id)
    (h : net.Walk S x y w) : net'.Walk T x y w := by
  induction h with
  | nil => exact .nil _
  | cons mem source _ ih =>
      obtain ⟨hT, hedge⟩ := hS _ mem
      rw [← hedge]
      rw [← hedge] at source ih
      exact .cons hT source ih

/-- A walk that may use one more edge does without it, or is cut by it in
two. -/
theorem Walk.cut {a : EdgeId} (h : net.Walk (insert a S) x y w) :
    net.Walk S x y w ∨ ∃ before after, net.Walk (insert a S) x (net.edge a).source before ∧
      net.Walk (insert a S) (net.edge a).target y after ∧
        before + (net.edge a).weight + after = w := by
  induction h with
  | nil => exact .inl (.nil _)
  | @cons id x y w mem source rest ih =>
      by_cases ha : id = a
      · subst ha
        subst source
        exact .inr ⟨0, w, .nil _, rest, by omega⟩
      · rcases ih with hrest | ⟨before, after, hbefore, hafter, hsum⟩
        · exact .inl (.cons (mem.resolve_left ha) source hrest)
        · exact .inr ⟨_, after, .cons mem source hbefore, hafter, by omega⟩

/-- A loop that is not negative can be left out. -/
theorem Walk.withoutLoop {a : EdgeId} (hloop : (net.edge a).isLoop = true)
    (hweight : 0 ≤ (net.edge a).weight) (h : net.Walk (insert a S) x y w) :
    ∃ v, v ≤ w ∧ net.Walk S x y v := by
  induction h with
  | nil => exact ⟨0, Int.le_refl 0, .nil _⟩
  | @cons id x y w mem source rest ih =>
      obtain ⟨v, hle, hwalk⟩ := ih
      by_cases ha : id = a
      · subst ha
        have hends : (net.edge id).source = (net.edge id).target := by
          simpa [Edge.isLoop] using hloop
        rw [← hends, source] at hwalk
        exact ⟨v, by omega, hwalk⟩
      · exact ⟨_, by omega, .cons (mem.resolve_left ha) source hwalk⟩

/-- A function that respects each edge respects each walk. -/
theorem Walk.le_of_respected {f : Timepoint → Int}
    (hf : ∀ id ∈ S, f (net.edge id).target ≤ f (net.edge id).source + (net.edge id).weight)
    (h : net.Walk S x y w) : f y ≤ f x + w := by
  induction h with
  | nil => omega
  | cons mem source _ ih =>
      have := hf _ mem
      rw [source] at this
      omega

-- =================================================================== paths

theorem weight_cons (id : EdgeId) (es : List EdgeId) :
    net.weight (id :: es) = (net.edge id).weight + net.weight es := rfl

/-- The edges lead from one timepoint to the other, in order. -/
def Path (net : Network) : Timepoint → List EdgeId → Timepoint → Prop
  | x, [], y => x = y
  | x, e :: es, y => (net.edge e).source = x ∧ net.Path (net.edge e).target es y

/-- Paths can be joined. -/
theorem Path.append (h : net.Path x es y) (h' : net.Path y fs z) : net.Path x (es ++ fs) z := by
  induction es generalizing x with
  | nil =>
      obtain rfl : x = y := h
      exact h'
  | cons e es ih => exact ⟨h.1, ih h.2⟩

/-- A path can be cut anywhere. -/
theorem Path.split (h : net.Path x (es ++ fs) y) :
    ∃ z, net.Path x es z ∧ net.Path z fs y := by
  induction es generalizing x with
  | nil => exact ⟨x, rfl, h⟩
  | cons e es ih =>
      obtain ⟨z, hbefore, hafter⟩ := ih h.2
      exact ⟨z, ⟨h.1, hbefore⟩, hafter⟩

/-- To follow a path is to walk along its edges. -/
theorem Path.walk (h : net.Path x es y) (hS : ∀ id ∈ es, id ∈ S) :
    net.Walk S x y (net.weight es) := by
  induction es generalizing x with
  | nil =>
      obtain rfl : x = y := h
      exact .nil x
  | cons e es ih =>
      have hrest := ih h.2 fun id hid => hS id (List.mem_cons_of_mem e hid)
      exact .cons (hS e List.mem_cons_self) h.1 hrest

/-- A path passes the test for paths. -/
theorem Path.isPath (h : net.Path x es y) : net.isPath es = true := by
  induction es generalizing x with
  | nil => rfl
  | cons e es ih =>
      cases es with
      | nil => rfl
      | cons e' es =>
          simp only [Network.isPath, Bool.and_eq_true, beq_iff_eq]
          exact ⟨h.2.1.symm, ih h.2⟩

/-- The last edge of a path leads to its end. -/
theorem Path.target_getLast (h : net.Path x es y) (he : es.getLast? = some e) :
    (net.edge e).target = y := by
  induction es generalizing x with
  | nil => cases he
  | cons first es ih =>
      cases es with
      | nil =>
          cases he
          exact h.2
      | cons next es =>
          rw [List.getLast?_cons_cons] at he
          exact ih h.2 he

/-- A path that comes back to where it began is a cycle. -/
theorem Path.isCycle (h : net.Path x es x) (hne : es ≠ []) : net.isCycle es = true := by
  cases es with
  | nil => exact absurd rfl hne
  | cons e es =>
      obtain ⟨last, hlast⟩ : ∃ last, (e :: es).getLast? = some last :=
        ⟨_, List.getLast?_eq_some_getLast hne⟩
      unfold Network.isCycle
      simp only [List.head?_cons, hlast, h.isPath, Bool.and_true, beq_iff_eq]
      rw [h.target_getLast hlast, h.1]

/-- Edges each of which starts where the one before ends are a path. -/
theorem path_of_isPath {first last : EdgeId} (h : net.isPath es = true)
    (hfirst : es.head? = some first) (hlast : es.getLast? = some last) :
    net.Path (net.edge first).source es (net.edge last).target := by
  induction es generalizing first with
  | nil => cases hfirst
  | cons id rest ih =>
      cases hfirst
      refine ⟨rfl, ?_⟩
      cases rest with
      | nil =>
          cases hlast
          rfl
      | cons next rest =>
          simp only [isPath, Bool.and_eq_true, beq_iff_eq] at h
          rw [h.1]
          rw [List.getLast?_cons_cons] at hlast
          exact ih h.2 rfl hlast

/-- A cycle is a path that comes back to where it began. -/
theorem path_of_isCycle (h : net.isCycle es = true) : ∃ x, net.Path x es x := by
  unfold isCycle at h
  cases hfirst : es.head? with
  | none => simp [hfirst] at h
  | some first =>
      cases hlast : es.getLast? with
      | none => simp [hfirst, hlast] at h
      | some last =>
          simp only [hfirst, hlast, Bool.and_eq_true, beq_iff_eq] at h
          have hpath := path_of_isPath h.2 hfirst hlast
          rw [h.1] at hpath
          exact ⟨_, hpath⟩

-- =================================================================== views

/-- The edges of the set that belong to the view. -/
def inView (net : Network) (d : Direction) (S : Set EdgeId) : Set EdgeId :=
  {id | id ∈ S ∧ (net.edge id).isIn d = true}

/-- A walk of the given weight in a view, the way the view is oriented. -/
def Leads (net : Network) (S : Set EdgeId) (d : Direction) (x y : Timepoint) (w : Int) : Prop :=
  match d with
  | .forward => net.Walk (net.inView .forward S) x y w
  | .backward => net.Walk (net.inView .backward S) y x w

/-- Every timepoint leads to itself, at no cost. -/
theorem Leads.refl (x : Timepoint) : net.Leads S d x x 0 := by
  cases d <;> exact .nil x

/-- In either view an edge leads from its tail to its head. -/
theorem Leads.edge {id : EdgeId} (h : id ∈ S) (hd : (net.edge id).isIn d = true) :
    net.Leads S d ((net.edge id).tail d) ((net.edge id).head d) (net.edge id).weight := by
  cases d <;> exact Walk.single ⟨h, hd⟩

/-- What leads on can be joined. -/
theorem Leads.trans (h : net.Leads S d x y v) (h' : net.Leads S d y z w) :
    net.Leads S d x z (v + w) := by
  cases d with
  | forward => exact Walk.append h h'
  | backward =>
      rw [Int.add_comm]
      exact Walk.append h' h

/-- A walk goes on along one more edge. -/
theorem Leads.snoc {id : EdgeId} (h : net.Leads S d x ((net.edge id).tail d) v) (hS : id ∈ S)
    (hd : (net.edge id).isIn d = true) :
    net.Leads S d x ((net.edge id).head d) (v + (net.edge id).weight) :=
  h.trans (.edge hS hd)

/-- What leads on does so in every network that keeps the edges. -/
theorem Leads.transfer {net' : Network} (hS : ∀ id ∈ S, id ∈ T ∧ net'.edge id = net.edge id)
    (h : net.Leads S d x y w) : net'.Leads T d x y w := by
  have hview : ∀ id ∈ net.inView d S, id ∈ net'.inView d T ∧ net'.edge id = net.edge id := by
    intro id hid
    obtain ⟨hT, hedge⟩ := hS id hid.1
    exact ⟨⟨hT, hedge ▸ hid.2⟩, hedge⟩
  cases d <;> exact Walk.transfer hview h

/-- More edges lead at least as far. -/
theorem Leads.mono (hST : S ⊆ T) (h : net.Leads S d x y w) : net.Leads T d x y w :=
  h.transfer fun _ hid => ⟨hST hid, rfl⟩

/-- Shared edges are seen from either view. -/
theorem inView_of_isShared (hS : ∀ id ∈ S, (net.edge id).isShared = true) :
    net.inView d S = S :=
  Set.Subset.antisymm (fun _ hid => hid.1) fun id hid =>
    ⟨hid, Edge.isIn_of_isShared (hS id hid) d⟩

/-- Along shared edges every walk is one of each view. -/
theorem leads_forward_iff (hS : ∀ id ∈ S, (net.edge id).isShared = true) :
    net.Leads S .forward x y w ↔ net.Walk S x y w := by
  have hview := inView_of_isShared (d := .forward) hS
  unfold Leads
  rw [hview]

/-- In the backward view it is read from its end to its start. -/
theorem leads_backward_iff (hS : ∀ id ∈ S, (net.edge id).isShared = true) :
    net.Leads S .backward x y w ↔ net.Walk S y x w := by
  have hview := inView_of_isShared (d := .backward) hS
  unfold Leads
  rw [hview]

/-- Values that respect every edge respect whatever leads on. -/
theorem Leads.le_of_respected {f : Timepoint → Int}
    (hf : ∀ id ∈ S, (net.edge id).isIn d = true →
      f ((net.edge id).head d) ≤ f ((net.edge id).tail d) + (net.edge id).weight)
    (h : net.Leads S d x y w) : f y ≤ f x + w := by
  cases d with
  | forward => exact Walk.le_of_respected (fun id hid => hf id hid.1 hid.2) h
  | backward =>
      -- against the orientation of the edges the function is negated
      have := Walk.le_of_respected (f := fun z => -f z)
        (fun id hid => by
          have := hf id hid.1 hid.2
          simp only [Edge.head, Edge.tail] at this
          omega) h
      omega

-- =========================================================== inconsistency

/-- No schedule respects the edges: they close a negative cycle in a
view, or put an upper bound on a timepoint that is below a lower one. -/
def Inconsistent (net : Network) (S : Set EdgeId) : Prop :=
  (∃ d x w, net.Walk (net.inView d S) x x w ∧ w < 0) ∨
    ∃ x there back, net.Walk (net.inView .forward S) .origin x there ∧
      net.Walk (net.inView .backward S) x .origin back ∧ there + back < 0

/-- A negative cycle is inconsistent. -/
theorem inconsistent_of_cycle (h : net.Leads S d x x w) (hw : w < 0) : net.Inconsistent S := by
  cases d with
  | forward => exact .inl ⟨.forward, x, w, h, hw⟩
  | backward => exact .inl ⟨.backward, x, w, h, hw⟩

/-- Bounds that cross are inconsistent. -/
theorem inconsistent_of_crossing (hv : net.Leads S .forward .origin x v)
    (hw : net.Leads S .backward .origin x w) (h : v + w < 0) : net.Inconsistent S :=
  .inr ⟨x, v, w, hv, hw, h⟩

/-- A closed walk in a view, given by its edges. -/
theorem inconsistent_of_isCycle (hcycle : net.isCycle es = true)
    (hweight : net.weight es < 0) (hview : ∀ id ∈ es, (net.edge id).isIn d = true)
    (hS : ∀ id ∈ es, id ∈ S) : net.Inconsistent S := by
  obtain ⟨x, hpath⟩ := path_of_isCycle hcycle
  have hwalk : net.Walk (net.inView d S) x x (net.weight es) :=
    hpath.walk fun id hid => ⟨hS id hid, hview id hid⟩
  exact .inl ⟨d, x, _, hwalk, hweight⟩

/-- A set that is inconsistent is so in every network that keeps its edges. -/
theorem Inconsistent.transfer {net' : Network}
    (hS : ∀ id ∈ S, id ∈ T ∧ net'.edge id = net.edge id) (h : net.Inconsistent S) :
    net'.Inconsistent T := by
  rcases h with ⟨d, x, w, h, hw⟩ | ⟨x, v, w, hv, hw, h⟩
  · cases d with
    | forward => exact inconsistent_of_cycle (Leads.transfer (d := .forward) hS h) hw
    | backward => exact inconsistent_of_cycle (Leads.transfer (d := .backward) hS h) hw
  · exact inconsistent_of_crossing (Leads.transfer (d := .forward) hS hv)
      (Leads.transfer (d := .backward) hS hw) h

/-- A larger set is inconsistent as well. -/
theorem Inconsistent.mono (hST : S ⊆ T) (h : net.Inconsistent S) : net.Inconsistent T :=
  h.transfer fun _ hid => ⟨hST hid, rfl⟩

/-- Potentials that respect the edges of each view, and do not cross,
certify that the edges are consistent. -/
theorem not_inconsistent_of_respected {f : Direction → Timepoint → Int}
    (hf : ∀ d, ∀ id ∈ S, (net.edge id).isIn d = true →
      f d ((net.edge id).head d) ≤ f d ((net.edge id).tail d) + (net.edge id).weight)
    (horigin : ∀ d, f d .origin = 0) (hcross : ∀ x, 0 ≤ f .forward x + f .backward x) :
    ¬ net.Inconsistent S := by
  rintro (⟨d, x, w, h, hw⟩ | ⟨x, v, w, hv, hw, h⟩)
  · have hlead : net.Leads S d x x w := by cases d <;> exact h
    have := hlead.le_of_respected (hf d)
    omega
  · have hlv : net.Leads S .forward .origin x v := hv
    have hlw : net.Leads S .backward .origin x w := hw
    have h1 := hlv.le_of_respected (hf .forward)
    have h2 := hlw.le_of_respected (hf .backward)
    have h3 := hcross x
    rw [horigin] at h1 h2
    omega

-- ================================================================= guards

/-- The edges in force while the literals of the set are the true ones. -/
def enabledBy (net : Network) (M : Set Literal) : Set EdgeId :=
  {id | net.hasEdge id = true ∧ ∀ g, (net.edge id).guard? = some g → g ∈ M}

/-- The literals exclude each other: with all of them true the edges in
force have no schedule. -/
def Excludes (net : Network) (M : Set Literal) : Prop := net.Inconsistent (net.enabledBy M)

/-- More true literals enable more edges. -/
theorem enabledBy_mono {M N : Set Literal} (h : M ⊆ N) : net.enabledBy M ⊆ net.enabledBy N :=
  fun _ hid => ⟨hid.1, fun g hg => h (hid.2 g hg)⟩

/-- What is excluded by some literals is excluded by more. -/
theorem Excludes.mono {M N : Set Literal} (h : net.Excludes M) (hMN : M ⊆ N) :
    net.Excludes N :=
  Inconsistent.mono (enabledBy_mono hMN) h

end Network

end TemporalNetwork
