/-
Searches with a queue, in whatever order they take nodes as near as each
other.

A search looks for the nearest node among its labels. It can as well keep
its nodes in a queue, under the distance of their labels: a node is queued
whenever its label changes, and an entry whose label was improved since is
stale and is passed over when it comes out. What comes out is an entry
below which there is no other. Of several such entries any may come out,
as it is the queue that decides: which nodes are found through which edges
depends on it.

The settled nodes are recorded as before, but no turn of the loop depends
on them. Entries are never repeated, as labels only improve, so that a
node is settled once: the entry of its label is the last one for it that is
not stale. All that is known of searches holds of these
(`Runs.exists_take`), and the search that looks for the nearest node takes
its entries in one of the orders (`exists_turns_of_run`).

# Why they end

A turn takes one entry out, and if it settles a node it puts in no more
than the edges that leave the node. So what is left is one turn for each
entry, and one for each edge that leaves a node still to be settled.
-/
import Mathlib.Data.Finset.Max
import Mathlib.Data.Multiset.AddSub
import TemporalNetwork.Proofs.ActiveGraph.Paths

namespace TemporalNetwork

/-- A search, and the queue of the nodes that it has labelled. -/
structure QueuedSearch where
  search : PathSearch
  /-- The distance of the entry that was taken out last. -/
  latest : Int
  /-- Nodes with the distances that they were labelled with. -/
  queue : Multiset (Timepoint × Int)

namespace QueuedSearch

open PathSearch
open ActiveGraph (Grounded)

variable {net : Network} {g : ActiveGraph} {sharedOnly : Bool} {q q' q'' : QueuedSearch}
  {s s' : PathSearch} {queue : Multiset (Timepoint × Int)} {d : Direction}
  {node start x : Timepoint} {e : Timepoint × Int} {id : EdgeId} {ids : List EdgeId}
  {label : PathLabel} {distance : Int} {m n : Nat}

-- ================================================================== turns

/-- Only the start is labelled, and queued. -/
def initial (d : Direction) (start : Timepoint) : QueuedSearch :=
  ⟨.initial d start, 0, {(start, 0)}⟩

/-- The entry of a node whose label has changed. -/
def changed (before after : PathSearch) (node : Timepoint) : Multiset (Timepoint × Int) :=
  match after.labels.get? node with
  | none => 0
  | some label => if before.labels.get? node = some label then 0 else {(node, label.distance)}

/-- Looks at one edge that leaves the node taken out last, and queues the
node that it leads to if that is labelled anew. -/
def scanEdge (net : Network) (g : ActiveGraph) (sharedOnly : Bool) (node : Timepoint)
    (q : QueuedSearch) (id : EdgeId) : Checked QueuedSearch := do
  let s ← PathSearch.scanEdge net g sharedOnly node q.latest q.search id
  let head := (net.edge id).head q.search.view
  return { q with search := s, queue := q.queue + changed q.search s head }

/-- Takes an entry out. If it is not stale its node is settled, and the
edges that leave the node are looked at. -/
def take (net : Network) (g : ActiveGraph) (sharedOnly : Bool) (e : Timepoint × Int)
    (q : QueuedSearch) : Checked QueuedSearch :=
  let rest := q.queue.erase e
  if (q.search.labels.get? e.1).any (·.distance = e.2) then
    (g.out q.search.view e.1).foldlM (scanEdge net g sharedOnly e.1)
      ⟨{ q.search with settled := q.search.settled.insert e.1 }, e.2, rest⟩
  else .ok { q with latest := e.2, queue := rest }

/-- No other entry is below this one. -/
def IsNext (q : QueuedSearch) (e : Timepoint × Int) : Prop :=
  e ∈ q.queue ∧ ∀ other ∈ q.queue, e.2 ≤ other.2

/-- So many turns, one after the other, each with any of the entries that
may come out. -/
inductive Turns (net : Network) (g : ActiveGraph) (sharedOnly : Bool) :
    Nat → QueuedSearch → QueuedSearch → Prop where
  | none (q : QueuedSearch) : Turns net g sharedOnly 0 q q
  | next {n : Nat} {e : Timepoint × Int} {q q' q'' : QueuedSearch} (next : q.IsNext e)
      (first : take net g sharedOnly e q = .ok q') (others : Turns net g sharedOnly n q' q'') :
      Turns net g sharedOnly (n + 1) q q''

/-- Turns can be taken in two goes. -/
theorem Turns.trans (h : Turns net g sharedOnly m q q') (h' : Turns net g sharedOnly n q' q'') :
    Turns net g sharedOnly (m + n) q q'' := by
  induction h with
  | none q =>
      rw [Nat.zero_add]
      exact h'
  | next next first others ih =>
      rw [Nat.add_right_comm]
      exact .next next first (ih h')

/-- As long as something is queued, something may come out. -/
theorem exists_isNext (h : q.queue ≠ 0) : ∃ e, q.IsNext e :=
  Multiset.exists_min_image Prod.snd h

/-- The label is the one that the entry was made for. -/
theorem any_eq_true : ((s.labels.get? x).any (·.distance = distance)) = true ↔
    ∃ label, s.labels.get? x = some label ∧ label.distance = distance := by
  simp only [Option.any_eq_true, decide_eq_true_eq]

-- ============================================================== the queue

/-- The queue has an entry for each node that is labelled and not settled.
All other entries are above the labels of their nodes. -/
structure Queues (s : PathSearch) (distance : Int) (queue : Multiset (Timepoint × Int)) :
    Prop where
  nodup : queue.Nodup
  ahead (e : Timepoint × Int) : e ∈ queue → distance ≤ e.2
  entry (e : Timepoint × Int) : e ∈ queue → ∃ label, s.labels.get? e.1 = some label ∧
    label.distance ≤ e.2 ∧ (label.distance = e.2 → s.settled.contains e.1 = false)
  waiting (x : Timepoint) (label : PathLabel) : s.labels.get? x = some label →
    s.settled.contains x = false → (x, label.distance) ∈ queue

/-- The start is queued at distance 0. -/
theorem queues_initial (d : Direction) (start : Timepoint) :
    Queues (.initial d start) 0 {(start, 0)} := by
  have hstart : (PathSearch.initial d start).labels.get? start = some ⟨0, none⟩ := by
    simp only [PathSearch.initial, HandleMap.get?_insert, if_true]
  refine ⟨Multiset.nodup_singleton _, ?_, ?_, ?_⟩
  · intro e he
    rw [Multiset.mem_singleton.mp he]
  · intro e he
    rw [Multiset.mem_singleton.mp he]
    exact ⟨_, hstart, Int.le_refl 0, fun _ => HandleSet.contains_empty start⟩
  · intro x label hx _
    simp only [PathSearch.initial, HandleMap.get?_insert, HandleMap.get?_empty] at hx
    split at hx
    next heq =>
      cases hx
      rw [Handle.index_inj.mp heq]
      exact Multiset.mem_singleton_self _
    next => cases hx

/-- Either nothing changes when an edge is looked at, or the node that it
leads to has a better label. -/
theorem scanEdge_eq_ok (h : PathSearch.scanEdge net g sharedOnly node distance s id = .ok s') :
    s' = s ∨ ∃ total,
      (s.labels.get? ((net.edge id).head s.view)).all (total < ·.distance) = true ∧
        s' = s.improve ((net.edge id).head s.view) total id := by
  unfold PathSearch.scanEdge at h
  simp only at h
  split at h
  next =>
    cases h
    exact .inl rfl
  next =>
    split at h
    next =>
      cases h
      exact .inl rfl
    next =>
      simp only [Checked.bind_eq_ok, int32_eq_ok, Checked.require_eq_ok,
        Checked.pure_eq_ok] at h
      obtain ⟨_, -, _, -, _, -, total, -, rfl⟩ := h
      by_cases hbetter :
          (s.labels.get? ((net.edge id).head s.view)).all (total < ·.distance) = true
      · exact .inr ⟨total, hbetter, rfl⟩
      · left
        unfold improve
        rw [if_neg hbetter]

/-- A label that stays is not queued again. -/
theorem changed_self (s : PathSearch) (x : Timepoint) : changed s s x = 0 := by
  unfold changed
  split
  next => rfl
  next label hlabel => rw [if_pos hlabel]

/-- A better label is another one. -/
theorem changed_improve {total : Int}
    (hbetter : (s.labels.get? node).all (total < ·.distance) = true) :
    changed s (s.improve node total id) node = {(node, total)} := by
  have hnew : (s.improve node total id).labels.get? node = some ⟨total, some id⟩ := by
    rw [get?_labels_of_better hbetter, if_pos rfl]
  unfold changed
  rw [hnew]
  refine if_neg fun hsame => ?_
  rw [hsame] at hbetter
  exact Int.lt_irrefl total (of_decide_eq_true hbetter)

/-- A node is queued at most once for each edge. -/
theorem card_changed_le (s s' : PathSearch) (x : Timepoint) : (changed s s' x).card ≤ 1 := by
  unfold changed
  split
  next => exact Nat.zero_le 1
  next =>
    split
    next => exact Nat.zero_le 1
    next => exact Nat.le_of_eq (Multiset.card_singleton _)

/-- An entry below all others of its node is new. -/
theorem Queues.notMem (h : Queues s distance queue) {total : Int}
    (hbetter : (s.labels.get? node).all (total < ·.distance) = true) :
    (node, total) ∉ queue := by
  intro hmem
  obtain ⟨old, hold, hle, -⟩ := h.entry _ hmem
  rw [hold] at hbetter
  exact absurd (of_decide_eq_true hbetter) (Int.not_lt.mpr hle)

/-- A node that is not settled is queued under its better label, and its
old entry is stale. -/
theorem Queues.improve (h : Queues s distance queue) {total : Int}
    (hbetter : (s.labels.get? node).all (total < ·.distance) = true)
    (hopen : s.settled.contains node = false) (hle : distance ≤ total) :
    Queues (s.improve node total id) distance (queue + {(node, total)}) := by
  have hlabels : ∀ x, (s.improve node total id).labels.get? x
      = if node = x then some ⟨total, some id⟩ else s.labels.get? x :=
    get?_labels_of_better hbetter
  have hsettled := settled_improve s node total id
  have hmem : ∀ e, e ∈ queue + {(node, total)} ↔ e ∈ queue ∨ e = (node, total) := by
    intro e
    rw [Multiset.mem_add, Multiset.mem_singleton]
  refine ⟨?_, ?_, ?_, ?_⟩
  · -- the entry is new, as it is better than the label
    rw [Multiset.nodup_add]
    exact ⟨h.nodup, Multiset.nodup_singleton _,
      Multiset.disjoint_singleton.mpr (h.notMem hbetter)⟩
  · intro e he
    rcases (hmem e).mp he with hold | rfl
    · exact h.ahead e hold
    · exact hle
  · -- every entry is no better than the label, and that of the node is live
    intro e he
    rw [hlabels, hsettled]
    rcases (hmem e).mp he with hold | rfl
    · obtain ⟨label, hlabel, hlabelle, hlive⟩ := h.entry e hold
      by_cases hnode : node = e.1
      · rw [← hnode] at hlabel ⊢
        rw [hlabel] at hbetter
        have hlt : total < label.distance := of_decide_eq_true hbetter
        exact ⟨_, if_pos rfl, Int.le_of_lt (Int.lt_of_lt_of_le hlt hlabelle), fun _ => hopen⟩
      · rw [if_neg hnode]
        exact ⟨label, hlabel, hlabelle, hlive⟩
    · exact ⟨_, if_pos rfl, Int.le_refl total, fun _ => hopen⟩
  · -- and every label that is not settled waits under its distance
    intro x label hx hxopen
    rw [hlabels] at hx
    rw [hsettled] at hxopen
    rw [hmem]
    split at hx
    next heq =>
      cases hx
      rw [heq]
      exact .inr rfl
    next => exact .inl (h.waiting x label hx hxopen)

/-- One edge is looked at. -/
theorem Queues.scan (h : Queues s distance queue)
    (hscan : PathSearch.scanEdge net g sharedOnly node distance s id = .ok s')
    (hscans : Scans net g sharedOnly s s' distance [id]) :
    Queues s' distance (queue + changed s s' ((net.edge id).head s.view)) := by
  rcases scanEdge_eq_ok hscan with rfl | ⟨total, hbetter, rfl⟩
  · rw [changed_self, Multiset.add_zero]
    exact h
  have hnew : (s.improve ((net.edge id).head s.view) total id).labels.get?
      ((net.edge id).head s.view) = some ⟨total, some id⟩ := by
    rw [get?_labels_of_better hbetter, if_pos rfl]
  -- the labels of settled nodes are kept
  have hopen : s.settled.contains ((net.edge id).head s.view) = false := by
    by_contra hnot
    have hkept := hscans.kept _ (Bool.not_eq_false _ ▸ hnot)
    rw [← hkept, hnew] at hbetter
    exact Int.lt_irrefl total (of_decide_eq_true hbetter)
  have hle : distance ≤ total := by
    refine hscans.explores.ahead _ _ ?_ hnew
    rw [hscans.settled]
    exact hopen
  rw [changed_improve hbetter]
  exact h.improve hbetter hopen hle

section
variable (hnet : net.WellFormed) (hlimited : net.Limited) (hg : g.Grounded net)
include hnet hlimited hg

/-- The edges that leave a node are looked at as in any search, and each
queues one entry at most. -/
theorem Queues.exists_scanEdges (h : Queues q.search q.latest q.queue)
    (hexplores : Explores net g sharedOnly q.search q.latest)
    (hids : ∀ id ∈ ids, g.isActive id = true ∧ (net.edge id).isIn q.search.view = true ∧
      (net.edge id).tail q.search.view = node)
    (hlabel : q.search.labels.get? node = some label) (hdistance : label.distance ≤ q.latest)
    (hsettled : q.search.settled.contains node = true) (hle : q.latest ≤ 4 * maxMagnitude) :
    ∃ q', ids.foldlM (scanEdge net g sharedOnly node) q = .ok q' ∧
      PathSearch.scanEdges net g sharedOnly node q.latest q.search ids = .ok q'.search ∧
      q'.latest = q.latest ∧ Queues q'.search q'.latest q'.queue ∧
      q'.queue.card ≤ q.queue.card + ids.length := by
  induction ids generalizing q label with
  | nil => exact ⟨q, rfl, rfl, rfl, h, Nat.le_refl _⟩
  | cons id rest ih =>
      obtain ⟨hactive, hin, htail⟩ := hids id List.mem_cons_self
      obtain ⟨s₁, hscan, hscans⟩ := hexplores.exists_scanEdge hnet hlimited hg hactive hin
        (by rw [htail]; exact hlabel) hdistance (by rw [htail]; exact hsettled) hle
      rw [htail] at hscan
      have hview := hscans.continues.view
      obtain ⟨after, hafter, hafterle⟩ := hscans.continues.improved node label hlabel
      let q₁ : QueuedSearch := ⟨s₁, q.latest,
        q.queue + changed q.search s₁ ((net.edge id).head q.search.view)⟩
      have hfirst : scanEdge net g sharedOnly node q id = .ok q₁ := by
        unfold scanEdge
        rw [hscan]
        rfl
      obtain ⟨q', hrun, hrest, hlatest, hqueues, hcard⟩ := ih (q := q₁)
        (h.scan hscan hscans) hscans.explores
        (fun i hi => by rw [hview]; exact hids i (List.mem_cons_of_mem id hi)) hafter
        (Int.le_trans hafterle hdistance) (hscans.settled ▸ hsettled) hle
      refine ⟨q', ?_, ?_, hlatest, hqueues, ?_⟩
      · rw [List.foldlM_cons, hfirst]
        exact hrun
      · unfold PathSearch.scanEdges
        rw [hscan]
        exact hrest
      · have hone := card_changed_le q.search s₁ ((net.edge id).head q.search.view)
        have hadd : q₁.queue.card = q.queue.card
            + (changed q.search s₁ ((net.edge id).head q.search.view)).card :=
          Multiset.card_add _ _
        rw [List.length_cons]
        omega

end

-- ================================================================ the loop

/-- What each turn keeps. -/
structure Runs (net : Network) (g : ActiveGraph) (sharedOnly : Bool) (q : QueuedSearch) : Prop where
  explores : Explores net g sharedOnly q.search q.latest
  within : Within net g q.search
  tight : Tight net g sharedOnly q.search
  queues : Queues q.search q.latest q.queue

/-- The turns that are left: one for each entry, and one for each edge that
leaves a node to be settled. -/
def remaining (net : Network) (g : ActiveGraph) (q : QueuedSearch) : Nat :=
  q.queue.card + ((unsettled net q.search).flatMap (g.out q.search.view)).length

/-- The search that has just begun. -/
theorem runs_initial (hstart : net.hasTimepoint start = true) (d : Direction) :
    Runs net g sharedOnly (initial d start) :=
  ⟨explores_initial hstart, within_initial d start, tight_initial d start,
    queues_initial d start⟩

/-- At first there is the start, and each edge that leaves some node. -/
theorem remaining_initial (net : Network) (g : ActiveGraph) (d : Direction) (start : Timepoint) :
    remaining net g (initial d start)
      = 1 + (net.timepoints.flatMap (g.out d)).length := by
  have hall : unsettled net (PathSearch.initial d start) = net.timepoints := by
    refine List.filter_eq_self.mpr fun x _ => ?_
    rw [Bool.not_eq_true']
    exact HandleSet.contains_empty x
  have hone : (initial d start).queue.card = 1 := Multiset.card_singleton _
  unfold remaining
  rw [hone]
  exact congrArg (fun xs => 1 + (xs.flatMap (g.out d)).length) hall

/-- An entry that is not stale, when it may come out, is that of a node
that is nearest. -/
theorem Runs.nearest (h : Runs net g sharedOnly q) (hnext : q.IsNext e)
    (hlabel : q.search.labels.get? e.1 = some label) (hfresh : label.distance = e.2) :
    Nearest q.search e.1 e.2 := by
  obtain ⟨same, hsame, -, hlive⟩ := h.queues.entry e hnext.1
  cases hlabel.symm.trans hsame
  exact ⟨⟨label, hlabel, hfresh⟩, hlive hfresh,
    fun x other hother hopen => hnext.2 _ (h.queues.waiting x other hother hopen)⟩

/-- A stale entry is passed over. -/
theorem Queues.pass (h : Queues s distance queue) (hleast : ∀ other ∈ queue, e.2 ≤ other.2)
    (hstale : ∀ label, s.labels.get? e.1 = some label → label.distance ≠ e.2) :
    Queues s e.2 (queue.erase e) := by
  refine ⟨h.nodup.erase e, ?_, ?_, ?_⟩
  · intro other hother
    exact hleast other (Multiset.mem_of_mem_erase hother)
  · intro other hother
    exact h.entry other (Multiset.mem_of_mem_erase hother)
  · intro x label hx hopen
    refine (Multiset.mem_erase_of_ne ?_).mpr (h.waiting x label hx hopen)
    rintro rfl
    exact hstale label hx rfl

/-- The node of an entry that is not stale is settled. No entry for it is
left but stale ones. -/
theorem Queues.settle (h : Queues s distance queue) (hleast : ∀ other ∈ queue, e.2 ≤ other.2)
    (hlabel : s.labels.get? e.1 = some label) (hfresh : label.distance = e.2) :
    Queues { s with settled := s.settled.insert e.1 } e.2 (queue.erase e) := by
  have hmem := contains_insert_settled s e.1
  refine ⟨h.nodup.erase e, ?_, ?_, ?_⟩
  · intro other hother
    exact hleast other (Multiset.mem_of_mem_erase hother)
  · intro other hother
    obtain ⟨hne, hqueued⟩ := (h.nodup.mem_erase_iff).mp hother
    obtain ⟨old, hold, hle, hlive⟩ := h.entry other hqueued
    refine ⟨old, hold, hle, fun heq => ?_⟩
    by_contra hsettled
    rcases (hmem other.1).mp (Bool.not_eq_false _ ▸ hsettled) with hnode | hbefore
    · -- of the node there is one such entry, which was taken out
      rw [hnode, hlabel] at hold
      cases hold
      exact hne (Prod.ext hnode (heq.symm.trans hfresh))
    · rw [hlive heq] at hbefore
      cases hbefore
  · intro x other hx hopen
    have hboth : ¬ (x = e.1 ∨ s.settled.contains x = true) := by
      rw [← hmem x, hopen]
      exact Bool.false_ne_true
    obtain ⟨hne, hbefore⟩ := not_or.mp hboth
    refine (Multiset.mem_erase_of_ne ?_).mpr
      (h.waiting x other hx (Bool.not_eq_true _ ▸ hbefore))
    rintro rfl
    exact hne rfl

/-- A stale entry is taken out, and nothing else is done. -/
theorem take_of_stale (hstale : ∀ label, q.search.labels.get? e.1 = some label →
    label.distance ≠ e.2) :
    take net g sharedOnly e q = .ok ⟨q.search, e.2, q.queue.erase e⟩ := by
  refine if_neg fun hfresh => ?_
  obtain ⟨label, hlabel, heq⟩ := any_eq_true.mp hfresh
  exact hstale label hlabel heq

/-- Where a search goes on as its nearest entry is passed over. -/
theorem Runs.pass (h : Runs net g sharedOnly q) (hnext : q.IsNext e)
    (hstale : ∀ label, q.search.labels.get? e.1 = some label → label.distance ≠ e.2) :
    Runs net g sharedOnly ⟨q.search, e.2, q.queue.erase e⟩ := by
  refine ⟨?_, h.within, h.tight, h.queues.pass hnext.2 hstale⟩
  have hlater := h.queues.ahead e hnext.1
  refine ⟨h.explores.toAccounted, h.explores.origin, h.explores.node, ?_, ?_, h.explores.behind,
    h.explores.chain⟩
  · intro x hx
    obtain ⟨label, hlabel, hle⟩ := h.explores.settled x hx
    exact ⟨label, hlabel, Int.le_trans hle hlater⟩
  · intro x label hopen hx
    exact hnext.2 _ (h.queues.waiting x label hx hopen)

/-- A node that is settled takes the edges that leave it with it. -/
theorem length_flatMap_unsettled (f : Timepoint → List EdgeId)
    (hnode : net.hasTimepoint node = true) (hopen : s.settled.contains node = false)
    (hsettled : s'.settled = s.settled.insert node) :
    (f node).length + ((unsettled net s').flatMap f).length
      = ((unsettled net s).flatMap f).length := by
  have hperm := List.perm_cons_erase (mem_unsettled.mpr ⟨hnode, hopen⟩)
  rw [unsettled_eq_erase hsettled, (hperm.flatMap_right f).length_eq, List.flatMap_cons,
    List.length_append]

section
variable (hnet : net.WellFormed) (hlimited : net.Limited) (hg : g.Grounded net)
  (hstart : net.hasTimepoint q.search.start = true)
include hnet hlimited hg hstart

/-- The node of an entry that is not stale is settled, and the edges that
leave it are looked at. -/
theorem Runs.exists_settle (h : Runs net g sharedOnly q) (hnext : q.IsNext e)
    (hlabel : q.search.labels.get? e.1 = some label) (hfresh : label.distance = e.2) :
    ∃ q', take net g sharedOnly e q = .ok q' ∧ Runs net g sharedOnly q' ∧
      Scans net g sharedOnly { q.search with settled := q.search.settled.insert e.1 } q'.search
        e.2 (g.out q.search.view e.1) ∧
      PathSearch.scanEdges net g sharedOnly e.1 e.2
        { q.search with settled := q.search.settled.insert e.1 } (g.out q.search.view e.1)
          = .ok q'.search ∧ remaining net g q' < remaining net g q := by
  have hnearest := h.nearest hnext hlabel hfresh
  have hids : ∀ id ∈ g.out q.search.view e.1, g.isActive id = true ∧
      (net.edge id).isIn q.search.view = true ∧ (net.edge id).tail q.search.view = e.1 :=
    fun id hid => (hg.mem_out q.search.view e.1 id).mp hid
  have hinsert := (contains_insert_settled q.search e.1 e.1).mpr (.inl rfl)
  have hnear := h.within.distance_le hlimited hg hstart h.explores hnearest
  -- first the entry is taken out, then the edges are scanned
  let taken : QueuedSearch :=
    ⟨{ q.search with settled := q.search.settled.insert e.1 }, e.2, q.queue.erase e⟩
  have hqueued : Queues taken.search taken.latest taken.queue :=
    h.queues.settle hnext.2 hlabel hfresh
  obtain ⟨q', hrun, hscan, hlatest, hqueues, hcard⟩ := hqueued.exists_scanEdges hnet hlimited hg
    (h.explores.settle hnearest) hids hlabel (Int.le_of_eq hfresh) hinsert hnear
  obtain ⟨s', hsame, hscans, hwithin, htight⟩ :=
    h.explores.exists_scanNearest hnet hlimited hg hstart h.within h.tight hnearest
  cases hsame.symm.trans hscan
  have htake : take net g sharedOnly e q = .ok q' :=
    (if_pos (any_eq_true.mpr ⟨label, hlabel, hfresh⟩)).trans hrun
  refine ⟨q', htake, ⟨hlatest.symm ▸ hscans.explores, hwithin, htight, hqueues⟩, hscans, hscan, ?_⟩
  have hnode := (h.explores.node e.1 label hlabel).1
  have hleave := length_flatMap_unsettled (g.out q.search.view) hnode hnearest.unsettled
    hscans.settled
  have hview : q'.search.view = q.search.view := hscans.continues.view
  have herase : taken.queue.card < q.queue.card := Multiset.card_erase_lt_of_mem hnext.1
  unfold remaining
  rw [hview]
  omega

/-- Whichever entry comes out, the loop goes on. -/
theorem Runs.exists_take (h : Runs net g sharedOnly q) (hnext : q.IsNext e) :
    ∃ q', take net g sharedOnly e q = .ok q' ∧ Runs net g sharedOnly q' ∧
      q'.search.view = q.search.view ∧ q'.search.start = q.search.start ∧
      remaining net g q' < remaining net g q := by
  by_cases hfresh : ∃ label, q.search.labels.get? e.1 = some label ∧ label.distance = e.2
  · obtain ⟨label, hlabel, heq⟩ := hfresh
    obtain ⟨q', htake, hruns, hscans, -, hless⟩ :=
      h.exists_settle hnet hlimited hg hstart hnext hlabel heq
    exact ⟨q', htake, hruns, hscans.continues.view, hscans.continues.start, hless⟩
  · have hstale : ∀ label, q.search.labels.get? e.1 = some label → label.distance ≠ e.2 :=
      fun label hlabel heq => hfresh ⟨label, hlabel, heq⟩
    exact ⟨_, take_of_stale hstale, h.pass hnext hstale, rfl, rfl,
      Nat.add_lt_add_right (Multiset.card_erase_lt_of_mem hnext.1) _⟩

end

/-- What holds after any turns. Each of them leaves less to be done. -/
theorem Runs.turns (hnet : net.WellFormed) (hlimited : net.Limited) (hg : g.Grounded net)
    (hstart : net.hasTimepoint q.search.start = true) (h : Runs net g sharedOnly q)
    (hturns : Turns net g sharedOnly n q q') :
    Runs net g sharedOnly q' ∧ q'.search.view = q.search.view ∧
      q'.search.start = q.search.start ∧ n + remaining net g q' ≤ remaining net g q := by
  induction hturns with
  | none q => exact ⟨h, rfl, rfl, Nat.le_of_eq (Nat.zero_add _)⟩
  | next next first others ih =>
      obtain ⟨q₁, htake, hruns, hview, hsame, hless⟩ :=
        h.exists_take hnet hlimited hg hstart next
      cases htake.symm.trans first
      obtain ⟨hruns', hview', hsame', hless'⟩ := ih (hsame.symm ▸ hstart) hruns
      exact ⟨hruns', hview'.trans hview, hsame'.trans hsame, by omega⟩

/-- When nothing is queued all that is labelled is settled. -/
theorem Runs.covers (h : Runs net g sharedOnly q) (hempty : q.queue = 0) :
    Covers net g sharedOnly q.search := by
  refine h.explores.covers h.within h.tight fun x label hx => ?_
  by_contra hopen
  have hqueued := h.queues.waiting x label hx (Bool.not_eq_true _ ▸ hopen)
  rw [hempty] at hqueued
  exact Multiset.notMem_zero _ hqueued

-- ============================================================== the orders

/-- The entries that may come out next are not stale. -/
def Fresh (q : QueuedSearch) : Prop :=
  ∀ e, q.IsNext e → ∃ label, q.search.labels.get? e.1 = some label ∧ label.distance = e.2

/-- Stale entries can be passed over until one that is not would come
out. -/
theorem Runs.exists_fresh (h : Runs net g sharedOnly q) :
    ∃ n q', Turns net g sharedOnly n q q' ∧ q'.search = q.search ∧ Runs net g sharedOnly q' ∧
      Fresh q' := by
  induction hcard : q.queue.card using Nat.strong_induction_on generalizing q with
  | _ k ih =>
    by_cases hfresh : Fresh q
    · exact ⟨0, q, .none q, rfl, h, hfresh⟩
    · obtain ⟨e, hstep⟩ := not_forall.mp hfresh
      obtain ⟨hnext, hnot⟩ := Classical.not_imp.mp hstep
      have hstale : ∀ label, q.search.labels.get? e.1 = some label → label.distance ≠ e.2 :=
        fun label hlabel heq => hnot ⟨label, hlabel, heq⟩
      have hless := Multiset.card_erase_lt_of_mem hnext.1
      obtain ⟨n, q', hturns, hsame, hruns, hfresh'⟩ :=
        ih _ (hcard ▸ hless) (h.pass hnext hstale) rfl
      exact ⟨n + 1, q', .next hnext (take_of_stale hstale) hturns, hsame, hruns, hfresh'⟩

/-- If what comes out is not stale, the nearest node may come out. -/
theorem Runs.isNext_of_nearest (h : Runs net g sharedOnly q) (hfresh : Fresh q)
    (hnearest : Nearest q.search node distance) : q.IsNext (node, distance) := by
  obtain ⟨label, hlabel, rfl⟩ := hnearest.label
  have hqueued := h.queues.waiting node label hlabel hnearest.unsettled
  obtain ⟨e, hnext⟩ := exists_isNext fun hempty => Multiset.notMem_zero _ (hempty ▸ hqueued)
  obtain ⟨other, hother, heq⟩ := hfresh e hnext
  have hle := hnearest.least e.1 other hother (h.nearest hnext hother heq).unsettled
  exact ⟨hqueued, fun f hf => Int.le_trans (heq ▸ hle) (hnext.2 f hf)⟩

section
variable (hnet : net.WellFormed) (hlimited : net.Limited) (hg : g.Grounded net)
include hnet hlimited hg

/-- A search that looks for the nearest node takes the entries of the queue
in one of the orders. -/
theorem Runs.exists_turns (h : Runs net g sharedOnly q)
    (hstart : net.hasTimepoint q.search.start = true)
    (hrun : PathSearch.settle net g sharedOnly none n q.search = .ok s) :
    ∃ m q', Turns net g sharedOnly m q q' ∧ q'.search = s ∧ Runs net g sharedOnly q' := by
  induction n generalizing q with
  | zero =>
      cases hrun
      exact ⟨0, q, .none q, rfl, h⟩
  | succ n ih =>
      unfold PathSearch.settle at hrun
      split at hrun
      next =>
        cases hrun
        exact ⟨0, q, .none q, rfl, h⟩
      next node distance hnearest? =>
        obtain ⟨k, q₁, hpassed, hsame, hruns, hfresh⟩ := h.exists_fresh
        have hnearest := nearest_of_nearest? hnearest?
        rw [← hsame] at hnearest hrun hstart
        obtain ⟨label, hlabel, heq⟩ := hnearest.label
        have hnext := hruns.isNext_of_nearest hfresh hnearest
        obtain ⟨q₂, htake, hruns₂, hscans, hscan, -⟩ :=
          hruns.exists_settle hnet hlimited hg hstart hnext hlabel heq
        simp only [reduceCtorEq, if_false, hscan, Checked.bind_eq_ok, Except.ok.injEq,
          exists_eq_left'] at hrun
        have hsame₂ : q₂.search.start = q₁.search.start := hscans.continues.start
        obtain ⟨m, q', hturns, hs, hruns'⟩ := ih hruns₂ (hsame₂.symm ▸ hstart) hrun
        exact ⟨_, q', hpassed.trans (.next hnext htake hturns), hs, hruns'⟩

/-- The search that is run takes the entries of the queue in one of the
orders, until nothing is queued. -/
theorem exists_turns_of_run (hstart : net.hasTimepoint start = true)
    (hrun : PathSearch.run net g d start sharedOnly none = .ok s) :
    ∃ n q, Turns net g sharedOnly n (initial d start) q ∧ q.queue = 0 ∧ q.search = s := by
  obtain ⟨m, q, hturns, hs, hruns⟩ :=
    (runs_initial hstart d).exists_turns hnet hlimited hg hstart hrun
  obtain ⟨k, q', hpassed, hsame, hruns', hfresh⟩ := hruns.exists_fresh
  refine ⟨m + k, q', hturns.trans hpassed, ?_, hsame.trans hs⟩
  by_contra hqueued
  obtain ⟨e, hnext⟩ := exists_isNext hqueued
  obtain ⟨label, hlabel, heq⟩ := hfresh e hnext
  have hopen := (hruns'.nearest hnext hlabel heq).unsettled
  rw [hsame, hs] at hlabel hopen
  rw [settled_of_run hnet hlimited hg hstart hrun hlabel] at hopen
  cases hopen

end

end QueuedSearch

end TemporalNetwork
