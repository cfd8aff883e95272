/-
Each event is delivered once.

A reader is a position, and it learns of backtracks long after they
occurred. What it should deliver is said here without positions: every
push is an event of its own, with a stamp, and a `Ledger` keeps the
events that are in the queue, and for each reader the stamps of those
that were delivered to it or skipped by it. The next event of a reader is
the earliest one in the queue that it has not passed.

For every list of operations the queue with its readers answers as the
ledger does. The invariant is that of the events in the queue a reader
has passed the first so many and none of the others (`Splits`), where the
number is its position once it has taken all backtracks into account:
pushing does not change it, and closing a level cuts the queue, and the
number with it, whatever was in the part that is cut off.
-/
import Mathlib.Data.List.Nodup
import Mathlib.Data.Set.Insert
import Mathlib.Logic.Function.Basic
import TemporalNetwork.Proofs.History.Reader

namespace TemporalNetwork

variable {α β : Type}

/-- Steps in turn, with their answers, up to the first fault. -/
def Checked.runAll {σ ω : Type} (step : σ → ω → Checked (σ × β)) :
    σ → List ω → Checked (σ × List β)
  | s, [] => .ok (s, [])
  | s, op :: ops => do
    let (s, answer) ← step s op
    let (s, answers) ← runAll step s ops
    return (s, answer :: answers)

-- ============================================================== operations

/-- What is done to a queue, by its producer and by readers, which are
numbered. -/
inductive QueueOp (α : Type) where
  | push (a : α)
  | save
  | restoreLast
  | pop (i : Nat)
  /-- All that is left, one by one. -/
  | popAll (i : Nat)
  | pending (i : Nat)
  | toEnd (i : Nat)

/-- What an operation on a queue gives back. -/
inductive QueueAnswer (α : Type) where
  | done
  | event (e : Option α)
  | events (es : List α)
  | count (n : Nat)

/-- The same answer, about other events. -/
def QueueAnswer.map (f : α → β) : QueueAnswer α → QueueAnswer β
  | .done => .done
  | .event e => .event (e.map f)
  | .events es => .events (es.map f)
  | .count n => .count n

/-- The reader that an operation is for, none if it is the producer's. -/
def QueueOp.reader? : QueueOp α → Option Nat
  | .push _ | .save | .restoreLast => none
  | .pop i | .popAll i | .pending i | .toEnd i => some i

/-- What is delivered with an answer. -/
def QueueAnswer.given : QueueAnswer α → List α
  | .event e => e.toList
  | .events es => es
  | _ => []

/-- What was given changes with the answer. -/
theorem QueueAnswer.given_map (f : α → β) (answer : QueueAnswer α) :
    (answer.map f).given = answer.given.map f := by
  cases answer with
  | done => rfl
  | event e => cases e <;> rfl
  | events es => rfl
  | count n => rfl

/-- A queue and its readers. A reader that was not used yet is as one that
was created just now. -/
structure SharedQueue (α : Type) where
  queue : EventQueue α
  readers : Nat → QueueReader

namespace SharedQueue

def initial : SharedQueue α := ⟨.empty, fun _ => .start⟩

def setReader (s : SharedQueue α) (i : Nat) (r : QueueReader) : SharedQueue α :=
  { s with readers := Function.update s.readers i r }

/-- One operation, with what it is answered. -/
def perform (s : SharedQueue α) : QueueOp α → Checked (SharedQueue α × QueueAnswer α)
  | .push a => .ok ({ s with queue := s.queue.push a }, .done)
  | .save => .ok ({ s with queue := s.queue.save }, .done)
  | .restoreLast => s.queue.restoreLast.map fun queue => ({ s with queue }, .done)
  | .pop i =>
    let (r, e) := (s.readers i).pop s.queue
    .ok (s.setReader i r, .event e)
  | .popAll i =>
    let (r, es) := (s.readers i).popAll s.queue
    .ok (s.setReader i r, .events es)
  | .pending i =>
    let (r, n) := (s.readers i).pending s.queue
    .ok (s.setReader i r, .count n)
  | .toEnd i => .ok (s.setReader i ((s.readers i).toEnd s.queue), .done)

def performAll (s : SharedQueue α) (ops : List (QueueOp α)) :
    Checked (SharedQueue α × List (QueueAnswer α)) := Checked.runAll perform s ops

end SharedQueue

-- ================================================================== ledger

/-- What one push appended. -/
structure Entry (α : Type) where
  /-- The number of the push. -/
  stamp : Nat
  value : α

/-- What is in a queue, and what each reader has been through. -/
structure Ledger (α : Type) where
  /-- The events in the queue, oldest first. -/
  live : List (Entry α)
  /-- The events that were in the queue at each saved state, newest first. -/
  saved : List (List (Entry α))
  pushes : Nat
  /-- The stamps of the events that each reader was given. -/
  delivered : Nat → List Nat
  /-- The stamps of the events that each reader moved past. -/
  skipped : Nat → List Nat

namespace Ledger

def initial : Ledger α := ⟨[], [], 0, fun _ => [], fun _ => []⟩

/-- The events in the queue that the reader was not given and has not
moved past. -/
def unread (L : Ledger α) (i : Nat) : List (Entry α) :=
  L.live.filter fun e => decide (e.stamp ∉ L.delivered i ∧ e.stamp ∉ L.skipped i)

def deliver (L : Ledger α) (i : Nat) (es : List (Entry α)) : Ledger α :=
  { L with delivered := Function.update L.delivered i (L.delivered i ++ es.map Entry.stamp) }

def skip (L : Ledger α) (i : Nat) : Ledger α :=
  { L with skipped := Function.update L.skipped i (L.skipped i ++ L.live.map Entry.stamp) }

/-- One operation on the ledger. A reader is given what it has not read of the
events that there are. -/
def perform (L : Ledger α) : QueueOp α → Checked (Ledger α × QueueAnswer (Entry α))
  | .push a => .ok ({ L with live := L.live ++ [⟨L.pushes, a⟩], pushes := L.pushes + 1 }, .done)
  | .save => .ok ({ L with saved := L.live :: L.saved }, .done)
  | .restoreLast =>
    match L.saved with
    | [] => .error .nothingSaved
    | live :: saved => .ok ({ L with live, saved }, .done)
  | .pop i =>
    match L.unread i with
    | [] => .ok (L, .event none)
    | e :: _ => .ok (L.deliver i [e], .event (some e))
  | .popAll i => .ok (L.deliver i (L.unread i), .events (L.unread i))
  | .pending i => .ok (L, .count (L.unread i).length)
  | .toEnd i => .ok (L.skip i, .done)

def performAll (L : Ledger α) (ops : List (QueueOp α)) :
    Checked (Ledger α × List (QueueAnswer (Entry α))) := Checked.runAll perform L ops

/-- The stamps that a reader needs not be given again. -/
def passed (L : Ledger α) (i : Nat) : Set Nat := {n | n ∈ L.delivered i ∨ n ∈ L.skipped i}

/-- No stamp is used twice, also not for events that were taken back, and
no reader was given one twice. -/
structure Sound (L : Ledger α) : Prop where
  distinct : (L.live.map Entry.stamp).Nodup
  issued (e : Entry α) : e ∈ L.live → e.stamp < L.pushes
  /-- What was saved is where the queue began. -/
  prefixes : (L.live :: L.saved).Pairwise fun newer older => older <+: newer
  known (i n : Nat) : n ∈ L.passed i → n < L.pushes
  once (i : Nat) : (L.delivered i).Nodup

theorem sound_initial : (initial : Ledger α).Sound where
  distinct := List.nodup_nil
  issued e he := absurd he List.not_mem_nil
  prefixes := List.pairwise_singleton _ _
  known i n hn := by
    rcases hn with hn | hn
    · exact absurd hn List.not_mem_nil
    · exact absurd hn List.not_mem_nil
  once i := List.nodup_nil

end Ledger

-- ================================================================ positions

/-- The first `n` of the events were passed, and none of the others. -/
structure Splits (live : List (Entry α)) (passed : Set Nat) (n : Nat) : Prop where
  le : n ≤ live.length
  before (e : Entry α) : e ∈ live.take n → e.stamp ∈ passed
  after (e : Entry α) : e ∈ live.drop n → e.stamp ∉ passed

section
variable {live : List (Entry α)} {passed : Set Nat} {n m : Nat} {e : Entry α}

/-- A new event comes behind the point up to which events were passed. -/
theorem Splits.push (h : Splits live passed n) (he : e.stamp ∉ passed) :
    Splits (live ++ [e]) passed n where
  le := by
    rw [List.length_append]
    exact Nat.le_add_right_of_le h.le
  before k hk := by
    rw [List.take_append_of_le_length h.le] at hk
    exact h.before k hk
  after k hk := by
    rw [List.drop_append_of_le_length h.le, List.mem_append, List.mem_singleton] at hk
    rcases hk with hk | rfl
    · exact h.after k hk
    · exact he

/-- The part that is cut off does not matter. -/
theorem Splits.take (h : Splits live passed n) (m : Nat) :
    Splits (live.take m) passed (min n (live.take m).length) where
  le := Nat.min_le_right _ _
  before k hk := by
    apply h.before k
    rw [List.take_take] at hk
    exact List.take_subset_take_left live (by omega) hk
  after k hk := by
    by_cases hnm : n ≤ (live.take m).length
    · rw [Nat.min_eq_left hnm, List.drop_take] at hk
      exact h.after k (List.take_subset _ _ hk)
    · rw [Nat.min_eq_right (Nat.le_of_not_le hnm), List.drop_length] at hk
      exact absurd hk List.not_mem_nil

/-- The next event is passed. -/
theorem Splits.next (h : Splits live passed n) (hdistinct : (live.map Entry.stamp).Nodup)
    {rest : List (Entry α)} (hdrop : live.drop n = e :: rest) :
    Splits live (insert e.stamp passed) (n + 1) := by
  have hlive : live = live.take n ++ e :: rest := by
    rw [← hdrop]
    exact (List.take_append_drop n live).symm
  have hlength : (live.take n).length = n := List.length_take_of_le h.le
  have hfirst : live.take (n + 1) = live.take n ++ [e] := by
    have hcons : (e :: rest).take 1 = [e] := rfl
    rw [List.take_add, hdrop, hcons]
  have hlast : live.drop (n + 1) = rest := by
    rw [← List.drop_drop, hdrop]
    rfl
  refine ⟨?_, fun k hk => ?_, fun k hk => ?_⟩
  · have hshort := congrArg List.length hdrop
    rw [List.length_drop, List.length_cons] at hshort
    omega
  · rw [hfirst, List.mem_append, List.mem_singleton] at hk
    rcases hk with hk | rfl
    · exact Set.mem_insert_of_mem _ (h.before k hk)
    · exact Set.mem_insert _ _
  · rw [hlast] at hk
    -- stamps are distinct, so that none of those that follow is passed with the event
    have hother : k.stamp ≠ e.stamp := by
      rw [hlive, List.map_append, List.map_cons] at hdistinct
      intro heq
      apply (List.nodup_cons.mp (List.nodup_append.mp hdistinct).2.1).1
      rw [← heq]
      exact List.mem_map_of_mem hk
    intro hmem
    rcases Set.mem_insert_iff.mp hmem with heq | hold
    · exact hother heq
    · apply h.after k _ hold
      rw [hdrop]
      exact List.mem_cons_of_mem e hk

/-- All events are passed. -/
theorem splits_length (h : ∀ e ∈ live, e.stamp ∈ passed) : Splits live passed live.length where
  le := Nat.le_refl _
  before k hk := h k (List.take_subset _ _ hk)
  after k hk := by
    rw [List.drop_length] at hk
    exact absurd hk List.not_mem_nil

end

-- ================================================================= tracking

namespace Ledger

variable {L : Ledger α} {s : SharedQueue α} {i j n : Nat}

/-- What is ahead of a reader is what it has not passed. -/
theorem unread_eq_drop (h : Splits L.live (L.passed i) n) : L.unread i = L.live.drop n := by
  have hbefore : (L.live.take n).filter
      (fun e => decide (e.stamp ∉ L.delivered i ∧ e.stamp ∉ L.skipped i)) = [] := by
    apply List.filter_eq_nil_iff.mpr
    intro e he hunread
    obtain ⟨hdelivered, hskipped⟩ := of_decide_eq_true hunread
    rcases h.before e he with hpassed | hpassed
    · exact hdelivered hpassed
    · exact hskipped hpassed
  have hafter : (L.live.drop n).filter
      (fun e => decide (e.stamp ∉ L.delivered i ∧ e.stamp ∉ L.skipped i)) = L.live.drop n := by
    apply List.filter_eq_self.mpr
    intro e he
    have hahead := h.after e he
    exact decide_eq_true ⟨fun hc => hahead (.inl hc), fun hc => hahead (.inr hc)⟩
  unfold unread
  conv_lhs => rw [← List.take_append_drop n L.live]
  rw [List.filter_append, hbefore, hafter, List.nil_append]

/-- What is unread was neither delivered nor skipped. -/
theorem mem_unread {e : Entry α} : e ∈ L.unread i ↔ e ∈ L.live ∧ e.stamp ∉ L.passed i := by
  unfold unread
  rw [List.mem_filter, decide_eq_true_eq]
  exact and_congr_right fun _ => not_or.symm

/-- A reader has passed what was delivered to it as well. -/
theorem passed_deliver (L : Ledger α) (i : Nat) (es : List (Entry α)) :
    (L.deliver i es).passed i = L.passed i ∪ {n | n ∈ es.map Entry.stamp} := by
  ext n
  simp only [passed, deliver, Function.update_self, List.mem_append, Set.mem_ofPred_eq,
    Set.mem_union]
  tauto

/-- And what it has skipped. -/
theorem passed_skip (L : Ledger α) (i : Nat) :
    (L.skip i).passed i = L.passed i ∪ {n | n ∈ L.live.map Entry.stamp} := by
  ext n
  simp only [passed, skip, Function.update_self, List.mem_append, Set.mem_ofPred_eq,
    Set.mem_union]
  tauto

/-- Other readers are where they were. -/
theorem passed_deliver_of_ne (h : j ≠ i) (es : List (Entry α)) :
    (L.deliver i es).passed j = L.passed j := by
  unfold passed deliver
  simp only [Function.update_of_ne h]

theorem passed_skip_of_ne (h : j ≠ i) : (L.skip i).passed j = L.passed j := by
  unfold passed skip
  simp only [Function.update_of_ne h]

-- =============================================================== soundness

/-- A stamp is given to one event only, so that a new event was passed by no
reader. -/
theorem Sound.push (h : L.Sound) (a : α) :
    Sound { L with live := L.live ++ [⟨L.pushes, a⟩], pushes := L.pushes + 1 } where
  distinct := by
    rw [List.map_append, List.map_singleton, ← List.concat_eq_append]
    refine h.distinct.concat fun hmem => ?_
    obtain ⟨e, he, hstamp⟩ := List.mem_map.mp hmem
    have hlt := h.issued e he
    rw [hstamp] at hlt
    exact absurd hlt (Nat.lt_irrefl _)
  issued e he := by
    rcases List.mem_append.mp he with hold | hnew
    · exact Nat.lt_succ_of_lt (h.issued e hold)
    · rw [List.mem_singleton.mp hnew]
      exact Nat.lt_succ_self _
  prefixes := by
    obtain ⟨hlive, hsaved⟩ := List.pairwise_cons.mp h.prefixes
    refine List.pairwise_cons.mpr ⟨fun older ho => ?_, hsaved⟩
    exact (hlive older ho).trans (List.prefix_append _ _)
  known i n hn := Nat.lt_succ_of_lt (h.known i n hn)
  once := h.once

/-- The events of a level are those that were there when it was opened. -/
theorem Sound.save (h : L.Sound) : Sound { L with saved := L.live :: L.saved } where
  distinct := h.distinct
  issued := h.issued
  prefixes := by
    refine List.pairwise_cons.mpr ⟨fun older ho => ?_, h.prefixes⟩
    rcases List.mem_cons.mp ho with rfl | ho
    · exact List.prefix_rfl
    · exact (List.pairwise_cons.mp h.prefixes).1 older ho
  known := h.known
  once := h.once

/-- What is taken back was appended last. -/
theorem Sound.prefix_of_saved (h : L.Sound) {live : List (Entry α)}
    {saved : List (List (Entry α))} (hsaved : L.saved = live :: saved) :
    live <+: L.live := by
  apply (List.pairwise_cons.mp h.prefixes).1
  rw [hsaved]
  exact List.mem_cons_self

/-- What is taken back is a shorter list of the same events. -/
theorem Sound.restoreLast (h : L.Sound) {live : List (Entry α)}
    {saved : List (List (Entry α))} (hsaved : L.saved = live :: saved) :
    Sound { L with live, saved } where
  distinct := ((h.prefix_of_saved hsaved).sublist.map Entry.stamp).nodup h.distinct
  issued e he := h.issued e ((h.prefix_of_saved hsaved).subset he)
  prefixes := by
    rw [← hsaved]
    exact (List.pairwise_cons.mp h.prefixes).2
  known := h.known
  once := h.once

/-- Only what was not passed is delivered. -/
theorem Sound.deliver (h : L.Sound) {es : List (Entry α)} (hes : es.Sublist (L.unread i)) :
    (L.deliver i es).Sound where
  distinct := h.distinct
  issued := h.issued
  prefixes := h.prefixes
  known j n hn := by
    by_cases hj : j = i
    · subst hj
      rw [passed_deliver] at hn
      rcases hn with hold | hnew
      · exact h.known j n hold
      · obtain ⟨e, he, rfl⟩ := List.mem_map.mp hnew
        exact h.issued e (mem_unread.mp (hes.subset he)).1
    · rw [passed_deliver_of_ne hj] at hn
      exact h.known j n hn
  once j := by
    unfold Ledger.deliver
    by_cases hj : j = i
    · subst hj
      simp only [Function.update_self]
      have hlive : es.Sublist L.live := hes.trans List.filter_sublist
      apply List.nodup_append.mpr
      refine ⟨h.once j, (hlive.map Entry.stamp).nodup h.distinct, fun n hn m hm heq => ?_⟩
      obtain ⟨e, he, rfl⟩ := List.mem_map.mp hm
      apply (mem_unread.mp (hes.subset he)).2
      rw [← heq]
      exact .inl hn
    · simp only [Function.update_of_ne hj]
      exact h.once j

/-- Skipped events are passed without being delivered. -/
theorem Sound.skip (h : L.Sound) : (L.skip i).Sound where
  distinct := h.distinct
  issued := h.issued
  prefixes := h.prefixes
  known j n hn := by
    by_cases hj : j = i
    · subst hj
      rw [passed_skip] at hn
      rcases hn with hold | hnew
      · exact h.known j n hold
      · obtain ⟨e, he, rfl⟩ := List.mem_map.mp hnew
        exact h.issued e he
    · rw [passed_skip_of_ne hj] at hn
      exact h.known j n hn
  once := h.once

-- ================================================================= tracking

/-- The position of a reader splits the events as the ledger does. -/
structure Places (L : Ledger α) (i : Nat) (r : QueueReader) (q : EventQueue α) : Prop where
  seen : r.seen ≤ q.backtracks.size
  splits : Splits L.live (L.passed i) (r.sync q).next

/-- The ledger is about the queue and its readers. -/
structure Tracks (L : Ledger α) (s : SharedQueue α) : Prop where
  events : s.queue.toList = L.live.map Entry.value
  marks : s.queue.marks = L.saved.map List.length
  places (i : Nat) : L.Places i (s.readers i) s.queue

/-- An empty queue, with readers that have read nothing. -/
theorem tracks_initial : Tracks (initial : Ledger α) .initial where
  events := rfl
  marks := rfl
  places i := by
    refine ⟨Nat.le_refl _, ?_⟩
    exact splits_length fun e he => absurd he List.not_mem_nil

/-- A reader that has taken all backtracks into account. -/
theorem places_mk {q : EventQueue α} (h : Splits L.live (L.passed i) n) :
    L.Places i ⟨n, q.backtracks.size⟩ q := by
  refine ⟨Nat.le_refl _, ?_⟩
  rw [QueueReader.next_sync_mk]
  exact h

/-- One reader moves, and has passed what it has passed. -/
theorem Tracks.setReader (h : Tracks L s) {L' : Ledger α} {r : QueueReader}
    (hlive : L'.live = L.live) (hsaved : L'.saved = L.saved)
    (hothers : ∀ j, j ≠ i → L'.passed j = L.passed j) (hplaces : L'.Places i r s.queue) :
    Tracks L' (s.setReader i r) where
  events := by
    rw [hlive]
    exact h.events
  marks := by
    rw [hsaved]
    exact h.marks
  places j := by
    unfold SharedQueue.setReader
    by_cases hj : j = i
    · subst hj
      simp only [Function.update_self]
      exact hplaces
    · simp only [Function.update_of_ne hj]
      refine ⟨(h.places j).seen, ?_⟩
      rw [hlive, hothers j hj]
      exact (h.places j).splits

/-- The queue holds the events that are live. -/
theorem Tracks.size (h : Tracks L s) : s.queue.size = L.live.length := by
  have hlength := congrArg List.length h.events
  rw [List.length_map] at hlength
  exact hlength

/-- An event is pushed, and is unread. -/
theorem Tracks.push (h : Tracks L s) (hL : L.Sound) (a : α) :
    Tracks { L with live := L.live ++ [⟨L.pushes, a⟩], pushes := L.pushes + 1 }
      { s with queue := s.queue.push a } where
  events := by
    show (s.queue.events.push a).toList = _
    rw [Array.toList_push, List.map_append]
    exact congrArg (· ++ [a]) h.events
  marks := h.marks
  places i := by
    refine ⟨(h.places i).seen, (h.places i).splits.push fun hpassed => ?_⟩
    exact absurd (hL.known i _ hpassed) (Nat.lt_irrefl _)

/-- Nothing is read when a level is opened. -/
theorem Tracks.save (h : Tracks L s) :
    Tracks { L with saved := L.live :: L.saved } { s with queue := s.queue.save } where
  events := h.events
  marks := by
    show s.queue.size :: s.queue.marks = _
    rw [h.size, h.marks]
    rfl
  places i := ⟨(h.places i).seen, (h.places i).splits⟩

/-- Readers notice only later that a level was closed: as they are, they are
behind the lowest backtrack that they have not seen. -/
theorem Tracks.restoreLast (h : Tracks L s) (hL : L.Sound) {live : List (Entry α)}
    {saved : List (List (Entry α))} (hsaved : L.saved = live :: saved) :
    ∃ q, s.queue.restoreLast = .ok q ∧ Tracks { L with live, saved } { s with queue := q } := by
  have hmarks := h.marks
  rw [hsaved, List.map_cons] at hmarks
  obtain ⟨rest, hrest⟩ := hL.prefix_of_saved hsaved
  have htake : L.live.take live.length = live := by
    rw [← hrest]
    exact List.take_left
  refine ⟨⟨s.queue.events.take live.length, saved.map List.length,
    s.queue.backtracks.push live.length⟩, ?_, ?_, rfl, fun i => ⟨?_, ?_⟩⟩
  · unfold EventQueue.restoreLast
    rw [hmarks]
  · have hevents := congrArg (List.take live.length) h.events
    rw [← List.map_take, htake] at hevents
    rw [← hevents]
    simp [EventQueue.toList]
  · show (s.readers i).seen ≤ (s.queue.backtracks.push live.length).size
    rw [Array.size_push]
    exact Nat.le_succ_of_le (h.places i).seen
  · show Splits live (L.passed i)
      ((s.queue.backtracks.push live.length).foldl min (s.readers i).next (s.readers i).seen)
    rw [QueueReader.foldl_min_push _ _ _ (h.places i).seen]
    have hcut := (h.places i).splits.take live.length
    rw [htake] at hcut
    exact hcut

/-- What is next for a reader is the first of what it has not passed. -/
theorem Tracks.get? (h : Tracks L s) (i : Nat) :
    s.queue.get? ((s.readers i).sync s.queue).next = (L.unread i).head?.map Entry.value := by
  have hget : s.queue.get? ((s.readers i).sync s.queue).next
      = s.queue.toList[((s.readers i).sync s.queue).next]? := Array.getElem?_toList.symm
  rw [hget, h.events, List.getElem?_map, unread_eq_drop (h.places i).splits, List.head?_drop]

/-- With nothing unread the reader is given nothing. -/
theorem Tracks.pop_none (h : Tracks L s) (hunread : L.unread i = []) :
    s.perform (.pop i) = .ok (s.setReader i ((s.readers i).sync s.queue), .event none) ∧
      Tracks L (s.setReader i ((s.readers i).sync s.queue)) := by
  constructor
  · have hget := h.get? i
    rw [hunread] at hget
    simp only [SharedQueue.perform, QueueReader.pop, hget]
    rfl
  · exact h.setReader rfl rfl (fun _ _ => rfl) (places_mk (h.places i).splits)

/-- Otherwise it is given the first unread event, which stands where the
reader is once it has seen the backtracks. -/
theorem Tracks.pop_some (h : Tracks L s) (hL : L.Sound) {e : Entry α} {rest : List (Entry α)}
    (hunread : L.unread i = e :: rest) :
    ∃ s', s.perform (.pop i) = .ok (s', .event (some e.value)) ∧ Tracks (L.deliver i [e]) s' := by
  have hsplits := (h.places i).splits
  have hget := h.get? i
  rw [hunread] at hget
  refine ⟨s.setReader i ⟨((s.readers i).sync s.queue).next + 1, s.queue.backtracks.size⟩, ?_,
    h.setReader rfl rfl (fun j hj => passed_deliver_of_ne hj _) (places_mk ?_)⟩
  · simp only [SharedQueue.perform, QueueReader.pop, hget]
    rfl
  · have hpassed : (L.deliver i [e]).passed i = insert e.stamp (L.passed i) := by
      rw [passed_deliver, Set.union_comm, Set.insert_eq]
      congr 1
      ext n
      simp
    rw [hpassed]
    apply hsplits.next hL.distinct
    rw [← unread_eq_drop hsplits]
    exact hunread

/-- All unread events are given at once. -/
theorem Tracks.popAll (h : Tracks L s) (i : Nat) :
    ∃ s', s.perform (.popAll i) = .ok (s', .events ((L.unread i).map Entry.value)) ∧
      Tracks (L.deliver i (L.unread i)) s' := by
  have hsplits := (h.places i).splits
  refine ⟨s.setReader i ⟨s.queue.size, s.queue.backtracks.size⟩, ?_,
    h.setReader rfl rfl (fun j hj => passed_deliver_of_ne hj _) (places_mk ?_)⟩
  · simp only [SharedQueue.perform, QueueReader.popAll]
    rw [h.events, ← List.map_drop, ← unread_eq_drop hsplits]
    rfl
  · rw [h.size]
    apply splits_length
    intro e he
    rw [passed_deliver]
    by_cases hpassed : e.stamp ∈ L.passed i
    · exact .inl hpassed
    · exact .inr (List.mem_map_of_mem (mem_unread.mpr ⟨he, hpassed⟩))

/-- As many are pending as are unread. -/
theorem Tracks.pending (h : Tracks L s) (i : Nat) :
    ∃ s', s.perform (.pending i) = .ok (s', .count (L.unread i).length) ∧ Tracks L s' := by
  have hsplits := (h.places i).splits
  refine ⟨s.setReader i ((s.readers i).sync s.queue), ?_,
    h.setReader rfl rfl (fun _ _ => rfl) (places_mk hsplits)⟩
  simp only [SharedQueue.perform, QueueReader.pending]
  rw [h.size, unread_eq_drop hsplits, List.length_drop]

/-- So many events are left to a reader as it has not passed. -/
theorem Tracks.pending_eq (h : Tracks L s) (i : Nat) :
    ((s.readers i).pending s.queue).2 = (L.unread i).length := by
  rw [unread_eq_drop (h.places i).splits, List.length_drop, ← h.size]
  rfl

/-- A reader that goes to the end has nothing unread. -/
theorem Tracks.toEnd (h : Tracks L s) (i : Nat) :
    ∃ s', s.perform (.toEnd i) = .ok (s', .done) ∧ Tracks (L.skip i) s' := by
  refine ⟨_, rfl, h.setReader rfl rfl (fun j hj => passed_skip_of_ne hj) ?_⟩
  apply places_mk
  rw [h.size]
  apply splits_length
  intro e he
  rw [passed_skip]
  exact .inr (List.mem_map_of_mem he)

-- =============================================================== refinement

/-- The queue answers one operation as the ledger does, or both fault. -/
theorem Tracks.perform (h : Tracks L s) (hL : L.Sound) (op : QueueOp α) :
    (∃ L' s' answer, L.perform op = .ok (L', answer) ∧
      s.perform op = .ok (s', answer.map Entry.value) ∧ L'.Sound ∧ Tracks L' s') ∨
    ∃ fault, L.perform op = .error fault ∧ s.perform op = .error fault := by
  cases op with
  | push a => exact .inl ⟨_, _, _, rfl, rfl, hL.push a, h.push hL a⟩
  | save => exact .inl ⟨_, _, _, rfl, rfl, hL.save, h.save⟩
  | restoreLast =>
      unfold Ledger.perform
      cases hsaved : L.saved with
      -- both fault
      | nil =>
          refine .inr ⟨.nothingSaved, rfl, ?_⟩
          have hmarks := h.marks
          rw [hsaved] at hmarks
          simp only [SharedQueue.perform, EventQueue.restoreLast, hmarks, List.map_nil]
          rfl
      | cons live saved =>
          obtain ⟨q, hq, htracks⟩ := h.restoreLast hL hsaved
          refine .inl ⟨_, { s with queue := q }, _, rfl, ?_, hL.restoreLast hsaved, htracks⟩
          simp only [SharedQueue.perform, hq]
          rfl
  -- the reader is answered with the first entry that it has not read
  | pop i =>
      cases hunread : L.unread i with
      | nil =>
          obtain ⟨hrun, htracks⟩ := h.pop_none hunread
          refine .inl ⟨L, _, .event none, ?_, hrun, hL, htracks⟩
          simp only [Ledger.perform, hunread]
      | cons e rest =>
          obtain ⟨s', hrun, htracks⟩ := h.pop_some hL hunread
          refine .inl ⟨L.deliver i [e], s', .event (some e), ?_, hrun, hL.deliver ?_, htracks⟩
          · simp only [Ledger.perform, hunread]
          · rw [hunread]
            exact List.singleton_sublist.mpr List.mem_cons_self
  | popAll i =>
      obtain ⟨s', hrun, htracks⟩ := h.popAll i
      exact .inl ⟨_, s', _, rfl, hrun, hL.deliver (List.Sublist.refl _), htracks⟩
  | pending i =>
      obtain ⟨s', hrun, htracks⟩ := h.pending i
      exact .inl ⟨_, s', _, rfl, hrun, hL, htracks⟩
  | toEnd i =>
      obtain ⟨s', hrun, htracks⟩ := h.toEnd i
      exact .inl ⟨_, s', _, rfl, hrun, hL.skip, htracks⟩

/-- The queue answers all operations as the ledger does, up to a fault
that both have. -/
theorem Tracks.performAll (h : Tracks L s) (hL : L.Sound) (ops : List (QueueOp α)) :
    (∃ L' s' answers, L.performAll ops = .ok (L', answers) ∧
      s.performAll ops = .ok (s', answers.map (.map Entry.value)) ∧ L'.Sound ∧ Tracks L' s') ∨
    ∃ fault, L.performAll ops = .error fault ∧ s.performAll ops = .error fault := by
  unfold Ledger.performAll SharedQueue.performAll
  induction ops generalizing L s with
  | nil => exact .inl ⟨L, s, [], rfl, rfl, hL, h⟩
  | cons op ops ih =>
      unfold Checked.runAll
      rcases h.perform hL op with
        ⟨L₁, s₁, answer, hledger, hqueue, hL₁, h₁⟩ | ⟨fault, hledger, hqueue⟩
      · rcases ih h₁ hL₁ with
          ⟨L', s', answers, hledger', hqueue', hL', h'⟩ | ⟨fault, hledger', hqueue'⟩
        · refine .inl ⟨L', s', answer :: answers, ?_, ?_, hL', h'⟩
          · rw [hledger]
            simp only [Checked.bind_eq_ok]
            exact ⟨_, rfl, _, hledger', rfl⟩
          · rw [hqueue]
            simp only [Checked.bind_eq_ok]
            exact ⟨_, rfl, _, hqueue', rfl⟩
        · refine .inr ⟨fault, ?_, ?_⟩
          · rw [hledger]
            simp only [bind, Except.bind, hledger']
          · rw [hqueue]
            simp only [bind, Except.bind, hqueue']
      · refine .inr ⟨fault, ?_, ?_⟩
        · rw [hledger]
          rfl
        · rw [hqueue]
          rfl

-- ================================================================= one reader

/-- Where one reader alone is at work, what an answer delivers is delivered
to that reader. -/
theorem delivered_perform {L' : Ledger α} {op : QueueOp α} {answer : QueueAnswer (Entry α)}
    (hop : ∀ j, op.reader? = some j → j = i) (h : L.perform op = .ok (L', answer)) :
    L'.delivered i = L.delivered i ++ answer.given.map Entry.stamp := by
  cases op with
  | push a =>
      cases h
      exact (List.append_nil _).symm
  | save =>
      cases h
      exact (List.append_nil _).symm
  -- what is taken back was delivered all the same
  | restoreLast =>
      cases hsaved : L.saved with
      | nil =>
          simp only [Ledger.perform, hsaved] at h
          cases h
      | cons live saved =>
          simp only [Ledger.perform, hsaved] at h
          cases h
          exact (List.append_nil _).symm
  | pop j =>
      obtain rfl := hop j rfl
      cases hunread : L.unread j with
      | nil =>
          simp only [Ledger.perform, hunread] at h
          cases h
          exact (List.append_nil _).symm
      | cons e rest =>
          simp only [Ledger.perform, hunread] at h
          cases h
          exact Function.update_self _ _ _
  | popAll j =>
      obtain rfl := hop j rfl
      cases h
      exact Function.update_self _ _ _
  | pending j =>
      cases h
      exact (List.append_nil _).symm
  | toEnd j =>
      cases h
      exact (List.append_nil _).symm

/-- The one reader was given what the answers gave, in this order. -/
theorem delivered_performAll {L' : Ledger α} {ops : List (QueueOp α)}
    {answers : List (QueueAnswer (Entry α))}
    (hops : ∀ op ∈ ops, ∀ j, op.reader? = some j → j = i)
    (h : L.performAll ops = .ok (L', answers)) :
    L'.delivered i = L.delivered i ++ (answers.flatMap QueueAnswer.given).map Entry.stamp := by
  unfold Ledger.performAll at h
  induction ops generalizing L answers with
  | nil =>
      cases h
      exact (List.append_nil _).symm
  | cons op ops ih =>
      unfold Checked.runAll at h
      simp only [Checked.bind_eq_ok, Checked.pure_eq_ok, Prod.mk.injEq] at h
      obtain ⟨⟨L₁, answer⟩, hfirst, ⟨L₂, rest⟩, hrest, rfl, rfl⟩ := h
      rw [ih (fun op' hop' => hops op' (List.mem_cons_of_mem op hop')) hrest,
        delivered_perform (hops op List.mem_cons_self) hfirst, List.flatMap_cons,
        List.map_append, List.append_assoc]

end Ledger

/-- From the start a queue and its ledger give the same answers. -/
theorem SharedQueue.performAll_initial (ops : List (QueueOp α)) :
    (initial.performAll ops).map Prod.snd
      = (Ledger.initial.performAll ops).map fun p => p.2.map (.map Entry.value) := by
  rcases Ledger.tracks_initial.performAll Ledger.sound_initial ops with
    ⟨L, s, answers, hledger, hqueue, -⟩ | ⟨fault, hledger, hqueue⟩
  · rw [hledger, hqueue]
    rfl
  · rw [hledger, hqueue]
    rfl

/-- The ledger of any operations is sound. -/
theorem Ledger.sound_performAll {ops : List (QueueOp α)} {L : Ledger α}
    {answers : List (QueueAnswer (Entry α))}
    (h : Ledger.initial.performAll ops = .ok (L, answers)) : L.Sound := by
  rcases Ledger.tracks_initial.performAll Ledger.sound_initial ops with
    ⟨L', s, answers', hledger, -, hL, -⟩ | ⟨fault, hledger, -⟩
  · rw [h] at hledger
    cases hledger
    exact hL
  · rw [h] at hledger
    cases hledger

end TemporalNetwork
