/-
What a reader has read.

A reader of an event queue has read the events before its position, once
it has taken the backtracks into account that it has not seen:
`HasRead` names these events as a list. Appending to the queue leaves the
list as it is, reading adds the next event, and closing a level takes the
events of the level off, so that they are the whole queue then if the
reader had read all that was there when the level was opened.
-/
import Mathlib.Data.List.Basic
import TemporalNetwork.History.EventQueue

namespace TemporalNetwork

namespace QueueReader

variable {α : Type} {r r' : QueueReader} {q q' u : EventQueue α} {R : List α} {a : α}

/-- The events that were read, as long as they were not taken back. -/
structure HasRead (r : QueueReader) (q : EventQueue α) (R : List α) : Prop where
  seen : r.seen ≤ q.backtracks.size
  next : (r.sync q).next = R.length
  start : ∃ new, q.toList = R ++ new

-- ============================================================ taken into account

/-- A reader that has seen all backtracks stays where it is. -/
theorem foldl_min_self (backtracks : Array Nat) (n : Nat) :
    backtracks.foldl min n backtracks.size = n := by
  rw [Array.foldl_eq_foldl_extract]
  simp

/-- A further backtrack takes a reader back at most to its target. -/
theorem foldl_min_push (backtracks : Array Nat) (n m : Nat) {start : Nat}
    (h : start ≤ backtracks.size) :
    (backtracks.push m).foldl min n start = min (backtracks.foldl min n start) m := by
  rw [Array.foldl_eq_foldl_extract, Array.extract_push, Array.size_push,
    if_neg (Nat.not_succ_le_self _), if_pos h, Array.foldl_push, ← Array.foldl_eq_foldl_extract]

/-- Taking backtracks into account once more changes nothing. -/
theorem next_sync_mk (q : EventQueue α) (n : Nat) :
    ((⟨n, q.backtracks.size⟩ : QueueReader).sync q).next = n :=
  foldl_min_self q.backtracks n

/-- After synchronising, a reader has seen all backtracks. -/
theorem seen_sync (r : QueueReader) (q : EventQueue α) :
    (r.sync q).seen = q.backtracks.size := rfl

-- ================================================================= reading

/-- The next event is read. -/
theorem HasRead.pop_some (h : r.HasRead q R) (hpop : r.pop q = (r', some a)) :
    r'.HasRead q (R ++ [a]) := by
  obtain ⟨new, hnew⟩ := h.start
  unfold pop at hpop
  simp only [EventQueue.get?] at hpop
  split at hpop
  next b hget =>
    cases hpop
    rw [h.next] at hget
    have hlast : q.toList[R.length]? = some a := by
      rw [EventQueue.toList, Array.getElem?_toList]
      exact hget
    rw [hnew, List.getElem?_append_right (Nat.le_refl _), Nat.sub_self] at hlast
    obtain ⟨rest, rfl⟩ : ∃ rest, new = a :: rest := by
      cases new with
      | nil => cases hlast
      | cons b rest =>
          cases hlast
          exact ⟨rest, rfl⟩
    refine ⟨Nat.le_refl _, ?_, rest, ?_⟩
    · rw [seen_sync, next_sync_mk, h.next, List.length_append]
      rfl
    · rw [hnew, List.append_assoc]
      rfl
  next => cases hpop

/-- All events are read. -/
theorem HasRead.pop_none (h : r.HasRead q R) (hpop : r.pop q = (r', none)) :
    r'.HasRead q R ∧ R = q.toList := by
  obtain ⟨new, hnew⟩ := h.start
  unfold pop at hpop
  simp only [EventQueue.get?] at hpop
  split at hpop
  next => cases hpop
  next hget =>
    cases hpop
    rw [h.next] at hget
    have hsize : q.events.size ≤ R.length := Array.getElem?_eq_none_iff.mp hget
    have hlength : q.events.size = R.length + new.length := by
      have := congrArg List.length hnew
      rw [List.length_append] at this
      exact this
    have hempty : new = [] := List.eq_nil_of_length_eq_zero (by omega)
    refine ⟨⟨Nat.le_refl _, ?_, h.start⟩, ?_⟩
    · show ((⟨(r.sync q).next, q.backtracks.size⟩ : QueueReader).sync q).next = R.length
      rw [next_sync_mk, h.next]
    · rw [hnew, hempty, List.append_nil]

/-- A reader at the end has read all that the queue holds. -/
theorem hasRead_toEnd (r : QueueReader) (q : EventQueue α) :
    (r.toEnd q).HasRead q q.toList := by
  refine ⟨Nat.le_refl _, ?_, [], (List.append_nil _).symm⟩
  show ((⟨q.size, q.backtracks.size⟩ : QueueReader).sync q).next = q.toList.length
  rw [next_sync_mk]
  rfl

-- ============================================================ as the queue changes

/-- Appending events. -/
theorem HasRead.append (h : r.HasRead q R) (hnew : ∃ new, q'.events = q.events ++ new)
    (hbacktracks : q'.backtracks = q.backtracks) : r.HasRead q' R := by
  obtain ⟨new, hnew⟩ := hnew
  obtain ⟨old, hold⟩ := h.start
  refine ⟨?_, ?_, old ++ new.toList, ?_⟩
  · rw [hbacktracks]
    exact h.seen
  · unfold sync
    rw [hbacktracks]
    exact h.next
  · rw [EventQueue.toList, hnew, Array.toList_append, ← List.append_assoc, ← hold]
    rfl

/-- Closing a level, when all that was there at its start had been read. -/
theorem HasRead.restore (h : r.HasRead q R) (hstart : ∃ new, q.events = u.events ++ new)
    (hread : u.size ≤ R.length) (hbacktracks : u.backtracks = q.backtracks.push u.size) :
    r.HasRead u u.toList ∧ u.toList = R.take u.size := by
  obtain ⟨new, hnew⟩ := hstart
  obtain ⟨old, hold⟩ := h.start
  refine ⟨⟨?_, ?_, [], (List.append_nil _).symm⟩, ?_⟩
  · rw [hbacktracks, Array.size_push]
    exact Nat.le_succ_of_le h.seen
  · have hnext := h.next
    unfold sync at hnext ⊢
    simp only at hnext ⊢
    rw [hbacktracks, foldl_min_push _ _ _ h.seen, hnext, Nat.min_eq_right hread]
    rfl
  · have htake : q.toList.take u.size = u.toList := by
      rw [EventQueue.toList, hnew, Array.toList_append]
      exact List.take_left
    rw [← htake, hold, List.take_append_of_le_length hread]

end QueueReader

end TemporalNetwork
