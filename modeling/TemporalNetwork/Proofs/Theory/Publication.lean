/-
What a theory publishes, and who listens.

A theory changes its two queues as a producer does. What a request is to a
queue can be told beforehand but for the events: some requests open a level
or close levels, and all others only append (`Request.queueOps`). These
operations lead from the queue there was to the queue there is, marks and
backtracks included (`Publishes.perform`), so that none is missing, and
whoever reads a queue only through a reader of its own is served as a ledger
of them says.

# Listeners

A notifier reads the implications, and a search the assignments. A
`Listener` is a theory with both, and a `Call` is anything that is asked
of it, be it of the theory or of a reader. Each call is operations on the
one queue and on the other, and `Listener.along` lists those of a run. What
the notifier passes on is what the ledger of the implications delivers, and
what is read is what the ledger of the assignments delivers, after any
calls (`accounts_performAll`).
-/
import TemporalNetwork.Notification
import TemporalNetwork.Proofs.History.Delivery
import TemporalNetwork.Proofs.Theory.RoundTrip

namespace TemporalNetwork

variable {α β γ : Type}

namespace Checked

/-- What there is to note of the answer, if there is one. -/
def noting (x : Checked α) (note : α → List β) : List β :=
  match x with
  | .ok a => note a
  | .error _ => []

@[simp] theorem noting_ok (a : α) (note : α → List β) : noting (.ok a) note = note a := rfl

/-- What is in no note is not noted. -/
theorem not_mem_noting {x : Checked α} {note : α → List β} {b : β} (h : ∀ a, b ∉ note a) :
    b ∉ x.noting note := by
  cases x with
  | ok a => exact h a
  | error e => exact List.not_mem_nil

/-- Steps that are taken one after the other can be taken in two goes. -/
theorem runAll_append {σ ω : Type} {step : σ → ω → Checked (σ × β)} {s s₁ s₂ : σ}
    {ops₁ ops₂ : List ω} {answers₁ answers₂ : List β}
    (h₁ : runAll step s ops₁ = .ok (s₁, answers₁)) (h₂ : runAll step s₁ ops₂ = .ok (s₂, answers₂)) :
    runAll step s (ops₁ ++ ops₂) = .ok (s₂, answers₁ ++ answers₂) := by
  induction ops₁ generalizing s answers₁ with
  | nil =>
      cases h₁
      exact h₂
  | cons op ops ih =>
      unfold runAll at h₁
      simp only [bind_eq_ok, pure_eq_ok, Prod.mk.injEq] at h₁
      obtain ⟨⟨s', answer⟩, hfirst, ⟨s'', answers⟩, hrest, rfl, rfl⟩ := h₁
      rw [List.cons_append, runAll]
      simp only [bind_eq_ok]
      exact ⟨_, hfirst, _, ih hrest, rfl⟩

end Checked

-- =============================================================== producers

namespace EventQueue

variable {q q' q'' : EventQueue α} {ops ops' : List (QueueOp α)}

/-- The operations lead from one queue to the other, and move no reader. -/
structure Leads (ops : List (QueueOp α)) (q q' : EventQueue α) : Prop where
  producing (op : QueueOp α) : op ∈ ops → op.reader? = none
  run (readers : Nat → QueueReader) : (⟨q, readers⟩ : SharedQueue α).performAll ops
    = .ok (⟨q', readers⟩, ops.map fun _ => .done)

theorem Leads.refl (q : EventQueue α) : Leads [] q q :=
  ⟨fun _ hop => absurd hop List.not_mem_nil, fun _ => rfl⟩

/-- Operations in turn: none of either list is one of a reader. -/
theorem Leads.trans (h : Leads ops q q') (h' : Leads ops' q' q'') :
    Leads (ops ++ ops') q q'' where
  producing op hop := (List.mem_append.mp hop).elim (h.producing op) (h'.producing op)
  run readers := by
    rw [List.map_append]
    exact Checked.runAll_append (h.run readers) (h'.run readers)

/-- A single operation of the producer. -/
theorem leads_of_perform {op : QueueOp α} (hop : op.reader? = none)
    (h : ∀ readers, (⟨q, readers⟩ : SharedQueue α).perform op = .ok (⟨q', readers⟩, .done)) :
    Leads [op] q q' where
  producing other hother := List.mem_singleton.mp hother ▸ hop
  run readers := by
    unfold SharedQueue.performAll Checked.runAll
    simp only [Checked.bind_eq_ok]
    exact ⟨_, h readers, _, rfl, rfl⟩

/-- A queue is saved by one operation. -/
theorem leads_save (q : EventQueue α) : Leads [.save] q q.save :=
  leads_of_perform rfl fun _ => rfl

/-- And restored by one. -/
theorem leads_restoreLast (h : q.restoreLast = .ok q') : Leads [.restoreLast] q q' :=
  leads_of_perform rfl fun _ => Checked.map_eq_ok.mpr ⟨_, h, rfl⟩

/-- Events are appended, and nothing else is done to the queue. -/
structure Appends (q q' : EventQueue α) : Prop where
  events : ∃ new, q'.events = q.events ++ new
  marks : q'.marks = q.marks
  backtracks : q'.backtracks = q.backtracks

theorem Appends.refl (q : EventQueue α) : Appends q q := ⟨⟨#[], Array.append_empty.symm⟩, rfl, rfl⟩

theorem Appends.trans (h : Appends q q') (h' : Appends q' q'') : Appends q q'' := by
  obtain ⟨new, hnew⟩ := h.events
  obtain ⟨new', hnew'⟩ := h'.events
  refine ⟨⟨new ++ new', ?_⟩, h'.marks.trans h.marks, h'.backtracks.trans h.backtracks⟩
  rw [hnew', hnew, Array.append_assoc]

/-- One event more. -/
theorem appends_push (q : EventQueue α) (a : α) : Appends q (q.push a) :=
  ⟨⟨#[a], rfl⟩, rfl, rfl⟩

/-- The pushes by which a queue became longer. -/
def pushes (q q' : EventQueue α) : List (QueueOp α) := (q'.toList.drop q.size).map .push

/-- Events that are pushed one by one end up behind those that were there. -/
theorem leads_map_push (q : EventQueue α) (new : List α) :
    Leads (new.map .push) q { q with events := q.events ++ new.toArray } := by
  induction new generalizing q with
  | nil =>
      rw [Array.append_empty]
      exact .refl q
  | cons a new ih =>
      have hfirst : Leads [.push a] q (q.push a) := leads_of_perform rfl fun _ => rfl
      have hboth : (q.events.push a) ++ new.toArray = q.events ++ (a :: new).toArray :=
        Array.ext' (by simp)
      rw [← hboth]
      exact hfirst.trans (ih (q.push a))

/-- A queue that was appended to was led there by pushes. -/
theorem Appends.leads (h : Appends q q') : Leads (q.pushes q') q q' := by
  obtain ⟨new, hnew⟩ := h.events
  have hlist : q'.toList.drop q.size = new.toList := by
    rw [toList, hnew, Array.toList_append]
    exact List.drop_left
  have heq : q' = { q with events := q.events ++ new.toList.toArray } := by
    obtain ⟨events, marks, backtracks⟩ := q'
    obtain rfl : events = q.events ++ new := hnew
    obtain rfl : marks = q.marks := h.marks
    obtain rfl : backtracks = q.backtracks := h.backtracks
    rfl
  unfold pushes
  rw [hlist]
  conv => arg 3; rw [heq]
  exact leads_map_push q new.toList

end EventQueue

-- =============================================================== one reader

/-- A queue with one reader becomes another one by the operations, and what
is delivered to the reader is listed. -/
structure Serves (ops : List (QueueOp α)) (q : EventQueue α) (r : QueueReader) (q' : EventQueue α)
    (r' : QueueReader) (given : List α) : Prop where
  reader (op : QueueOp α) : op ∈ ops → ∀ i, op.reader? = some i → i = 0
  run (readers : Nat → QueueReader) : readers 0 = r → ∃ readers' answers, readers' 0 = r' ∧
    (⟨q, readers⟩ : SharedQueue α).performAll ops = .ok (⟨q', readers'⟩, answers) ∧
    answers.flatMap QueueAnswer.given = given

section
variable {q q' q'' : EventQueue α} {r r' r'' : QueueReader} {ops ops' : List (QueueOp α)}
  {given given' : List α}

theorem Serves.refl (q : EventQueue α) (r : QueueReader) : Serves [] q r q r [] :=
  ⟨fun _ hop => absurd hop List.not_mem_nil, fun readers hr => ⟨readers, [], hr, rfl, rfl⟩⟩

/-- What is delivered in turn is delivered in that order. -/
theorem Serves.trans (h : Serves ops q r q' r' given) (h' : Serves ops' q' r' q'' r'' given') :
    Serves (ops ++ ops') q r q'' r'' (given ++ given') where
  reader op hop := (List.mem_append.mp hop).elim (h.reader op) (h'.reader op)
  run readers hr := by
    obtain ⟨readers', answers, hr', hrun, hgiven⟩ := h.run readers hr
    obtain ⟨readers'', answers', hr'', hrun', hgiven'⟩ := h'.run readers' hr'
    refine ⟨readers'', answers ++ answers', hr'', Checked.runAll_append hrun hrun', ?_⟩
    rw [List.flatMap_append, hgiven, hgiven']

/-- A reader does not notice what the producer does. -/
theorem EventQueue.Leads.serves (h : EventQueue.Leads ops q q') (r : QueueReader) :
    Serves ops q r q' r [] where
  reader op hop i hi := by
    rw [h.producing op hop] at hi
    cases hi
  run readers hr := by
    refine ⟨readers, ops.map fun _ => .done, hr, h.run readers, ?_⟩
    apply List.flatMap_eq_nil_iff.mpr
    intro answer hanswer
    obtain ⟨op, -, rfl⟩ := List.mem_map.mp hanswer
    rfl

/-- The one reader does something. -/
theorem serves_reading {op : QueueOp α} (answer : QueueAnswer α) (hop : op.reader? = some 0)
    (h : ∀ readers : Nat → QueueReader, readers 0 = r →
      (⟨q, readers⟩ : SharedQueue α).perform op
        = .ok ((⟨q, readers⟩ : SharedQueue α).setReader 0 r', answer)) :
    Serves [op] q r q r' answer.given where
  reader other hother i hi := by
    rw [List.mem_singleton.mp hother, hop] at hi
    exact (Option.some.inj hi).symm
  run readers hr := by
    refine ⟨Function.update readers 0 r', [answer], Function.update_self _ _ _, ?_,
      List.append_nil _⟩
    unfold SharedQueue.performAll Checked.runAll
    simp only [Checked.bind_eq_ok]
    exact ⟨_, h readers hr, _, rfl, rfl⟩

/-- The next event is delivered, if there is one. -/
theorem serves_pop (q : EventQueue α) (r : QueueReader) :
    Serves [.pop 0] q r q (r.pop q).1 (r.pop q).2.toList :=
  serves_reading (.event (r.pop q).2) rfl fun _ hr => by
    subst hr
    rfl

/-- All events that are left are delivered. -/
theorem serves_popAll (q : EventQueue α) (r : QueueReader) :
    Serves [.popAll 0] q r q (r.popAll q).1 (r.popAll q).2 :=
  serves_reading (.events (r.popAll q).2) rfl fun _ hr => by
    subst hr
    rfl

/-- Skipping events delivers none. -/
theorem serves_toEnd (q : EventQueue α) (r : QueueReader) :
    Serves [.toEnd 0] q r q (r.toEnd q) [] :=
  serves_reading .done rfl fun _ hr => by
    subst hr
    rfl

end

/-- After the operations, the queue holds what their ledger says, what was
heard is what the ledger delivered to the one reader there is, each event
once, and so many are left to the reader as the ledger has unread. -/
def Accounts (ops : List (QueueOp α)) (q : EventQueue α) (r : QueueReader) (heard : List α) :
    Prop :=
  ∃ (L : Ledger α) (answers : List (QueueAnswer (Entry α))),
    Ledger.initial.performAll ops = .ok (L, answers) ∧ L.Sound ∧
      L.live.map Entry.value = q.toList ∧
      (answers.flatMap QueueAnswer.given).map Entry.value = heard ∧
      (answers.flatMap QueueAnswer.given).map Entry.stamp = L.delivered 0 ∧
      (r.pending q).2 = (L.unread 0).length

/-- From the start, what is delivered is what the ledger delivers. -/
theorem Serves.accounts {ops : List (QueueOp α)} {q : EventQueue α} {r : QueueReader}
    {given : List α} (h : Serves ops .empty .start q r given) : Accounts ops q r given := by
  obtain ⟨readers, served, rfl, hrun, hgiven⟩ := h.run (fun _ => .start) rfl
  rcases Ledger.tracks_initial.performAll Ledger.sound_initial ops with
    ⟨L, s, answers, hledger, hqueue, hL, htracks⟩ | ⟨fault, -, hqueue⟩
  · rw [SharedQueue.initial, hrun] at hqueue
    cases hqueue
    refine ⟨L, answers, hledger, hL, htracks.events.symm, ?_,
      (Ledger.delivered_performAll h.reader hledger).symm, htracks.pending_eq 0⟩
    rw [← hgiven, List.map_flatMap, List.flatMap_map]
    congr 1
    funext answer
    exact (QueueAnswer.given_map _ _).symm
  · rw [SharedQueue.initial, hrun] at hqueue
    cases hqueue

-- ============================================================= publication

namespace Theory

variable {t t' u : Theory} {ts : List Theory} {l : Literal} {queue : Theory → EventQueue α}

/-- The levels above the given one are closed. -/
def closings (t : Theory) (l : DecisionLevel) : List (QueueOp α) :=
  List.replicate (t.level.depth - l.depth) .restoreLast

/-- What a request is to a queue of the theory, which it leaves as `q'`:
levels are opened and closed, or else events are appended. -/
def Request.queueOps (t : Theory) (q q' : EventQueue α) : Request → List (QueueOp α)
  | .pushCheckpoint => [.save]
  | .restoreLast => [.restoreLast]
  | .backtrack l => t.closings l
  | .reset => t.closings .root
  | .popTo l =>
    match l.parent? with
    | none => t.closings .root
    | some _ => if t.level.depth < l.depth then [] else t.closings l ++ [.restoreLast, .save]
  | _ => q.pushes q'

/-- A queue that is saved and restored with the levels of a theory, and
otherwise only appended to. -/
structure Publishes (queue : Theory → EventQueue α) : Prop where
  saved (t : Theory) : queue t.saved = (queue t).save
  restored {t u : Theory} : t.restoreLast = .ok u → (queue t).restoreLast = .ok (queue u)
  set (t : Theory) (l : Literal) : (queue t).Appends (queue (t.setLiteral l))
  step {t t' : Theory} : Step t t' → (queue t).Appends (queue t')
  extended {t t' : Theory} : Extended t t' → queue t' = queue t

/-- Both queues are restored with the last level. -/
theorem queues_restoreLast (h : t.restoreLast = .ok u) :
    t.assignments.restoreLast = .ok u.assignments ∧
      t.implications.restoreLast = .ok u.implications := by
  unfold restoreLast at h
  simp only [Checked.bind_eq_ok, Checked.pure_eq_ok] at h
  obtain ⟨⟨log, cs⟩, -, g, -, a, hassignments, i, himplications, rfl⟩ := h
  obtain ⟨values, conflict, heq, -⟩ := foldl_undo cs { t with log, pending := [] }
  rw [heq] at hassignments himplications
  exact ⟨hassignments, himplications⟩

/-- An assignment is published by every literal that is set, be it asked for
or implied, and by nothing else. -/
theorem publishes_assignments : Publishes Theory.assignments where
  saved _ := rfl
  restored h := (queues_restoreLast h).1
  set t l := by
    cases hvalue : t.value l with
    | some b =>
        rw [setLiteral_of_some hvalue]
        exact .refl _
    | none =>
        rw [setLiteral_of_none hvalue]
        exact EventQueue.appends_push _ _
  step h := by
    cases h with
    | counted stats => exact .refl _
    | dropped sub => exact .refl _
    | implied hnone hvar htrue hvalid =>
        rw [imply_of_none hnone, setLiteral_of_none hnone]
        exact EventQueue.appends_push _ _
    | activated henabled haccepts hgrounded => exact .refl _
    | refuted hnone henabled hvalid => exact .refl _
  extended h := h.assignments

/-- An implication is published by a literal that is implied, and not by one
that was asked for. -/
theorem publishes_implications : Publishes Theory.implications where
  saved _ := rfl
  restored h := (queues_restoreLast h).2
  set t l := by
    cases hvalue : t.value l with
    | some b =>
        rw [setLiteral_of_some hvalue]
        exact .refl _
    | none =>
        rw [setLiteral_of_none hvalue]
        exact .refl _
  step h := by
    cases h with
    | counted stats => exact .refl _
    | dropped sub => exact .refl _
    | implied hnone hvar htrue hvalid =>
        rw [imply_of_none hnone, setLiteral_of_none hnone]
        exact EventQueue.appends_push _ _
    | activated henabled haccepts hgrounded => exact .refl _
    | refuted hnone henabled hvalid => exact .refl _
  extended h := h.implications

/-- The level that is gone back to is the one then. -/
theorem Stack.level_restore {level : DecisionLevel} (hts : Stack ts t)
    (hopen : level.depth ≤ t.level.depth) (h : t.restore level = .ok u) : u.level = level := by
  have hstack : Stack (ts.drop (ts.length - level.depth)) u := (turns_restore hts h).stack hts
  have hle : level.depth ≤ ts.length := by
    rw [hts.level_eq] at hopen
    exact hopen
  have hlength : ts.length - (ts.length - level.depth) = level.depth := by omega
  rw [hstack.level_eq, List.length_drop, hlength]

section
variable (hqueue : Publishes queue)
include hqueue

theorem Publishes.steps (h : Steps t t') : (queue t).Appends (queue t') := by
  induction h with
  | refl => exact .refl _
  | tail _ hstep ih => exact ih.trans (hqueue.step hstep)

theorem Publishes.extend (h : Extended t t') : (queue t).Appends (queue t') := by
  rw [hqueue.extended h]
  exact .refl _

/-- Whatever changes a theory at the root appends to its queues. -/
theorem Publishes.changes (h : Changes t t') : (queue t).Appends (queue t') := by
  induction h with
  | refl => exact .refl _
  | tail _ hchange ih =>
      cases hchange with
      | extended hextended => exact ih.trans (hqueue.extend hextended)
      | step hstep => exact ih.trans (hqueue.step hstep)

/-- So does each request that sets up the problem. -/
theorem Publishes.setsUp (h : SetsUp t t') : (queue t).Appends (queue t') := by
  cases h with
  | refused same =>
      rw [same]
      exact .refl _
  | declared added =>
      rw [added]
      exact hqueue.extend (extended_newVariable t)
  | extended root settles => exact hqueue.changes settles.changes

/-- So does setting a literal, with all that follows from it. -/
theorem Publishes.assign {r : Except AssignError Unit} (ht : t.Settled)
    (h : t.assign l = .ok (t', r)) : (queue t).Appends (queue t') := by
  by_cases hset : t.hasVariable l.var = true ∧ t.conflict = none
  · obtain ⟨-, hsteps⟩ := steps_assign ht hset.1 hset.2 h
    exact (hqueue.set t l).trans (hqueue.steps hsteps)
  · rw [eq_of_assign h hset]
    exact .refl _

/-- Closing levels restores the queue as many times. -/
theorem Publishes.restoreTimes {n : Nat} (h : t.restoreTimes n = .ok u) :
    EventQueue.Leads (List.replicate n .restoreLast) (queue t) (queue u) := by
  induction n generalizing t with
  | zero =>
      cases h
      exact .refl _
  | succ n ih =>
      unfold Theory.restoreTimes at h
      rw [Checked.bind_eq_ok] at h
      obtain ⟨t₁, hlast, hrest⟩ := h
      exact (EventQueue.leads_restoreLast (hqueue.restored hlast)).trans (ih hrest)

theorem Publishes.restore {level : DecisionLevel} (h : t.restore level = .ok u) :
    EventQueue.Leads (t.closings level) (queue t) (queue u) := hqueue.restoreTimes h

/-- A level that is not open is not gone back to. -/
theorem Publishes.backtrack {level : DecisionLevel} {r : Except Misuse Unit}
    (h : t.backtrack level = .ok (u, r)) :
    EventQueue.Leads (t.closings level) (queue t) (queue u) := by
  unfold Theory.backtrack at h
  split at h
  next hlt =>
    cases h
    unfold closings
    rw [Nat.sub_eq_zero_of_le (Nat.le_of_lt hlt)]
    exact .refl _
  next =>
    simp only [Checked.map_eq_ok, Prod.mk.injEq] at h
    obtain ⟨t₁, hrestore, rfl, -⟩ := h
    exact hqueue.restore hrestore

/-- The level itself is closed, and opened again. -/
theorem Publishes.popTo {level : DecisionLevel} {r : Except Misuse Unit} (hts : Stack ts t)
    (h : t.popTo level = .ok (u, r)) :
    EventQueue.Leads ((Request.popTo level).queueOps t (queue t) (queue u)) (queue t)
      (queue u) := by
  obtain ⟨depth⟩ := level
  cases depth with
  | zero => exact hqueue.backtrack h
  | succ k =>
      unfold Theory.popTo at h
      simp only [DecisionLevel.parent?] at h
      simp only [Request.queueOps, DecisionLevel.parent?]
      split at h
      next hlt =>
        cases h
        rw [if_pos hlt]
        exact .refl _
      next hnlt =>
        simp only [Checked.bind_eq_ok, Checked.pure_eq_ok, Prod.mk.injEq,
          pushCheckpoint_eq_ok] at h
        obtain ⟨t₁, hfirst, t₂, hsecond, t₃, ⟨-, rfl⟩, -, -, rfl, -⟩ := h
        rw [if_neg hnlt]
        -- one level is left to be closed
        have hone : (t₁.closings ⟨k⟩ : List (QueueOp α)) = [.restoreLast] := by
          unfold closings
          rw [hts.level_restore (Nat.not_lt.mp hnlt) hfirst, Nat.add_sub_cancel_left]
          rfl
        have hclosed := hqueue.restore hsecond
        rw [hone] at hclosed
        have hopened := EventQueue.leads_save (queue t₂)
        rw [← hqueue.saved] at hopened
        exact (hqueue.restore hfirst).trans (hclosed.trans hopened)

/-- A request is to a queue what it is said to be. -/
theorem Publishes.perform {r : Request} {reply : Reply} (hts : Stack ts t)
    (h : t.perform r = .ok (t', reply)) :
    EventQueue.Leads (r.queueOps t (queue t) (queue t')) (queue t) (queue t') := by
  have ht := hts.settled
  -- a request that sets up the problem only appends, if anything
  have hsetup : r.isSetup = true → (queue t).Appends (queue t') := fun hsets =>
    hqueue.setsUp (setsUp_perform ht hsets h)
  cases r with
  | configure c =>
      cases h
      exact (hqueue.extend (extended_configure t c)).leads
  | assign l =>
      obtain ⟨a, hrun, -⟩ := replying_eq_ok.mp h
      exact (hqueue.assign ht hrun).leads
  | propagate =>
      obtain ⟨t₁, hrun, heq⟩ := Checked.map_eq_ok.mp h
      cases heq
      obtain ⟨-, hadvances⟩ := settled_propagate ht.coherent ht.covered ht.fired hrun
      exact (hqueue.steps hadvances.steps).leads
  | pushCheckpoint =>
      obtain ⟨t₁, hrun, heq⟩ := Checked.map_eq_ok.mp h
      cases heq
      obtain ⟨-, rfl⟩ := pushCheckpoint_eq_ok.mp hrun
      rw [hqueue.saved]
      exact EventQueue.leads_save _
  | backtrack level =>
      obtain ⟨a, hrun, -⟩ := replying_eq_ok.mp h
      exact hqueue.backtrack hrun
  | popTo level =>
      obtain ⟨a, hrun, -⟩ := replying_eq_ok.mp h
      exact hqueue.popTo hts hrun
  | restoreLast =>
      obtain ⟨t₁, hrun, heq⟩ := Checked.map_eq_ok.mp h
      cases heq
      exact EventQueue.leads_restoreLast (hqueue.restored hrun)
  | reset =>
      obtain ⟨t₁, hrun, heq⟩ := Checked.map_eq_ok.mp h
      cases heq
      exact hqueue.restore hrun
  | _ => exact (hsetup rfl).leads

end

end Theory

-- =============================================================== listeners

/-- A theory, what passes its implications on, and a reader of its
assignments. -/
structure Listener where
  theory : Theory
  notifier : Notifier
  reader : QueueReader

/-- Something asked of a theory or of those who listen to it. -/
inductive Call where
  | request (r : Theory.Request)
  /-- Through the notifier. -/
  | assign (l : Literal)
  | sync
  /-- The next assignment is read. -/
  | read
  /-- All assignments there are count as read. -/
  | skip

/-- What is heard. -/
inductive Heard where
  | nothing
  | notified (ns : List Notification)
  | assignment (l : Option Literal)

/-- The implications that an engine was told. -/
def Heard.implications : Heard → List Implication
  | .notified ns => ns.filterMap fun
    | .implied l x => some ⟨l, x⟩
    | .conflict _ => none
  | _ => []

/-- The assignments that were read. -/
def Heard.assignments : Heard → List Literal
  | .assignment l => l.toList
  | _ => []

namespace Listener

def initial (c : Config) : Listener := ⟨.initial c, .initial, .start⟩

def perform (x : Listener) : Call → Checked (Listener × Heard)
  | .request r => (x.theory.perform r).map fun (theory, _) => ({ x with theory }, .nothing)
  | .assign l => (x.notifier.assign x.theory l).map fun a =>
      ({ x with theory := a.theory, notifier := a.notifier }, .notified a.notifications)
  | .sync =>
    let (notifier, ns) := x.notifier.sync x.theory
    .ok ({ x with notifier }, .notified ns)
  | .read =>
    let (reader, l) := x.reader.pop x.theory.assignments
    .ok ({ x with reader }, .assignment l)
  | .skip => .ok ({ x with reader := x.reader.toEnd x.theory.assignments }, .nothing)

def performAll (x : Listener) (calls : List Call) : Checked (Listener × List Heard) :=
  Checked.runAll perform x calls

/-- What there is to note of calls in turn, as they lead from one state to
the next. -/
def along (note : Call → Listener → Listener → List β) : List Call → Listener → List β
  | [], _ => []
  | call :: calls, x =>
    (x.perform call).noting fun (x', _) => note call x x' ++ along note calls x'

end Listener

/-- The literal is accepted without a conflict. -/
def Theory.accepts (t : Theory) (l : Literal) : Bool := (t.assign l).answers (·.2.isOk)

/-- What a call that leads from `x` to `x'` is to the queue of implications
and its one reader. The notifier passes on what there is after a literal was
accepted. -/
def Call.implicationOps (x x' : Listener) : Call → List (QueueOp Implication)
  | .request r => r.queueOps x.theory x.theory.implications x'.theory.implications
  | .assign l => x.theory.implications.pushes x'.theory.implications
      ++ if x.theory.accepts l then [.popAll 0] else []
  | .sync => [.popAll 0]
  | .read | .skip => []

/-- What a call that leads from `x` to `x'` is to the queue of assignments
and its one reader. -/
def Call.assignmentOps (x x' : Listener) : Call → List (QueueOp Literal)
  | .request r => r.queueOps x.theory x.theory.assignments x'.theory.assignments
  | .assign _ => x.theory.assignments.pushes x'.theory.assignments
  | .sync => []
  | .read => [.pop 0]
  | .skip => [.toEnd 0]

/-- What the calls are to the queue of implications, one after the other. -/
def Listener.implicationOps (x : Listener) (calls : List Call) : List (QueueOp Implication) :=
  x.along (fun call x x' => call.implicationOps x x') calls

/-- What the calls are to the queue of assignments, one after the other. -/
def Listener.assignmentOps (x : Listener) (calls : List Call) : List (QueueOp Literal) :=
  x.along (fun call x x' => call.assignmentOps x x') calls

namespace Listener

open Theory (Stack publishes_assignments publishes_implications)

variable {x x' : Listener} {call : Call} {heard : Heard} {ts : List Theory} {l : Literal}

/-- What is passed on in one go is what there was left to be read. -/
theorem implications_sync (c : Notifier) (t : Theory) :
    (Heard.notified (c.sync t).2).implications = (c.reader.popAll t.implications).2 := by
  unfold Heard.implications Notifier.sync
  simp [List.filterMap_map]

/-- Setting a literal through the notifier sets it in the theory. What is
left to be read is passed on if it is accepted, and no implication
otherwise. -/
theorem assign_eq_ok {c : Notifier} {t : Theory} {a : Notifier.Assigned}
    (h : c.assign t l = .ok a) :
    ∃ r, t.assign l = .ok (a.theory, r) ∧
      (r.isOk = true ∧ a.notifier = (c.sync a.theory).1 ∧
          a.notifications = (c.sync a.theory).2 ∨
        r.isOk = false ∧ a.accepted ≠ .ok true ∧ a.notifier = c ∧
          (Heard.notified a.notifications).implications = []) := by
  unfold Notifier.assign at h
  simp only [Checked.bind_eq_ok, Checked.pure_eq_ok] at h
  obtain ⟨⟨t', r⟩, hrun, rfl⟩ := h
  refine ⟨r, hrun.trans ?_, ?_⟩
  · rcases r with (conflict | misuse) | _ <;> rfl
  · rcases r with (conflict | misuse) | _
    · exact .inr ⟨rfl, fun hok => (by cases hok), rfl, rfl⟩
    · exact .inr ⟨rfl, fun hok => (by cases hok), rfl, rfl⟩
    · exact .inl ⟨rfl, rfl, rfl⟩

/-- The notifier reads once the literal was accepted, and otherwise not at
all. -/
theorem serves_assign {a : Notifier.Assigned} (h : x.notifier.assign x.theory l = .ok a) :
    Serves (if x.theory.accepts l then [.popAll 0] else []) a.theory.implications
      x.notifier.reader a.theory.implications a.notifier.reader
      (Heard.notified a.notifications).implications := by
  obtain ⟨r, hrun, hcases⟩ := assign_eq_ok h
  have haccepts : x.theory.accepts l = r.isOk := by
    unfold Theory.accepts
    rw [hrun]
    rfl
  rcases hcases with ⟨hok, hnotifier, hall⟩ | ⟨hnot, -, hnotifier, hnone⟩
  · rw [if_pos (haccepts.trans hok), hnotifier, hall, implications_sync]
    exact serves_popAll _ _
  · rw [haccepts, hnot, hnotifier, hnone]
    exact .refl _ _

/-- What is heard of a call is what its operations deliver. -/
theorem serves_perform (hts : Stack ts x.theory) (h : x.perform call = .ok (x', heard)) :
    Serves (call.implicationOps x x') x.theory.implications x.notifier.reader
        x'.theory.implications x'.notifier.reader heard.implications ∧
      Serves (call.assignmentOps x x') x.theory.assignments x.reader x'.theory.assignments
        x'.reader heard.assignments ∧ ∃ ts', Stack ts' x'.theory := by
  cases call with
  | request r =>
      obtain ⟨⟨t, reply⟩, hrun, heq⟩ := Checked.map_eq_ok.mp h
      cases heq
      exact ⟨(publishes_implications.perform hts hrun).serves _,
        (publishes_assignments.perform hts hrun).serves _, hts.perform hrun⟩
  | assign l =>
      obtain ⟨a, hrun, heq⟩ := Checked.map_eq_ok.mp h
      cases heq
      obtain ⟨r, hset, -⟩ := assign_eq_ok hrun
      have ht := hts.settled
      obtain ⟨hextends, -, hsettled⟩ := Theory.extends_assign ht hset
      exact ⟨((publishes_implications.assign ht hset).leads.serves _).trans (serves_assign hrun),
        (publishes_assignments.assign ht hset).leads.serves _, ts, hts.extends hextends hsettled⟩
  | sync =>
      cases h
      have hall := serves_popAll x.theory.implications x.notifier.reader
      rw [← implications_sync] at hall
      exact ⟨hall, .refl _ _, ts, hts⟩
  | read =>
      cases h
      exact ⟨.refl _ _, serves_pop _ _, ts, hts⟩
  | skip =>
      cases h
      exact ⟨.refl _ _, serves_toEnd _ _, ts, hts⟩

/-- The calls in turn, each from the state that the one before has led to. -/
theorem serves_performAll {calls : List Call} {heards : List Heard} (hts : Stack ts x.theory)
    (h : x.performAll calls = .ok (x', heards)) :
    Serves (x.implicationOps calls) x.theory.implications x.notifier.reader
        x'.theory.implications x'.notifier.reader (heards.flatMap Heard.implications) ∧
      Serves (x.assignmentOps calls) x.theory.assignments x.reader x'.theory.assignments
        x'.reader (heards.flatMap Heard.assignments) := by
  unfold performAll at h
  unfold implicationOps assignmentOps
  induction calls generalizing x ts heards with
  | nil =>
      cases h
      exact ⟨.refl _ _, .refl _ _⟩
  | cons call calls ih =>
      unfold Checked.runAll at h
      simp only [Checked.bind_eq_ok, Checked.pure_eq_ok, Prod.mk.injEq] at h
      obtain ⟨⟨x₁, heard⟩, hfirst, ⟨x₂, rest⟩, hrest, rfl, rfl⟩ := h
      obtain ⟨himplications, hassignments, ts₁, hts₁⟩ := serves_perform hts hfirst
      obtain ⟨himplications', hassignments'⟩ := ih hts₁ hrest
      simp only [along, hfirst, Checked.noting_ok]
      exact ⟨himplications.trans himplications', hassignments.trans hassignments'⟩

/-- Whoever listens to a theory from the start hears what the ledgers of its
queues deliver. -/
theorem accounts_performAll {c : Config} {calls : List Call} {heards : List Heard}
    (h : (initial c).performAll calls = .ok (x, heards)) :
    Accounts ((initial c).implicationOps calls) x.theory.implications x.notifier.reader
        (heards.flatMap Heard.implications) ∧
      Accounts ((initial c).assignmentOps calls) x.theory.assignments x.reader
        (heards.flatMap Heard.assignments) := by
  have hstack : Stack [] (initial c).theory :=
    .root (Theory.settled_initial c) (Theory.atRoot_initial c)
  obtain ⟨himplications, hassignments⟩ := serves_performAll hstack h
  exact ⟨himplications.accounts, hassignments.accounts⟩

end Listener

/-- All implications there are were passed on. -/
theorem Notifier.pending_sync (c : Notifier) (t : Theory) :
    ((c.sync t).1.reader.pending t.implications).2 = 0 := by
  show t.implications.size
    - ((⟨t.implications.size, t.implications.backtracks.size⟩ : QueueReader).sync
      t.implications).next = 0
  rw [QueueReader.next_sync_mk, Nat.sub_self]

/-- Nothing is left to be passed on after a literal was accepted. -/
theorem Notifier.pending_assign {c : Notifier} {t : Theory} {l : Literal} {a : Notifier.Assigned}
    (h : c.assign t l = .ok a) (haccepted : a.accepted = .ok true) :
    (a.notifier.reader.pending a.theory.implications).2 = 0 := by
  obtain ⟨r, -, ⟨-, hnotifier, -⟩ | ⟨-, hnot, -⟩⟩ := Listener.assign_eq_ok h
  · rw [hnotifier]
    exact pending_sync c a.theory
  · exact absurd haccepted hnot

end TemporalNetwork
