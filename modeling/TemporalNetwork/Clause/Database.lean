/-
A database of clauses, indexed by the literals that they watch.

Clauses are only added. A clause that watches a literal is listed under
the negation of it, and revisited when that becomes true. As long as a
watched literal is not false, or the other one is true, the clause is
neither unit nor violated, so nothing is missed by looking at it only
then.

A clause is not watched when it is added: its watches are selected later,
under the assignment that holds by then.
-/
import TemporalNetwork.Clause
import TemporalNetwork.Handle.Vector

namespace TemporalNetwork

/-- Clauses, and those to revisit when a literal becomes true. -/
structure ClauseDatabase where
  clauses : HandleVector ClauseId Clause
  watchers : HandleVector Literal (Array ClauseId)

namespace ClauseDatabase

def empty : ClauseDatabase := ⟨.empty, .empty⟩

def size (db : ClauseDatabase) : Nat := db.clauses.size

def numLearnt (db : ClauseDatabase) : Nat := db.clauses.values.countP (·.learnt)

def ids (db : ClauseDatabase) : List ClauseId := db.clauses.keys

def clause (db : ClauseDatabase) (id : ClauseId) : Checked Clause := db.clauses.read id

/-- Adds a clause, which is not watched. -/
def add (db : ClauseDatabase) (c : Clause) : ClauseDatabase × ClauseId :=
  ({ db with clauses := db.clauses.push c }, db.clauses.nextKey)

-- ================================================================= watches

/-- The clauses to revisit when the literal becomes true. -/
def watchersOf (db : ClauseDatabase) (l : Literal) : List ClauseId :=
  (db.watchers.get l).toList

/-- Lists the clause under a literal, as the last to be revisited. -/
def addWatcher (db : ClauseDatabase) (l : Literal) (id : ClauseId) : ClauseDatabase :=
  { db with watchers := db.watchers.update l (·.push id) }

def setLiterals (db : ClauseDatabase) (id : ClauseId) (ls : List Literal) : ClauseDatabase :=
  { db with clauses := db.clauses.modify id fun c => { c with literals := ls } }

/-- Selects the literals that a clause watches, and lists it under their
negations. False literals are only watched if there are not enough
others; what the clause is then has to be dealt with at once. -/
def watch (db : ClauseDatabase) (id : ClauseId) (v : Valuation) :
    Checked (ClauseDatabase × ClauseStatus) := do
  let c ← db.clause id
  let c := c.sortByValue v
  let db := db.setLiterals id c.literals
  return (c.watched.foldl (fun db l => db.addWatcher l.negate id) db, c.status v)

/-- Takes the clause off the lists of its watched literals. -/
def unwatch (db : ClauseDatabase) (id : ClauseId) : Checked ClauseDatabase := do
  let c ← db.clause id
  return c.watched.foldl (fun db l =>
    { db with watchers := db.watchers.modify l.negate (·.filter (· ≠ id)) }) db

/-- Takes all clauses off their lists. -/
def unwatchAll (db : ClauseDatabase) : ClauseDatabase := { db with watchers := .empty }

/-- Takes the clauses off the list of a literal, in order. -/
def takeWatchers (db : ClauseDatabase) (l : Literal) : ClauseDatabase × List ClauseId :=
  ({ db with watchers := db.watchers.set l #[] }, db.watchersOf l)

/-- Gives clauses that were taken back to the list of the literal. -/
def restoreWatchers (db : ClauseDatabase) (l : Literal) (ids : List ClauseId) :
    ClauseDatabase :=
  ids.foldl (fun db id => db.addWatcher l id) db

-- ================================================================= revisits

/-- The first literal that is not false, with those before and after. -/
def splitAtNonFalse (v : Valuation) :
    List Literal → Option (List Literal × Literal × List Literal)
  | [] => none
  | l :: rest =>
    if v l ≠ some false then some ([], l, rest)
    else (splitAtNonFalse v rest).map fun (before, m, after) => (l :: before, m, after)

/-- Updates the watches of a clause that watches the negation of `p` and
was taken off the list of `p`, now that `p` is true.

If another literal that is not false can be watched instead it changes
places with the false one, and nothing else needs to be done. Otherwise
the clause stays on the list of `p`, and is what it is found to be. -/
def revisit (db : ClauseDatabase) (id : ClauseId) (p : Literal) (v : Valuation) :
    Checked (ClauseDatabase × ClauseStatus) := do
  let c ← db.clause id
  match c.literals with
  | [] => .error .outOfBounds
  | [l] =>
    Checked.require (l = p.negate) .notWatched
    return (db.addWatcher p id, .violated)
  | first :: second :: rest =>
    let (other, mine) := if first = p.negate then (second, first) else (first, second)
    Checked.require (mine = p.negate) .notWatched
    let db := db.setLiterals id (other :: mine :: rest)
    if v other = some true then
      return (db.addWatcher p id, .satisfied)
    else match splitAtNonFalse v rest with
      | some (before, replacement, after) =>
        let db := db.setLiterals id (other :: replacement :: (before ++ mine :: after))
        return (db.addWatcher replacement.negate id, .undetermined)
      | none =>
        return (db.addWatcher p id,
          match v other with
          | none => .unit other
          | some _ => .violated)

end ClauseDatabase

end TemporalNetwork
