/-
Handles: typed numbers for the things that a structure holds.

Timepoints, edges, variables and clauses are numbered from 0 in the
order in which they are created, each with a type of its own, so that a
number of one kind cannot be used as one of another. A `Handle` type is
nothing but its index: the two maps are inverse to each other, which is
what lets an array stand for a map from handles.

Numbers given from outside have 32 bits, of which the last value is not
a handle: `Handle.ofNumber` is the only way in that can fault. Handles that
are given out are not counted against these bits. It is an assumption of
the whole project that they suffice, as they do for any history of fewer
than `2 ^ 31` requests (`Theory.fits_of_performAll`).
-/
import TemporalNetwork.Fault

namespace TemporalNetwork

/-- A type that is numbered by an index. -/
class Handle (κ : Type) where
  /-- Position of the handle. -/
  index : κ → Nat
  /-- The handle at a position. -/
  ofIndex : Nat → κ
  index_ofIndex (n : Nat) : index (ofIndex n) = n
  ofIndex_index (k : κ) : ofIndex (index k) = k

namespace Handle

variable {κ : Type} [Handle κ]

attribute [simp] index_ofIndex ofIndex_index

theorem index_inj {j k : κ} : index j = index k ↔ j = k := by
  constructor
  · intro h
    rw [← ofIndex_index j, h, ofIndex_index]
  · exact congrArg index

/-- The handle of a number given from outside: its lowest 32 bits, the
largest value of which is no handle. -/
def ofNumber (n : Nat) : Checked κ :=
  if n % 4294967296 = 4294967295 then .error .numberTooLarge
  else .ok (ofIndex (n % 4294967296))

end Handle

-- ========================================================= kinds of handle

/-- A point in time, whose value is an integer. -/
structure Timepoint where
  index : Nat
  deriving DecidableEq, Inhabited

instance : Handle Timepoint := ⟨Timepoint.index, .mk, fun _ => rfl, fun _ => rfl⟩

instance : ToString Timepoint := ⟨fun tp => s!"Timepoint{tp.index}"⟩

/-- The timepoint whose value is always 0. Upper and lower bounds of the
others are their distances from and to it. -/
def Timepoint.origin : Timepoint := ⟨0⟩

/-- Names an edge of a network. -/
structure EdgeId where
  index : Nat
  deriving DecidableEq, Inhabited

instance : Handle EdgeId := ⟨EdgeId.index, .mk, fun _ => rfl, fun _ => rfl⟩

instance : ToString EdgeId := ⟨fun e => s!"EdgeId{e.index}"⟩

/-- A boolean variable. -/
structure BoolVar where
  index : Nat
  deriving DecidableEq, Inhabited

instance : Handle BoolVar := ⟨BoolVar.index, .mk, fun _ => rfl, fun _ => rfl⟩

instance : ToString BoolVar := ⟨fun v => s!"BVar{v.index}"⟩

/-- Names a clause of a database. -/
structure ClauseId where
  index : Nat
  deriving DecidableEq, Inhabited

instance : Handle ClauseId := ⟨ClauseId.index, .mk, fun _ => rfl, fun _ => rfl⟩

instance : ToString ClauseId := ⟨fun c => s!"ClauseId{c.index}"⟩

/-- Position of an event in a queue. -/
structure EventIndex where
  index : Nat
  deriving DecidableEq, Inhabited

instance : Handle EventIndex := ⟨EventIndex.index, .mk, fun _ => rfl, fun _ => rfl⟩

/-- Shown as a count: the first event is the first, not the zeroth. -/
instance : ToString EventIndex := ⟨fun i => s!"EventIndex({i.index + 1})"⟩

end TemporalNetwork
