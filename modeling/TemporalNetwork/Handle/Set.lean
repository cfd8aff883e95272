/-
Sets of handles.

A set marks its members in a map with no values, so that membership,
insertion and removal cost one look-up. Members are listed in the order
of their handles.
-/
import TemporalNetwork.Handle.Map

namespace TemporalNetwork

/-- A finite set of handles of type `κ`. -/
structure HandleSet (κ : Type) where
  marks : HandleMap κ Unit

namespace HandleSet

variable {κ : Type}

def empty : HandleSet κ := ⟨.empty⟩

instance : Inhabited (HandleSet κ) := ⟨empty⟩

section
variable [Handle κ]

def contains (s : HandleSet κ) (k : κ) : Bool := s.marks.contains k

def insert (s : HandleSet κ) (k : κ) : HandleSet κ := ⟨s.marks.insert k ()⟩

def erase (s : HandleSet κ) (k : κ) : HandleSet κ := ⟨s.marks.erase k⟩

/-- The members by increasing handle. -/
def toList (s : HandleSet κ) : List κ := s.marks.toList.map Prod.fst

def size (s : HandleSet κ) : Nat := s.toList.length

-- ==================================================== reading after writing

@[simp] theorem contains_empty (k : κ) : (empty : HandleSet κ).contains k = false := by
  simp [empty, contains, HandleMap.contains]

theorem contains_insert (s : HandleSet κ) (j k : κ) :
    (s.insert j).contains k = (decide (Handle.index j = Handle.index k) || s.contains k) := by
  simp only [contains, insert, HandleMap.contains, HandleMap.get?_insert]
  split <;> simp_all

theorem contains_erase (s : HandleSet κ) (j k : κ) :
    (s.erase j).contains k = (!decide (Handle.index j = Handle.index k) && s.contains k) := by
  simp only [contains, erase, HandleMap.contains, HandleMap.get?_erase]
  split <;> simp_all

end

end HandleSet

end TemporalNetwork
