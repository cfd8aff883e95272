/-
Sparse maps from handles.

A map is an array of optional values. It holds no more than its entries:
growing the array for a key, or emptying a slot, shows in no answer.
Entries are listed in the order of their handles.
-/
import TemporalNetwork.Handle

namespace TemporalNetwork

/-- A partial map from handles of type `κ`. -/
structure HandleMap (κ α : Type) where
  slots : Array (Option α)

namespace HandleMap

variable {κ α : Type}

def empty : HandleMap κ α := ⟨#[]⟩

instance : Inhabited (HandleMap κ α) := ⟨empty⟩

section
variable [Handle κ]

def get? (m : HandleMap κ α) (k : κ) : Option α :=
  m.slots.getD (Handle.index k) none

def contains (m : HandleMap κ α) (k : κ) : Bool := (m.get? k).isSome

def insert (m : HandleMap κ α) (k : κ) (a : α) : HandleMap κ α :=
  ⟨(m.slots ++ Array.replicate (Handle.index k + 1 - m.slots.size) none).setIfInBounds
    (Handle.index k) (some a)⟩

def erase (m : HandleMap κ α) (k : κ) : HandleMap κ α :=
  ⟨m.slots.setIfInBounds (Handle.index k) none⟩

/-- The entries by increasing handle. -/
def toList (m : HandleMap κ α) : List (κ × α) :=
  (List.range m.slots.size).filterMap fun i =>
    (m.slots.getD i none).map fun a => (Handle.ofIndex i, a)

/-- The entries in turn, a later one for a key replacing an earlier. -/
def ofList (entries : List (κ × α)) : HandleMap κ α :=
  entries.foldl (fun m e => m.insert e.1 e.2) empty

/-- Shown as `{key -> value, …}`. -/
def text [ToString κ] [ToString α] (m : HandleMap κ α) : String :=
  "\x7b" ++ ", ".intercalate (m.toList.map fun e => s!"{e.1} -> {e.2}") ++ "\x7d"

-- ==================================================== reading after writing

@[simp] theorem get?_empty (k : κ) : (empty : HandleMap κ α).get? k = none := by
  simp [empty, get?]

theorem get?_insert (m : HandleMap κ α) (j k : κ) (a : α) :
    (m.insert j a).get? k
      = if Handle.index j = Handle.index k then some a else m.get? k := by
  simp only [get?, insert, Array.getD_eq_getD_getElem?, Array.getElem?_setIfInBounds,
    Array.getElem?_append, Array.getElem?_replicate, Array.size_append, Array.size_replicate]
  grind

theorem mem_toList (m : HandleMap κ α) (k : κ) (a : α) :
    (k, a) ∈ m.toList ↔ m.get? k = some a := by
  unfold toList get?
  rw [List.mem_filterMap]
  constructor
  · rintro ⟨i, -, hi⟩
    obtain ⟨b, hb, heq⟩ := Option.map_eq_some_iff.mp hi
    cases heq
    rw [Handle.index_ofIndex]
    exact hb
  · intro h
    refine ⟨Handle.index k, ?_, ?_⟩
    · rw [List.mem_range]
      rcases Nat.lt_or_ge (Handle.index k) m.slots.size with hlt | hge
      · exact hlt
      · rw [Array.getD_eq_getD_getElem?, Array.getElem?_eq_none hge] at h
        cases h
    · rw [h, Handle.ofIndex_index]
      rfl

/-- The entries are listed by increasing handle, each key once. -/
theorem pairwise_toList (m : HandleMap κ α) :
    m.toList.Pairwise fun a b => Handle.index a.1 < Handle.index b.1 := by
  unfold toList
  refine List.Pairwise.filterMap _ (fun i j hij a ha b hb => ?_) List.pairwise_lt_range
  obtain ⟨_, -, rfl⟩ := Option.map_eq_some_iff.mp ha
  obtain ⟨_, -, rfl⟩ := Option.map_eq_some_iff.mp hb
  simp only [Handle.index_ofIndex]
  exact hij

theorem get?_erase (m : HandleMap κ α) (j k : κ) :
    (m.erase j).get? k
      = if Handle.index j = Handle.index k then none else m.get? k := by
  simp only [get?, erase, Array.getD_eq_getD_getElem?, Array.getElem?_setIfInBounds]
  grind

end

end HandleMap

end TemporalNetwork
