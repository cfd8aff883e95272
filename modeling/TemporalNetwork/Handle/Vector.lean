/-
Vectors indexed by handles.

Keys are dense: the n-th value pushed has the n-th handle. A vector is
read in two ways. `get?` tells whether the key is there; `get` answers
the default of the type where it is not, and is for keys that the
owner created itself. Writing outside the vector changes nothing, except
for `fill` and `update`, which first grow it.
-/
import TemporalNetwork.Handle

namespace TemporalNetwork

/-- A vector whose positions are the handles of type `κ`. -/
structure HandleVector (κ α : Type) where
  items : Array α

namespace HandleVector

variable {κ α : Type}

def empty : HandleVector κ α := ⟨#[]⟩

instance : Inhabited (HandleVector κ α) := ⟨empty⟩

def ofList (xs : List α) : HandleVector κ α := ⟨xs.toArray⟩

def size (v : HandleVector κ α) : Nat := v.items.size

def isEmpty (v : HandleVector κ α) : Bool := v.size == 0

def values (v : HandleVector κ α) : List α := v.items.toList

/-- Appends a value, under the next handle. -/
def push (v : HandleVector κ α) (a : α) : HandleVector κ α := ⟨v.items.push a⟩

@[simp] theorem size_push (v : HandleVector κ α) (a : α) :
    (v.push a).size = v.size + 1 := by
  simp [size, push]

section
variable [Handle κ]

/-- The handle that the next value pushed will have. It is taken to be one
of the 32 bits that handles have: vectors are never so long that they run
out of them. -/
def nextKey (v : HandleVector κ α) : κ := Handle.ofIndex v.size

def contains (v : HandleVector κ α) (k : κ) : Bool :=
  decide (Handle.index k < v.size)

def get? (v : HandleVector κ α) (k : κ) : Option α := v.items[Handle.index k]?

def get [Inhabited α] (v : HandleVector κ α) (k : κ) : α := (v.get? k).getD default

def set (v : HandleVector κ α) (k : κ) (a : α) : HandleVector κ α :=
  ⟨v.items.setIfInBounds (Handle.index k) a⟩

/-- Replaces the value of a key that is there. -/
def modify (v : HandleVector κ α) (k : κ) (f : α → α) : HandleVector κ α :=
  ⟨v.items.modify (Handle.index k) f⟩

/-- Grows the vector until `k` is one of its keys. -/
def fill (v : HandleVector κ α) (k : κ) (a : α) : HandleVector κ α :=
  ⟨v.items ++ Array.replicate (Handle.index k + 1 - v.size) a⟩

/-- Replaces the value of a key, after growing the vector with defaults
where the key is new. -/
def update [Inhabited α] (v : HandleVector κ α) (k : κ) (f : α → α) : HandleVector κ α :=
  (v.fill k default).modify k f

def keys (v : HandleVector κ α) : List κ := (List.range v.size).map Handle.ofIndex

def entries (v : HandleVector κ α) : List (κ × α) := v.keys.zip v.values

/-- The value of a key, a fault where the key is not there. -/
def read (v : HandleVector κ α) (k : κ) : Checked α :=
  match v.get? k with
  | some a => .ok a
  | none => .error .outOfBounds

/-- Shown as `[key: value, …]`. -/
def text [ToString κ] [ToString α] (v : HandleVector κ α) : String :=
  "[" ++ ", ".intercalate (v.entries.map fun e => s!"{e.1}: {e.2}") ++ "]"

-- ==================================================== reading after writing

@[simp] theorem size_set (v : HandleVector κ α) (k : κ) (a : α) :
    (v.set k a).size = v.size := by
  simp [size, set]

theorem get?_push (v : HandleVector κ α) (a : α) (k : κ) :
    (v.push a).get? k = if Handle.index k = v.size then some a else v.get? k :=
  Array.getElem?_push

theorem get?_set (v : HandleVector κ α) (j k : κ) (a : α) :
    (v.set j a).get? k
      = if Handle.index j = Handle.index k then
          if Handle.index j < v.size then some a else none
        else v.get? k :=
  Array.getElem?_setIfInBounds

theorem get?_modify (v : HandleVector κ α) (j k : κ) (f : α → α) :
    (v.modify j f).get? k
      = if Handle.index j = Handle.index k then (v.get? k).map f else v.get? k := by
  simp [get?, modify, Array.getElem?_modify]

theorem get?_eq_none_iff (v : HandleVector κ α) (k : κ) :
    v.get? k = none ↔ v.size ≤ Handle.index k := by
  simp [get?, size]

theorem size_of_get? {v : HandleVector κ α} {k : κ} {a : α} (h : v.get? k = some a) :
    Handle.index k < v.size :=
  (Array.getElem?_eq_some_iff.mp h).1

theorem get?_eq_some_get [Inhabited α] {v : HandleVector κ α} {k : κ}
    (h : Handle.index k < v.size) : v.get? k = some (v.get k) := by
  cases hk : v.get? k with
  | none => exact absurd h (Nat.not_lt.mpr ((get?_eq_none_iff v k).mp hk))
  | some a => simp [get, hk]

@[simp] theorem size_modify (v : HandleVector κ α) (k : κ) (f : α → α) :
    (v.modify k f).size = v.size := by
  simp [size, modify]

@[simp] theorem contains_iff (v : HandleVector κ α) (k : κ) :
    v.contains k = true ↔ Handle.index k < v.size := by
  simp [contains]

@[simp] theorem index_nextKey (v : HandleVector κ α) :
    Handle.index (v.nextKey : κ) = v.size := by
  simp [nextKey]

theorem mem_keys (v : HandleVector κ α) (k : κ) :
    k ∈ v.keys ↔ Handle.index k < v.size := by
  unfold keys
  rw [List.mem_map]
  constructor
  · rintro ⟨n, hn, rfl⟩
    rw [Handle.index_ofIndex]
    exact List.mem_range.mp hn
  · intro h
    exact ⟨Handle.index k, List.mem_range.mpr h, Handle.ofIndex_index k⟩

/-- The keys are listed by increasing handle. -/
theorem pairwise_keys (v : HandleVector κ α) :
    v.keys.Pairwise fun j k => Handle.index j < Handle.index k := by
  unfold keys
  refine List.Pairwise.map _ (fun m n hlt => ?_) List.pairwise_lt_range
  rw [Handle.index_ofIndex, Handle.index_ofIndex]
  exact hlt

/-- A vector that was filled from the keys of another. -/
theorem get?_ofList_map_keys {β : Type} (v : HandleVector κ α) (f : κ → β) (k : κ) :
    (ofList (v.keys.map f) : HandleVector κ β).get? k
      = if Handle.index k < v.size then some (f k) else none := by
  unfold get? ofList keys
  rw [List.getElem?_toArray, List.map_map, List.getElem?_map]
  by_cases hk : Handle.index k < v.size
  · rw [if_pos hk, List.getElem?_range hk]
    show some (f (Handle.ofIndex (Handle.index k))) = some (f k)
    rw [Handle.ofIndex_index]
  · rw [if_neg hk, List.getElem?_eq_none (by rw [List.length_range]; exact Nat.not_lt.mp hk)]
    rfl

section
variable [Inhabited α]

theorem get_push (v : HandleVector κ α) (a : α) (k : κ) :
    (v.push a).get k = if Handle.index k = v.size then a else v.get k := by
  unfold get
  rw [get?_push]
  split <;> rfl

theorem get_set (v : HandleVector κ α) (j k : κ) (a : α) :
    (v.set j a).get k
      = if Handle.index j = Handle.index k ∧ Handle.index j < v.size then a else v.get k := by
  unfold get
  rw [get?_set]
  split
  next hjk =>
    split
    · simp_all
    · next hj => simp [(get?_eq_none_iff v k).mpr (by omega), hj]
  next hjk => simp [hjk]

theorem get_modify (v : HandleVector κ α) (j k : κ) (f : α → α) :
    (v.modify j f).get k
      = if Handle.index j = Handle.index k ∧ Handle.index j < v.size then f (v.get k)
        else v.get k := by
  unfold get
  rw [get?_modify]
  cases hk : v.get? k with
  | none =>
      have := (get?_eq_none_iff v k).mp hk
      split <;> simp <;> omega
  | some a =>
      have := size_of_get? hk
      split <;> split <;> simp_all

/-- Growing a vector with defaults shows in no value. -/
theorem get_fill (v : HandleVector κ α) (j k : κ) : (v.fill j default).get k = v.get k := by
  unfold get get? fill
  rw [Array.getElem?_append]
  split
  · rfl
  next hge =>
    rw [Array.getElem?_eq_none (Nat.not_lt.mp hge), Array.getElem?_replicate]
    split <;> rfl

theorem get_update (v : HandleVector κ α) (j k : κ) (f : α → α) :
    (v.update j f).get k
      = if Handle.index j = Handle.index k then f (v.get k) else v.get k := by
  have hlt : Handle.index j < (v.fill j default).size := by
    simp only [size, fill, Array.size_append, Array.size_replicate]
    omega
  unfold update
  rw [get_modify, get_fill]
  by_cases hjk : Handle.index j = Handle.index k
  · rw [if_pos ⟨hjk, hlt⟩, if_pos hjk]
  · rw [if_neg fun h => hjk h.1, if_neg hjk]

end

-- ========================================================= undoing a change

@[simp] theorem set_set (v : HandleVector κ α) (k : κ) (a b : α) :
    (v.set k a).set k b = v.set k b := by
  simp [set]

theorem set_of_get? {v : HandleVector κ α} {k : κ} {a : α} (h : v.get? k = some a) :
    v.set k a = v := by
  have hlt : Handle.index k < v.items.size := (Array.getElem?_eq_some_iff.mp h).1
  have hget : v.items[Handle.index k] = a := (Array.getElem?_eq_some_iff.mp h).2
  unfold set
  rw [Array.setIfInBounds, dif_pos hlt, ← hget, Array.set_getElem_self]

theorem set_of_size_le {v : HandleVector κ α} {k : κ} (a : α) (h : v.size ≤ Handle.index k) :
    v.set k a = v := by
  unfold set
  rw [Array.setIfInBounds_eq_of_size_le h]

/-- Writing what is there changes nothing, also beyond the end. -/
@[simp] theorem set_get [Inhabited α] (v : HandleVector κ α) (k : κ) :
    v.set k (v.get k) = v := by
  by_cases h : Handle.index k < v.size
  · exact set_of_get? (get?_eq_some_get h)
  · exact set_of_size_le _ (Nat.not_lt.mp h)

/-- A modification that is taken back at the place where it was made. -/
theorem modify_modify_cancel {v : HandleVector κ α} {k : κ} {f g : α → α}
    (h : ∀ a, g (f a) = a) : (v.modify k f).modify k g = v := by
  have hitems : ((v.items.modify (Handle.index k) f).modify (Handle.index k) g) = v.items := by
    apply Array.ext_getElem?
    intro i
    rw [Array.getElem?_modify, Array.getElem?_modify]
    split
    · cases v.items[i]? <;> simp [h]
    · rfl
  unfold modify
  rw [hitems]

end

end HandleVector

end TemporalNetwork
