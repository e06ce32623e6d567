/-!
# Slot stores

Storage that hands out handles.  A removed slot is reused, but under a new generation, so that a
stale handle never resolves to the new occupant.

* `Slot` -- a handle: an index and the generation under which it was handed out;
* `SlotStore` -- the cells by index, the stack of vacant indices, the latest vacated first, and the
  number of entries, which every insertion and removal keeps up to date;
* `get?`, `contains`, `toList` -- the views of a store;
* `Addressable` -- there are no more cells than indices;
* `insert`, `modify`, `erase` -- the changes; the last two leave a store alone if the handle is
  stale;
* `get?_modify_self`, `get?_erase_self` and their `_of_ne` twins -- a change is seen under its own
  handle and under no other.
-/

namespace ElasticLayout

/-- A handle to an entry of a slot store. -/
structure Slot where
  /-- Position of the cell. -/
  index : UInt32
  /-- How often the cell had been vacated when the handle was made, modulo the word size. -/
  generation : UInt32
deriving DecidableEq, Inhabited

namespace Slot

/-- Slots are ordered by index, and by generation within an index. -/
def precedes (a b : Slot) : Bool :=
  a.index < b.index || (a.index == b.index && a.generation < b.generation)

end Slot

/-- One cell of a slot store. -/
inductive SlotCell (α : Type) where
  /-- A live entry, and the generation of its handle. -/
  | occupied (generation : UInt32) (value : α)
  /-- No entry; the generation is that of the next handle. -/
  | vacant (generation : UInt32)

namespace SlotCell

variable {α : Type}

/-- The entry, if the cell holds one of this generation. -/
def valueAt? (generation : UInt32) : SlotCell α → Option α
  | .occupied g value => if g = generation then some value else none
  | .vacant _ => none

/-- The entry of a live cell with its generation. -/
def occupant? : SlotCell α → Option (UInt32 × α)
  | .occupied g value => some (g, value)
  | .vacant _ => none

end SlotCell

/-- Entries of one type behind generation-checked handles. -/
structure SlotStore (α : Type) where
  /-- The cells by index. -/
  cells : Array (SlotCell α) := #[]
  /-- The vacant indices, the latest vacated first. -/
  free : List UInt32 := []
  /-- The number of live entries, counted along with the changes. -/
  size : Nat := 0

namespace SlotStore

variable {α : Type}

/-! ### Views -/

/-- The entry behind a handle; `none` if the handle is stale. -/
def get? (s : SlotStore α) (slot : Slot) : Option α :=
  s.cells[slot.index.toNat]?.bind (·.valueAt? slot.generation)

/-- The handle resolves to an entry. -/
def contains (s : SlotStore α) (slot : Slot) : Bool := (s.get? slot).isSome

/-- The live entries with their handles, by index. -/
def toList (s : SlotStore α) : List (Slot × α) :=
  s.cells.toList.zipIdx.filterMap fun (cell, index) =>
    cell.occupant?.map fun (generation, value) => (⟨UInt32.ofNat index, generation⟩, value)

/-- Every cell has an index of its own. -/
def Addressable (s : SlotStore α) : Prop := s.cells.size ≤ UInt32.size

/-! ### Changes -/

/-- Place an entry behind all cells. -/
def append (s : SlotStore α) (value : α) : Slot × SlotStore α :=
  (⟨UInt32.ofNat s.cells.size, 0⟩,
    { s with cells := s.cells.push (.occupied 0 value), size := s.size + 1 })

/-- Store an entry in the slot vacated last, or in a new one, and give out its handle. -/
def insert (s : SlotStore α) (value : α) : Slot × SlotStore α :=
  match s.free with
  | [] => s.append value
  | index :: rest =>
    match s.cells[index.toNat]? with
    | some (.vacant generation) =>
      (⟨index, generation⟩,
        ⟨s.cells.setIfInBounds index.toNat (.occupied generation value), rest, s.size + 1⟩)
    | _ => { s with free := rest }.append value

/-- Replace the entry behind a handle. -/
def modify (s : SlotStore α) (slot : Slot) (f : α → α) : SlotStore α :=
  match s.get? slot with
  | some value =>
    { s with cells := s.cells.setIfInBounds slot.index.toNat (.occupied slot.generation (f value)) }
  | none => s

/-- Remove the entry behind a handle; its slot is the next to be reused. -/
def erase (s : SlotStore α) (slot : Slot) : SlotStore α :=
  if s.contains slot then
    ⟨s.cells.setIfInBounds slot.index.toNat (.vacant (slot.generation + 1)), slot.index :: s.free,
      s.size - 1⟩
  else s

/-! ### Lookup after a change -/

theorem get?_eq_some_iff (s : SlotStore α) (slot : Slot) (value : α) :
    s.get? slot = some value ↔
      s.cells[slot.index.toNat]? = some (.occupied slot.generation value) := by
  unfold get?
  cases h : s.cells[slot.index.toNat]? with
  | none => simp
  | some cell =>
    cases cell with
    | vacant generation => simp [SlotCell.valueAt?]
    | occupied generation v =>
      by_cases hg : generation = slot.generation <;> simp [SlotCell.valueAt?, hg]

/-- One index holds the entry of at most one generation. -/
theorem get?_eq_none_of_index_eq (s : SlotStore α) {a b : Slot} (hne : a ≠ b)
    (hindex : a.index = b.index) (ha : s.contains a = true) : s.get? b = none := by
  obtain ⟨value, hvalue⟩ := Option.isSome_iff_exists.1 ha
  have hcell := (s.get?_eq_some_iff a value).1 hvalue
  cases hb : s.get? b with
  | none => rfl
  | some other =>
    have hother := (s.get?_eq_some_iff b other).1 hb
    rw [← hindex, hcell] at hother
    injection hother with hother
    injection hother with hgeneration
    exact absurd (by cases a; cases b; simp_all) hne

/-- A change of one cell is not seen at another index. -/
theorem getElem?_setIfInBounds_of_index_ne (s : SlotStore α) {a b : Slot}
    (h : a.index ≠ b.index) (cell : SlotCell α) :
    (s.cells.setIfInBounds a.index.toNat cell)[b.index.toNat]? = s.cells[b.index.toNat]? :=
  Array.getElem?_setIfInBounds_ne fun hn => h (UInt32.toNat_inj.1 hn)

theorem get?_modify_self (s : SlotStore α) (slot : Slot) (f : α → α) :
    (s.modify slot f).get? slot = (s.get? slot).map f := by
  unfold modify
  cases h : s.get? slot with
  | none => simpa using h
  | some value =>
    have hcell := (s.get?_eq_some_iff slot value).1 h
    have hbound : slot.index.toNat < s.cells.size := (Array.getElem?_eq_some_iff.1 hcell).1
    rw [Option.map_some, get?_eq_some_iff]
    exact Array.getElem?_setIfInBounds_self_of_lt hbound

theorem get?_modify_of_ne (s : SlotStore α) {a b : Slot} (h : a ≠ b) (f : α → α) :
    (s.modify a f).get? b = s.get? b := by
  unfold modify
  cases ha : s.get? a with
  | none => rfl
  | some value =>
    by_cases hindex : a.index = b.index
    · have hlive : s.contains a = true := by simp [contains, ha]
      rw [s.get?_eq_none_of_index_eq h hindex hlive]
      have hcell := (s.get?_eq_some_iff a value).1 ha
      have hbound : a.index.toNat < s.cells.size := (Array.getElem?_eq_some_iff.1 hcell).1
      have hgeneration : a.generation ≠ b.generation := fun hg =>
        h (by cases a; cases b; simp_all)
      simp only [get?, ← hindex, Array.getElem?_setIfInBounds_self_of_lt hbound]
      simp [SlotCell.valueAt?, hgeneration]
    · simp only [get?, s.getElem?_setIfInBounds_of_index_ne hindex]

@[simp] theorem get?_erase_self (s : SlotStore α) (slot : Slot) :
    (s.erase slot).get? slot = none := by
  unfold erase
  by_cases h : s.contains slot = true
  · rw [if_pos h]
    by_cases hbound : slot.index.toNat < s.cells.size
    · simp [get?, SlotCell.valueAt?, hbound]
    · simp [get?, hbound]
  · rw [if_neg h]
    simpa [contains] using h

theorem get?_erase_of_ne (s : SlotStore α) {a b : Slot} (h : a ≠ b) :
    (s.erase a).get? b = s.get? b := by
  unfold erase
  by_cases ha : s.contains a = true
  · rw [if_pos ha]
    by_cases hindex : a.index = b.index
    · rw [s.get?_eq_none_of_index_eq h hindex ha]
      by_cases hbound : b.index.toNat < s.cells.size
      · simp [get?, hindex, SlotCell.valueAt?, hbound]
      · simp [get?, hindex, hbound]
    · simp only [get?, s.getElem?_setIfInBounds_of_index_ne hindex]
  · rw [if_neg ha]

end SlotStore

end ElasticLayout
