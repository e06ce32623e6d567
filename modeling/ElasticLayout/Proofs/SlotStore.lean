import Mathlib
import ElasticLayout.SlotStore

/-!
# Slot stores are finite maps

A slot store is read through `get?`, a partial function on handles.  The changes of a store are
point updates of that function.

* `occupied` -- how many cells hold an entry;
* `Tidy` -- the stack of vacant indices lists vacant cells, each once, and the entries are counted
  right;
* `get?_insert_fresh`, `insert_get?`, `modify_get?`, `erase_get?` -- the changes as point updates;
* `Tidy.insert`, `Tidy.modify`, `Tidy.erase` -- the changes keep a store tidy;
* `mem_toList`, `toList_pairwise` -- the list of entries holds the live handles, by index;
* `size_pos`, `size_eq_encard` -- the count is the number of live handles.
-/

namespace ElasticLayout.SlotStore

variable {α : Type}

/-- How many cells hold an entry. -/
def occupied (s : SlotStore α) : Nat := s.cells.countP (·.occupant?.isSome)

/-- The stack of vacant indices lists vacant cells, each once, and the count of the entries is that
of the occupied cells. -/
structure Tidy (s : SlotStore α) : Prop where
  /-- No index is listed twice. -/
  nodup : s.free.Nodup
  /-- A listed index belongs to a vacant cell. -/
  vacant : ∀ i ∈ s.free, ∃ g, s.cells[i.toNat]? = some (.vacant g)
  /-- The entries are counted right. -/
  size : s.size = s.occupied

theorem tidy_empty : ({} : SlotStore α).Tidy :=
  ⟨List.nodup_nil, fun _ hi => absurd hi List.not_mem_nil, rfl⟩

/-! ### Numbers of entries -/

/-- Overwriting a cell changes the number of occupied cells by that cell alone. -/
theorem countP_write {cells : Array (SlotCell α)} {i : Nat} {old : SlotCell α}
    (hold : cells[i]? = some old) (new : SlotCell α) :
    (cells.setIfInBounds i new).countP (·.occupant?.isSome)
        + (if old.occupant?.isSome then 1 else 0)
      = cells.countP (·.occupant?.isSome) + if new.occupant?.isSome then 1 else 0 := by
  obtain ⟨hbound, rfl⟩ := Array.getElem?_eq_some_iff.1 hold
  have hle := Array.boole_getElem_le_countP (p := fun cell => cell.occupant?.isSome) hbound
  rw [Array.setIfInBounds, dif_pos hbound, Array.countP_set]
  omega

theorem occupied_append (s : SlotStore α) (value : α) :
    (s.append value).2.occupied = s.occupied + 1 := by
  show (s.cells.push _).countP _ = _
  rw [Array.countP_push]
  rfl

/-! ### Numbers of cells -/

theorem cells_size_modify (s : SlotStore α) (slot : Slot) (f : α → α) :
    (s.modify slot f).cells.size = s.cells.size := by
  unfold modify
  split
  · exact Array.size_setIfInBounds
  · rfl

theorem cells_size_erase (s : SlotStore α) (slot : Slot) :
    (s.erase slot).cells.size = s.cells.size := by
  unfold erase
  split
  · exact Array.size_setIfInBounds
  · rfl

theorem cells_size_le_insert (s : SlotStore α) (value : α) :
    s.cells.size ≤ (s.insert value).2.cells.size := by
  unfold insert
  split
  · simp [append]
  · split
    · exact le_of_eq Array.size_setIfInBounds.symm
    · simp [append]

theorem cells_size_insert_le (s : SlotStore α) (value : α) :
    (s.insert value).2.cells.size ≤ s.cells.size + 1 := by
  unfold insert
  split
  · simp [append]
  · split
    · simp
    · simp [append]

/-! ### Insertion -/

/-- A tidy store hands out either the vacant index on top of the stack, or the next index. -/
theorem insert_cases (s : SlotStore α) (h : s.Tidy) (value : α) :
    (s.free = [] ∧ s.insert value = s.append value) ∨
    ∃ index rest g, s.free = index :: rest ∧ s.cells[index.toNat]? = some (.vacant g) ∧
      s.insert value = (⟨index, g⟩,
        ⟨s.cells.setIfInBounds index.toNat (.occupied g value), rest, s.size + 1⟩) := by
  unfold insert
  cases hfree : s.free with
  | nil => exact .inl ⟨rfl, rfl⟩
  | cons index rest =>
    obtain ⟨g, hg⟩ := h.vacant index (by rw [hfree]; exact List.mem_cons_self)
    exact .inr ⟨index, rest, g, rfl, hg, by simp only [hg]⟩

/-- The next index is the number of cells, as long as there are indices left. -/
theorem toNat_next {s : SlotStore α} {value : α} (hroom : (s.append value).2.Addressable) :
    (UInt32.ofNat s.cells.size).toNat = s.cells.size := by
  have hsize : s.cells.size + 1 ≤ UInt32.size := by
    simpa [Addressable, append] using hroom
  exact UInt32.toNat_ofNat_of_lt' hsize

theorem get?_insert_fresh {s : SlotStore α} (h : s.Tidy) {value : α}
    (hroom : (s.insert value).2.Addressable) : s.get? (s.insert value).1 = none := by
  obtain ⟨-, heq⟩ | ⟨index, rest, g, -, hg, heq⟩ := s.insert_cases h value
  · rw [heq] at hroom ⊢
    show (s.cells[(UInt32.ofNat s.cells.size).toNat]?).bind _ = none
    rw [toNat_next hroom, Array.getElem?_eq_none le_rfl]
    rfl
  · rw [heq]
    show (s.cells[index.toNat]?).bind _ = none
    rw [hg]
    rfl

/-- A handle is its index and its generation. -/
theorem eq_of_index_eq {a b : Slot} (hindex : a.index = b.index)
    (hgeneration : a.generation = b.generation) : a = b := by
  cases a
  cases b
  simp_all

/-- A value behind all cells is seen under the next index, and nothing else changes. -/
theorem append_get? {s : SlotStore α} {value : α} (hroom : (s.append value).2.Addressable) :
    (s.append value).2.get? = Function.update s.get? (s.append value).1 (some value) := by
  have hnext := toNat_next hroom
  rw [show (s.append value).1 = ⟨UInt32.ofNat s.cells.size, 0⟩ from rfl]
  funext slot
  by_cases hslot : slot = ⟨UInt32.ofNat s.cells.size, 0⟩
  · rw [hslot, Function.update_self, get?_eq_some_iff]
    show (s.cells.push _)[(UInt32.ofNat s.cells.size).toNat]? = _
    rw [hnext, Array.getElem?_push_size]
  · rw [Function.update_of_ne hslot]
    show ((s.cells.push _)[slot.index.toNat]?).bind _ = (s.cells[slot.index.toNat]?).bind _
    by_cases hindex : slot.index.toNat = s.cells.size
    · rw [hindex, Array.getElem?_push_size, Array.getElem?_eq_none le_rfl]
      have hgeneration : (0 : UInt32) ≠ slot.generation := fun hg =>
        hslot (eq_of_index_eq (UInt32.toNat_inj.1 (by rw [hnext]; exact hindex)) hg.symm)
      simp [SlotCell.valueAt?, hgeneration]
    · rw [Array.getElem?_push, if_neg hindex]

/-- A value in a vacant cell is seen under the generation of the cell, and nothing else changes. -/
theorem refill_get? {s : SlotStore α} {index g : UInt32}
    (hg : s.cells[index.toNat]? = some (.vacant g)) (value : α) (rest : List UInt32) (n : Nat) :
    (SlotStore.mk (s.cells.setIfInBounds index.toNat (.occupied g value)) rest n).get?
      = Function.update s.get? ⟨index, g⟩ (some value) := by
  have hbound : index.toNat < s.cells.size := (Array.getElem?_eq_some_iff.1 hg).1
  funext slot
  by_cases hslot : slot = ⟨index, g⟩
  · rw [hslot, Function.update_self, get?_eq_some_iff]
    exact Array.getElem?_setIfInBounds_self_of_lt hbound
  · rw [Function.update_of_ne hslot]
    show ((s.cells.setIfInBounds index.toNat _)[slot.index.toNat]?).bind _
      = (s.cells[slot.index.toNat]?).bind _
    by_cases hindex : index = slot.index
    · have hgeneration : g ≠ slot.generation := fun hg =>
        hslot (eq_of_index_eq hindex.symm hg.symm)
      rw [← hindex, Array.getElem?_setIfInBounds_self_of_lt hbound, hg]
      simp [SlotCell.valueAt?, hgeneration]
    · rw [Array.getElem?_setIfInBounds_ne fun hn => hindex (UInt32.toNat_inj.1 hn)]

theorem insert_get? {s : SlotStore α} (h : s.Tidy) {value : α}
    (hroom : (s.insert value).2.Addressable) :
    (s.insert value).2.get? = Function.update s.get? (s.insert value).1 (some value) := by
  obtain ⟨-, heq⟩ | ⟨index, rest, g, -, hg, heq⟩ := s.insert_cases h value
  · rw [heq] at hroom ⊢
    exact append_get? hroom
  · rw [heq]
    exact refill_get? hg value rest _

/-- What is seen after an insertion was there before, or is the new entry, even if the indices have
run out. -/
theorem eq_or_get?_of_insert {s : SlotStore α} {value found : α} {slot : Slot}
    (h : (s.insert value).2.get? slot = some found) : found = value ∨ s.get? slot = some found := by
  have happend : ∀ t : SlotStore α, t.cells = s.cells →
      (t.append value).2.get? slot = some found →
      found = value ∨ s.get? slot = some found := by
    intro t ht hfound
    have hcell : (t.cells.push (.occupied 0 value))[slot.index.toNat]?
        = some (.occupied slot.generation found) := (get?_eq_some_iff _ _ _).1 hfound
    rw [ht, Array.getElem?_push] at hcell
    split at hcell
    · injection hcell with hcell
      injection hcell with _ hcell
      exact .inl hcell.symm
    · exact .inr ((get?_eq_some_iff _ _ _).2 hcell)
  unfold insert at h
  split at h
  · exact happend s rfl h
  · split at h
    · rename_i index rest _ generation _
      rw [get?_eq_some_iff, Array.getElem?_setIfInBounds] at h
      split at h
      · split at h
        · injection h with h
          injection h with _ h
          exact .inl h.symm
        · exact absurd h (by simp)
      · exact .inr ((get?_eq_some_iff _ _ _).2 h)
    · exact happend _ rfl h

theorem Tidy.insert {s : SlotStore α} (h : s.Tidy) (value : α) : (s.insert value).2.Tidy := by
  obtain ⟨hfree, heq⟩ | ⟨index, rest, g, hfree, hg, heq⟩ := s.insert_cases h value
  · rw [heq]
    refine ⟨h.nodup, fun i hi => ?_, ?_⟩
    · have hi : i ∈ s.free := hi
      rw [hfree] at hi
      exact absurd hi List.not_mem_nil
    · rw [occupied_append, ← h.size]
      rfl
  · rw [heq]
    have hnodup := h.nodup
    rw [hfree, List.nodup_cons] at hnodup
    refine ⟨hnodup.2, fun i hi => ?_, ?_⟩
    · obtain ⟨g', hg'⟩ := h.vacant i (by rw [hfree]; exact List.mem_cons_of_mem _ hi)
      have hne : index.toNat ≠ i.toNat := fun hn =>
        hnodup.1 (by rw [UInt32.toNat_inj.1 hn]; exact hi)
      exact ⟨g', by rw [← hg']; exact Array.getElem?_setIfInBounds_ne hne⟩
    · show s.size + 1 = (s.cells.setIfInBounds index.toNat (.occupied g value)).countP _
      rw [h.size]
      exact (countP_write hg (.occupied g value)).symm

/-! ### Replacement and removal -/

theorem modify_get? (s : SlotStore α) (slot : Slot) (f : α → α) :
    (s.modify slot f).get? = Function.update s.get? slot ((s.get? slot).map f) := by
  funext other
  by_cases h : other = slot
  · rw [h, Function.update_self, get?_modify_self]
  · rw [Function.update_of_ne h, get?_modify_of_ne s (Ne.symm h)]

theorem erase_get? (s : SlotStore α) (slot : Slot) :
    (s.erase slot).get? = Function.update s.get? slot none := by
  funext other
  by_cases h : other = slot
  · rw [h, Function.update_self, get?_erase_self]
  · rw [Function.update_of_ne h, get?_erase_of_ne s (Ne.symm h)]

/-- A live handle does not belong to a vacant cell. -/
theorem cells_ne_vacant {s : SlotStore α} {slot : Slot} {value : α}
    (h : s.get? slot = some value) (g : UInt32) :
    s.cells[slot.index.toNat]? ≠ some (.vacant g) := by
  rw [(s.get?_eq_some_iff slot value).1 h]
  simp

theorem Tidy.modify {s : SlotStore α} (h : s.Tidy) (slot : Slot) (f : α → α) :
    (s.modify slot f).Tidy := by
  unfold SlotStore.modify
  cases hget : s.get? slot with
  | none => exact h
  | some value =>
    have hcell := (s.get?_eq_some_iff slot value).1 hget
    refine ⟨h.nodup, fun i hi => ?_, ?_⟩
    · obtain ⟨g, hg⟩ := h.vacant i hi
      have hne : slot.index.toNat ≠ i.toNat := fun hn => cells_ne_vacant hget g (by rw [hn, hg])
      exact ⟨g, by rw [← hg]; exact Array.getElem?_setIfInBounds_ne hne⟩
    · have hsame := countP_write hcell (.occupied slot.generation (f value))
      exact h.size.trans (Nat.add_right_cancel hsame).symm

theorem Tidy.erase {s : SlotStore α} (h : s.Tidy) (slot : Slot) : (s.erase slot).Tidy := by
  unfold SlotStore.erase
  by_cases hlive : s.contains slot = true
  · rw [if_pos hlive]
    obtain ⟨value, hget⟩ := Option.isSome_iff_exists.1 hlive
    have hcell := (s.get?_eq_some_iff slot value).1 hget
    have hbound : slot.index.toNat < s.cells.size := (Array.getElem?_eq_some_iff.1 hcell).1
    have hne : ∀ i ∈ s.free, slot.index.toNat ≠ i.toNat := by
      intro i hi hn
      obtain ⟨g, hg⟩ := h.vacant i hi
      exact cells_ne_vacant hget g (by rw [hn, hg])
    refine ⟨List.nodup_cons.2 ⟨fun hi => hne _ hi rfl, h.nodup⟩, fun i hi => ?_, ?_⟩
    · obtain rfl | hi := List.mem_cons.1 hi
      · exact ⟨_, Array.getElem?_setIfInBounds_self_of_lt hbound⟩
      · obtain ⟨g, hg⟩ := h.vacant i hi
        exact ⟨g, by rw [← hg]; exact Array.getElem?_setIfInBounds_ne (hne i hi)⟩
    · have hless := countP_write hcell (.vacant (slot.generation + 1))
      show s.size - 1 = (s.cells.setIfInBounds _ _).countP _
      rw [h.size]
      exact Nat.sub_eq_of_eq_add hless.symm
  · rw [if_neg hlive]
    exact h

/-! ### The list of entries -/

/-- The index of a cell as a word. -/
theorem toNat_index {s : SlotStore α} (hs : s.Addressable) {i : Nat} (hi : i < s.cells.size) :
    (UInt32.ofNat i).toNat = i :=
  UInt32.toNat_ofNat_of_lt' (lt_of_lt_of_le hi hs)

theorem mem_toList {s : SlotStore α} (hs : s.Addressable) {slot : Slot} {value : α} :
    (slot, value) ∈ s.toList ↔ s.get? slot = some value := by
  rw [get?_eq_some_iff, toList, List.mem_filterMap]
  constructor
  · rintro ⟨⟨cell, i⟩, hmem, hcell⟩
    have hi := List.mem_zipIdx_iff_getElem?.1 hmem
    rw [Array.getElem?_toList] at hi
    obtain ⟨⟨g, v⟩, hoccupant, heq⟩ := Option.map_eq_some_iff.1 hcell
    simp only [Prod.mk.injEq] at heq
    obtain ⟨rfl, rfl⟩ := heq
    show s.cells[(UInt32.ofNat i).toNat]? = some (.occupied g v)
    rw [toNat_index hs (Array.getElem?_eq_some_iff.1 hi).1, hi]
    cases cell with
    | vacant g' => simp [SlotCell.occupant?] at hoccupant
    | occupied g' v' =>
      simp only [SlotCell.occupant?, Option.some.injEq, Prod.mk.injEq] at hoccupant
      rw [hoccupant.1, hoccupant.2]
  · intro hcell
    refine ⟨(.occupied slot.generation value, slot.index.toNat), ?_, ?_⟩
    · rw [List.mem_zipIdx_iff_getElem?, Array.getElem?_toList]
      exact hcell
    · simp [SlotCell.occupant?]

theorem toList_pairwise {s : SlotStore α} (hs : s.Addressable) :
    s.toList.Pairwise fun a b => a.1.index < b.1.index := by
  rw [toList, List.pairwise_filterMap, List.pairwise_iff_getElem]
  intro i j hi hj hij a ha b hb
  simp only [List.length_zipIdx, Array.length_toList] at hi hj
  simp only [List.getElem_zipIdx, Option.map_eq_some_iff] at ha hb
  obtain ⟨x, -, rfl⟩ := ha
  obtain ⟨y, -, rfl⟩ := hb
  rw [UInt32.lt_iff_toNat_lt]
  simp only [Nat.zero_add]
  rw [toNat_index hs hi, toNat_index hs hj]
  exact hij

theorem occupied_eq_length (s : SlotStore α) : s.occupied = s.toList.length := by
  unfold occupied toList
  rw [List.length_filterMap_eq_countP, ← Array.countP_toList]
  conv_lhs => rw [← List.zipIdx_map_fst 0 s.cells.toList, List.countP_map]
  refine List.countP_congr fun p _ => ?_
  simp

/-- A store with a live handle counts an entry. -/
theorem Tidy.size_pos {s : SlotStore α} (h : s.Tidy) {slot : Slot}
    (hlive : s.contains slot = true) : 0 < s.size := by
  obtain ⟨value, hget⟩ := Option.isSome_iff_exists.1 hlive
  rw [h.size]
  exact Array.countP_pos_iff.2
    ⟨_, Array.mem_of_getElem? ((s.get?_eq_some_iff slot value).1 hget), rfl⟩

/-- The count of a tidy store is the number of its live handles. -/
theorem size_eq_encard {s : SlotStore α} (h : s.Tidy) (hs : s.Addressable) :
    (s.size : ℕ∞) = {slot | (s.get? slot).isSome = true}.encard := by
  have hnodup : (s.toList.map Prod.fst).Nodup := by
    rw [List.Nodup, List.pairwise_map]
    refine (toList_pairwise hs).imp fun {a b} hlt heq => ?_
    rw [heq] at hlt
    exact UInt32.lt_irrefl _ hlt
  have hset : {slot | (s.get? slot).isSome = true}
      = ((s.toList.map Prod.fst).toFinset : Set Slot) := by
    ext slot
    simp only [Set.mem_ofPred_eq, List.coe_toFinset, List.mem_map, Prod.exists, mem_toList hs,
      exists_and_right, exists_eq_right]
    exact Option.isSome_iff_exists
  rw [hset, Set.encard_coe_eq_coe_finsetCard, List.toFinset_card_of_nodup hnodup, List.length_map,
    h.size, occupied_eq_length]

end ElasticLayout.SlotStore
