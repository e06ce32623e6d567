import ElasticLayout.Proofs.Generations

/-!
# Worn stores

A cell that was used and vacated again is a generation ahead, and otherwise as it was.  A worn copy
of a store has all cells ahead by some generations, and may have some vacant cells more, which are
given out when the store would need new ones.  The changes of a store do to its worn copy what they
do to the store.

* `CellWear` -- by how many generations the cells are ahead, and how many cells there are;
* `Slot.worn`, `SlotCell.worn`, `SlotStore.worn` -- handles, cells and stores after the wear;
* `SlotStore.get?_worn`, `SlotStore.toList_worn` -- a worn copy has the same entries;
* `SlotStore.modify_worn`, `SlotStore.erase_worn`, `SlotStore.insert_worn` -- the changes;
* `SlotStore.eq_worn` -- a store that is a worn copy of another.
-/

namespace ElasticLayout

/-! ### Wear -/

/-- By how many generations the cells of a store are ahead of those of another, and how many cells
it has at least. -/
structure CellWear where
  /-- How far the cell at an index is ahead. -/
  ahead : UInt32 → UInt32
  /-- How many cells there are at least. -/
  cells : Nat
  /-- Cells that there may not be are not ahead. -/
  ahead_eq_zero : ∀ i, cells ≤ i.toNat → ahead i = 0
  /-- There are indices for the cells. -/
  cells_le : cells ≤ UInt32.size

/-- The handle of the same cell after the wear. -/
def Slot.worn (w : CellWear) (k : Slot) : Slot := ⟨k.index, k.generation + w.ahead k.index⟩

@[simp] theorem Slot.index_worn (w : CellWear) (k : Slot) : (k.worn w).index = k.index := rfl

theorem Slot.worn_inj {w : CellWear} {j k : Slot} : j.worn w = k.worn w ↔ j = k := by
  constructor
  · intro h
    have hindex : j.index = k.index := by rw [← Slot.index_worn w j, h, Slot.index_worn]
    have hgeneration : j.generation + w.ahead j.index = k.generation + w.ahead k.index :=
      congrArg Slot.generation h
    rw [hindex] at hgeneration
    exact SlotStore.eq_of_index_eq hindex (by grind)
  · exact fun h => congrArg (Slot.worn w) h

theorem Slot.exists_worn (w : CellWear) (k : Slot) : ∃ j : Slot, j.worn w = k := by
  refine ⟨⟨k.index, k.generation - w.ahead k.index⟩, SlotStore.eq_of_index_eq rfl ?_⟩
  show k.generation - w.ahead k.index + w.ahead k.index = k.generation
  grind

variable {α : Type}

/-- A cell some generations ahead, with its entry changed. -/
def SlotCell.worn (d : UInt32) (f : α → α) : SlotCell α → SlotCell α
  | .occupied g value => .occupied (g + d) (f value)
  | .vacant g => .vacant (g + d)

theorem SlotCell.valueAt?_worn (cell : SlotCell α) (d g : UInt32) (f : α → α) :
    (cell.worn d f).valueAt? (g + d) = (cell.valueAt? g).map f := by
  cases cell with
  | vacant g' => rfl
  | occupied g' value =>
    have hiff : g' + d = g + d ↔ g' = g := by grind
    show (if g' + d = g + d then some (f value) else none)
      = (if g' = g then some value else none).map f
    rw [if_congr hiff rfl rfl]
    split
    · rfl
    · rfl

namespace SlotStore

/-- A store after the wear, with its entries changed. -/
def worn (w : CellWear) (f : α → α) (s : SlotStore α) : SlotStore α where
  cells := Array.ofFn fun i : Fin (max s.cells.size w.cells) =>
    ((s.cells[i.val]?).getD (.vacant 0)).worn (w.ahead (UInt32.ofNat i)) f
  free := s.free ++ (List.range' s.cells.size (w.cells - s.cells.size)).map UInt32.ofNat
  size := s.size

variable {w : CellWear} {f : α → α} {s t : SlotStore α}

@[simp] theorem cells_size_worn : (s.worn w f).cells.size = max s.cells.size w.cells :=
  Array.size_ofFn

theorem addressable_worn (h : s.Addressable) : (s.worn w f).Addressable := by
  unfold Addressable
  rw [cells_size_worn]
  exact max_le h w.cells_le

/-- The cells after the wear: those that were there, and vacant ones. -/
theorem getElem?_worn (i : Nat) : (s.worn w f).cells[i]?
    = if i < max s.cells.size w.cells then
        some (((s.cells[i]?).getD (.vacant 0)).worn (w.ahead (UInt32.ofNat i)) f)
      else none := by
  show (Array.ofFn _)[i]? = _
  rw [Array.getElem?_ofFn]
  split
  · rfl
  · rfl

/-- A cell that was there is ahead. -/
theorem cell_worn {i : UInt32} {cell : SlotCell α} (h : s.cells[i.toNat]? = some cell) :
    (s.worn w f).cells[i.toNat]? = some (cell.worn (w.ahead i) f) := by
  have hbound : i.toNat < s.cells.size := (Array.getElem?_eq_some_iff.1 h).1
  rw [getElem?_worn, if_pos (lt_max_of_lt_left hbound), h, UInt32.ofNat_toNat]
  rfl

/-! ### Entries -/

/-- **The entries are the same**, under handles of later generations. -/
theorem get?_worn (k : Slot) : (s.worn w f).get? (k.worn w) = (s.get? k).map f := by
  show ((s.worn w f).cells[k.index.toNat]?).bind (·.valueAt? (k.generation + w.ahead k.index))
    = ((s.cells[k.index.toNat]?).bind (·.valueAt? k.generation)).map f
  cases hcell : s.cells[k.index.toNat]? with
  | some cell =>
    rw [cell_worn hcell]
    exact cell.valueAt?_worn _ _ f
  | none =>
    rw [getElem?_worn, hcell]
    split
    · rfl
    · rfl

theorem toList_worn (hs : s.Addressable) :
    (s.worn w f).toList = s.toList.map fun p => (p.1.worn w, f p.2) := by
  have hworn : (s.worn w f).Addressable := addressable_worn hs
  have hascending : (s.toList.map fun p => (p.1.worn w, f p.2)).Pairwise
      fun a b => a.1.index < b.1.index := by
    rw [List.pairwise_map]
    exact toList_pairwise hs
  have hirrefl : Std.Irrefl fun a b : Slot × α => a.1.index < b.1.index :=
    ⟨fun a => UInt32.lt_irrefl a.1.index⟩
  have hantisymm : Std.Antisymm fun a b : Slot × α => a.1.index < b.1.index :=
    ⟨fun a b hab hba => absurd (UInt32.lt_trans hab hba) (UInt32.lt_irrefl a.1.index)⟩
  refine (toList_pairwise hworn).eq_of_mem_iff hascending fun p => ?_
  obtain ⟨slot, value⟩ := p
  obtain ⟨k, rfl⟩ := slot.exists_worn w
  rw [mem_toList hworn, get?_worn, List.mem_map, Option.map_eq_some_iff]
  constructor
  · rintro ⟨v, hv, rfl⟩
    exact ⟨(k, v), (mem_toList hs).2 hv, rfl⟩
  · rintro ⟨⟨j, v⟩, hmem, heq⟩
    obtain ⟨hj, rfl⟩ := Prod.mk.inj heq
    obtain rfl := Slot.worn_inj.1 hj
    exact ⟨v, (mem_toList hs).1 hmem, rfl⟩

/-- As many cells are occupied. -/
theorem occupied_worn (hs : s.Addressable) : (s.worn w f).occupied = s.occupied := by
  rw [occupied_eq_length, toList_worn hs, List.length_map, occupied_eq_length]

/-! ### Changes -/

/-- A cell is overwritten, before the wear and after it. -/
theorem worn_write {i : UInt32} (hbound : i.toNat < s.cells.size) (cell : SlotCell α)
    (free : List UInt32) (n : Nat) :
    (SlotStore.mk (s.cells.setIfInBounds i.toNat cell) free n).worn w f
      = ⟨(s.worn w f).cells.setIfInBounds i.toNat (cell.worn (w.ahead i) f),
        free ++ (List.range' s.cells.size (w.cells - s.cells.size)).map UInt32.ofNat, n⟩ := by
  have hsize : (s.cells.setIfInBounds i.toNat cell).size = s.cells.size :=
    Array.size_setIfInBounds
  refine (SlotStore.mk.injEq ..).mpr ⟨Array.ext_getElem? fun j => ?_, ?_, rfl⟩
  · show ((SlotStore.mk (s.cells.setIfInBounds i.toNat cell) free n).worn w f).cells[j]? = _
    rw [getElem?_worn]
    dsimp only
    rw [hsize, Array.getElem?_setIfInBounds, Array.getElem?_setIfInBounds, cells_size_worn]
    by_cases hij : i.toNat = j
    · subst hij
      rw [if_pos rfl, if_pos rfl, if_pos hbound, if_pos (lt_max_of_lt_left hbound),
        if_pos (lt_max_of_lt_left hbound), UInt32.ofNat_toNat]
      rfl
    · rw [if_neg hij, if_neg hij, getElem?_worn]
  · show free ++ _ = free ++ _
    rw [hsize]

theorem modify_worn {g g' : α → α} (h : ∀ x, g' (f x) = f (g x)) (k : Slot) :
    (s.worn w f).modify (k.worn w) g' = (s.modify k g).worn w f := by
  unfold modify
  rw [get?_worn]
  cases hget : s.get? k with
  | none => rfl
  | some value =>
    have hbound : k.index.toNat < s.cells.size :=
      (Array.getElem?_eq_some_iff.1 ((s.get?_eq_some_iff k value).1 hget)).1
    dsimp only [Option.map_some]
    rw [worn_write hbound, h]
    rfl

theorem erase_worn (k : Slot) : (s.worn w f).erase (k.worn w) = (s.erase k).worn w f := by
  have hlive : (s.worn w f).contains (k.worn w) = s.contains k := by
    unfold contains
    rw [get?_worn, Option.isSome_map]
  unfold erase
  rw [hlive]
  split
  · rename_i hcontains
    obtain ⟨value, hget⟩ := Option.isSome_iff_exists.1 hcontains
    have hbound : k.index.toNat < s.cells.size :=
      (Array.getElem?_eq_some_iff.1 ((s.get?_eq_some_iff k value).1 hget)).1
    have hgeneration : (k.worn w).generation + 1 = k.generation + 1 + w.ahead k.index := by
      show k.generation + w.ahead k.index + 1 = k.generation + 1 + w.ahead k.index
      grind
    rw [worn_write hbound, hgeneration]
    rfl
  · rfl

/-- A new cell, if there are none to be given out before. -/
theorem append_worn {value : α} (hcells : w.cells ≤ s.cells.size)
    (hroom : (s.append value).2.Addressable) :
    (s.worn w f).append (f value) = ((s.append value).1.worn w, (s.append value).2.worn w f) := by
  have hnext : w.ahead (UInt32.ofNat s.cells.size) = 0 :=
    w.ahead_eq_zero _ (hcells.trans (toNat_next hroom).ge)
  have hsize : max s.cells.size w.cells = s.cells.size := max_eq_left hcells
  refine Prod.ext (SlotStore.eq_of_index_eq ?_ ?_) ((SlotStore.mk.injEq ..).mpr ⟨?_, ?_, rfl⟩)
  · show UInt32.ofNat (s.worn w f).cells.size = UInt32.ofNat s.cells.size
    rw [cells_size_worn, hsize]
  · show (0 : UInt32) = 0 + w.ahead (UInt32.ofNat s.cells.size)
    rw [hnext, UInt32.add_zero]
  · refine Array.ext_getElem? fun j => ?_
    show ((s.worn w f).cells.push (.occupied 0 (f value)))[j]?
      = ((s.append value).2.worn w f).cells[j]?
    rw [getElem?_worn, Array.getElem?_push, cells_size_worn, hsize, getElem?_worn, hsize]
    show _ = if j < max (s.cells.push _).size w.cells then
      some ((((s.cells.push (.occupied 0 value))[j]?).getD _).worn _ f) else none
    rw [Array.size_push, max_eq_left (by omega), Array.getElem?_push]
    by_cases hj : j = s.cells.size
    · rw [if_pos hj, if_pos hj, if_pos (by omega), hj, hnext]
      rfl
    · rw [if_neg hj, if_neg hj, if_congr (show j < s.cells.size ↔ j < s.cells.size + 1 by omega)
        rfl rfl]
  · show s.free ++ _ = s.free ++ _
    have hsize' : (s.append value).2.cells.size = s.cells.size + 1 := Array.size_push _
    rw [hsize', Nat.sub_eq_zero_of_le hcells, Nat.sub_eq_zero_of_le (by omega)]
    rfl

/-- The next cell is there before it is needed, and vacant. -/
theorem refill_worn {value : α} (hcells : s.cells.size < w.cells) (hfree : s.free = [])
    (hroom : (s.append value).2.Addressable) :
    (s.worn w f).insert (f value) = ((s.append value).1.worn w, (s.append value).2.worn w f) := by
  have hnext := toNat_next hroom
  have hstack : (s.worn w f).free = UInt32.ofNat s.cells.size ::
      (List.range' (s.cells.size + 1) (w.cells - (s.cells.size + 1))).map UInt32.ofNat := by
    show s.free ++ _ = _
    rw [hfree, show w.cells - s.cells.size = w.cells - (s.cells.size + 1) + 1 by omega,
      List.range'_succ]
    rfl
  have hvacant : (s.worn w f).cells[(UInt32.ofNat s.cells.size).toNat]?
      = some (.vacant (0 + w.ahead (UInt32.ofNat s.cells.size))) := by
    rw [getElem?_worn, hnext, if_pos (lt_max_of_lt_right hcells), Array.getElem?_eq_none le_rfl]
    rfl
  unfold insert
  rw [hstack]
  dsimp only
  rw [hvacant]
  refine Prod.ext rfl ((SlotStore.mk.injEq ..).mpr ⟨?_, ?_, rfl⟩)
  · refine Array.ext_getElem? fun j => ?_
    show ((s.worn w f).cells.setIfInBounds _ _)[j]? = ((s.append value).2.worn w f).cells[j]?
    rw [getElem?_worn, Array.getElem?_setIfInBounds, hnext, cells_size_worn, getElem?_worn]
    show _ = if j < max (s.cells.push _).size w.cells then
      some ((((s.cells.push (.occupied 0 value))[j]?).getD _).worn _ f) else none
    rw [Array.size_push, max_eq_right (by omega), max_eq_right (by omega), Array.getElem?_push]
    by_cases hj : s.cells.size = j
    · rw [if_pos hj, if_pos (by omega), if_pos (by omega), if_pos hj.symm, ← hj]
      rfl
    · rw [if_neg hj, if_neg (Ne.symm hj)]
  · have hsize : (s.append value).2.cells.size = s.cells.size + 1 := Array.size_push _
    show _ = s.free ++ _
    rw [hsize, hfree]
    rfl

/-- **A worn store gives out the cells of the store**, and a new one no earlier. -/
theorem insert_worn (h : s.Tidy) (value : α) (hroom : (s.insert value).2.Addressable) :
    (s.worn w f).insert (f value) = ((s.insert value).1.worn w, (s.insert value).2.worn w f) := by
  rcases s.insert_cases h value with ⟨hfree, heq⟩ | ⟨index, rest, g, hfree, hg, heq⟩
  · rw [heq] at hroom ⊢
    rcases Nat.lt_or_ge s.cells.size w.cells with hlt | hle
    · exact refill_worn hlt hfree hroom
    · have hnil : (s.worn w f).free = [] := by
        show s.free ++ _ = []
        rw [hfree, Nat.sub_eq_zero_of_le hle]
        rfl
      rw [← append_worn hle hroom]
      unfold insert
      rw [hnil]
  · have hbound : index.toNat < s.cells.size := (Array.getElem?_eq_some_iff.1 hg).1
    have hstack : (s.worn w f).free = index ::
        (rest ++ (List.range' s.cells.size (w.cells - s.cells.size)).map UInt32.ofNat) := by
      show s.free ++ _ = _
      rw [hfree]
      rfl
    rw [heq]
    dsimp only
    rw [worn_write hbound]
    unfold insert
    rw [hstack]
    dsimp only
    rw [cell_worn hg]
    rfl

/-! ### Worn copies of a store -/

/-- A cell that is not occupied is vacant, or not there yet. -/
theorem getD_of_not_occupied {i : UInt32}
    (h : ∀ g value, s.cells[i.toNat]? ≠ some (.occupied g value)) :
    (s.cells[i.toNat]?).getD (.vacant 0) = .vacant (s.vacancy i).generation := by
  unfold vacancy
  cases hcell : s.cells[i.toNat]? with
  | none => rfl
  | some cell =>
    cases cell with
    | occupied g value => exact absurd hcell (h g value)
    | vacant g => rfl

/-- The handles given out next are those of the vacant cells, and of those not there yet. -/
theorem upcoming_eq_map_vacancy {n : Nat} (hroom : n ≤ UInt32.size) : s.upcoming n
    = (s.free ++ (List.range' s.cells.size (n - s.cells.size)).map UInt32.ofNat).map s.vacancy := by
  unfold upcoming
  rw [List.map_append, List.map_map]
  refine congrArg (_ ++ ·) (List.map_congr_left fun i hi => ?_)
  rw [List.mem_range'_1] at hi
  show unused i = s.vacancy (UInt32.ofNat i)
  unfold vacancy
  rw [UInt32.toNat_ofNat_of_lt' (show i < UInt32.size by omega),
    Array.getElem?_eq_none (show s.cells.size ≤ i by omega)]
  rfl

/-- A store that gives out next what another does, but for the wear, has the cells that the other
lacks at the end of its stack, and its vacant cells are ahead by the wear. -/
theorem free_of_upcoming (hroom : t.Addressable) (hsize : t.cells.size = max s.cells.size w.cells)
    (hupcoming : t.upcoming t.cells.size = (s.upcoming t.cells.size).map (·.worn w)) :
    t.free = s.free ++ (List.range' s.cells.size (w.cells - s.cells.size)).map UInt32.ofNat ∧
      ∀ i ∈ t.free, t.vacancy i = (s.vacancy i).worn w := by
  have hwidth : t.cells.size - s.cells.size = w.cells - s.cells.size := by omega
  have hstack : t.upcoming t.cells.size = t.free.map t.vacancy := by
    unfold upcoming
    rw [Nat.sub_self]
    exact List.append_nil _
  rw [hstack, upcoming_eq_map_vacancy hroom, hwidth, List.map_map] at hupcoming
  -- The indices of the handles are the stack.
  have hfree : t.free = s.free
      ++ (List.range' s.cells.size (w.cells - s.cells.size)).map UInt32.ofNat := by
    have hindices := congrArg (List.map Slot.index) hupcoming
    rw [List.map_map, List.map_map] at hindices
    rwa [show Slot.index ∘ t.vacancy = id from rfl,
      show Slot.index ∘ (fun k : Slot => k.worn w) ∘ s.vacancy = id from rfl, List.map_id,
      List.map_id] at hindices
  rw [← hfree] at hupcoming
  exact ⟨hfree, List.map_inj_left.1 hupcoming⟩

/-- Every cell that the worn copy has and that is not occupied is on its stack. -/
theorem mem_free_worn (hs : s.ListsVacant) {i : UInt32}
    (hi : i.toNat < max s.cells.size w.cells)
    (hvacant : ∀ g value, s.cells[i.toNat]? ≠ some (.occupied g value)) :
    i ∈ s.free ++ (List.range' s.cells.size (w.cells - s.cells.size)).map UInt32.ofNat := by
  rw [List.mem_append]
  cases hcell : s.cells[i.toNat]? with
  | none =>
    refine .inr (List.mem_map.2 ⟨i.toNat, ?_, UInt32.ofNat_toNat⟩)
    rw [Array.getElem?_eq_none_iff] at hcell
    rw [List.mem_range'_1]
    omega
  | some cell =>
    cases cell with
    | occupied g value => exact absurd hcell (hvacant g value)
    | vacant g => exact .inl (hs i g hcell)

/-- **A store is a worn copy of another** if it has the same entries, and gives out the same handles
next, but for the wear. -/
theorem eq_worn (hs : s.Tidy) (hlists : s.ListsVacant) (ht : t.Tidy) (hroom : t.Addressable)
    (hsize : t.cells.size = max s.cells.size w.cells)
    (hfind : ∀ k, t.get? (k.worn w) = (s.get? k).map f)
    (hupcoming : t.upcoming t.cells.size = (s.upcoming t.cells.size).map (·.worn w)) :
    t = s.worn w f := by
  obtain ⟨hfree, hvacancy⟩ := free_of_upcoming hroom hsize hupcoming
  have hcells : t.cells = (s.worn w f).cells := Array.ext_getElem? fun j => ?_
  · have hfits : s.Addressable := (le_max_left ..).trans (hsize.ge.trans hroom)
    have hcount : t.size = s.size := by
      rw [ht.size, occupied, hcells, ← occupied, occupied_worn hfits, hs.size]
    exact (SlotStore.mk.injEq ..).mpr ⟨hcells, hfree, hcount⟩
  rw [getElem?_worn, ← hsize]
  split
  · rename_i hj
    obtain ⟨i, rfl⟩ : ∃ i : UInt32, i.toNat = j := ⟨UInt32.ofNat j, toNat_index hroom hj⟩
    rw [UInt32.ofNat_toNat]
    by_cases hoccupied : ∃ g value, s.cells[i.toNat]? = some (.occupied g value)
    · obtain ⟨g, value, hcell⟩ := hoccupied
      have hget := hfind ⟨i, g⟩
      rw [(s.get?_eq_some_iff ⟨i, g⟩ value).2 hcell, Option.map_some, get?_eq_some_iff] at hget
      rw [hcell]
      exact hget
    · have hvacant : ∀ g value, s.cells[i.toNat]? ≠ some (.occupied g value) :=
        fun g value hcell => hoccupied ⟨g, value, hcell⟩
      have hlisted : i ∈ t.free := hfree ▸ mem_free_worn hlists (hsize ▸ hj) hvacant
      obtain ⟨g, hg⟩ := ht.vacant i hlisted
      have hgeneration : (t.vacancy i).generation = g := by
        unfold vacancy
        rw [hg]
        rfl
      rw [getD_of_not_occupied hvacant, hg, ← hgeneration, hvacancy i hlisted]
      rfl
  · rename_i hj
    exact Array.getElem?_eq_none (by omega)

end SlotStore

end ElasticLayout
