import ElasticLayout.Proofs.Vacancies

/-!
# Generations

A cell moves on to its next generation when its entry is removed, and at no other time.  So a handle
that was given out is not given out again, until the generations come round.

* `SlotCell.Spends` -- a cell is past a generation, or occupied under it;
* `SlotStore.Spent` -- a handle that is not given out any more;
* `SlotStore.not_spent_insert`, and `Spent.insert`, `Spent.modify`, `Spent.erase` -- a new handle is
  not spent, and a spent handle stays spent;
* `SlotStore.vacancy_insert`, `vacancy_modify`, `vacancy_erase` -- the generation of a cell after a
  change;
* `SlotStore.ListsVacant` -- the stack of vacant indices lists every vacant cell.
-/

namespace ElasticLayout

variable {α : Type}

/-! ### Generations -/

/-- The cell does not give out this generation any more: it has a later one, or is occupied under
it. -/
def SlotCell.Spends (cell : SlotCell α) (g : UInt32) : Prop :=
  g < cell.generation ∨ ∃ value, cell = .occupied g value

/-- The next generation is a later one, unless the generations have come round. -/
theorem Slot.lt_next_generation {k : Slot} (h : k.generation.toNat + 1 < UInt32.size) :
    k.generation < k.next.generation := by
  show k.generation < k.generation + 1
  rw [UInt32.lt_iff_toNat_lt, UInt32.toNat_add, show (1 : UInt32).toNat = 1 from rfl,
    Nat.mod_eq_of_lt h]
  exact Nat.lt_succ_self _

namespace SlotStore

/-- The handle belongs to a cell, and is not given out any more. -/
def Spent (s : SlotStore α) (k : Slot) : Prop :=
  ∃ cell, s.cells[k.index.toNat]? = some cell ∧ cell.Spends k.generation

/-- A handle given out was not spent before. -/
theorem not_spent_insert {s : SlotStore α} (h : s.Tidy) {value : α}
    (hroom : (s.insert value).2.Addressable) : ¬ s.Spent (s.insert value).1 := by
  rintro ⟨cell, hcell, hspends⟩
  rcases s.insert_cases h value with ⟨-, heq⟩ | ⟨index, rest, g, -, hg, heq⟩
  · -- A new cell.
    rw [heq] at hroom hcell
    have hcell : s.cells[(UInt32.ofNat s.cells.size).toNat]? = some cell := hcell
    rw [toNat_next hroom, Array.getElem?_eq_none le_rfl] at hcell
    exact absurd hcell (by simp)
  · -- A vacant cell, under its generation.
    rw [heq] at hcell hspends
    rw [Option.some.inj (hcell.symm.trans hg)] at hspends
    rcases hspends with hlt | ⟨v, hv⟩
    · exact UInt32.lt_irrefl g hlt
    · exact absurd hv (by simp)

/-- A cell may be overwritten by one that gives out no earlier generation. -/
theorem Spent.write {s : SlotStore α} {k : Slot} (hk : s.Spent k) {i : Nat}
    {old new : SlotCell α} (hold : s.cells[i]? = some old)
    (hspends : ∀ g, old.Spends g → new.Spends g) (free : List UInt32) (n : Nat) :
    (SlotStore.mk (s.cells.setIfInBounds i new) free n).Spent k := by
  obtain ⟨cell, hcell, hk⟩ := hk
  by_cases hindex : i = k.index.toNat
  · rw [hindex, hcell] at hold
    rw [Option.some.inj hold] at hk
    refine ⟨new, ?_, hspends _ hk⟩
    show (s.cells.setIfInBounds i new)[k.index.toNat]? = some new
    rw [hindex, Array.getElem?_setIfInBounds_self_of_lt (Array.getElem?_eq_some_iff.1 hcell).1]
  · exact ⟨cell, (Array.getElem?_setIfInBounds_ne hindex).trans hcell, hk⟩

theorem Spent.insert {s : SlotStore α} (h : s.Tidy) {k : Slot} (hk : s.Spent k) (value : α) :
    (s.insert value).2.Spent k := by
  rcases s.insert_cases h value with ⟨-, heq⟩ | ⟨index, rest, g, -, hg, heq⟩
  · rw [heq]
    obtain ⟨cell, hcell, hspends⟩ := hk
    have hbound : k.index.toNat < s.cells.size := (Array.getElem?_eq_some_iff.1 hcell).1
    refine ⟨cell, ?_, hspends⟩
    show (s.cells.push _)[k.index.toNat]? = some cell
    rw [Array.getElem?_push, if_neg hbound.ne, hcell]
  · rw [heq]
    refine hk.write hg (fun g' hg' => ?_) rest _
    -- What a vacant cell does not give out any more has an earlier generation.
    exact .inl (hg'.resolve_right fun ⟨v, hv⟩ => absurd hv (by simp))

theorem Spent.modify {s : SlotStore α} {k : Slot} (hk : s.Spent k) (slot : Slot) (f : α → α) :
    (s.modify slot f).Spent k := by
  unfold SlotStore.modify
  cases hget : s.get? slot with
  | none => exact hk
  | some value =>
    refine hk.write ((s.get?_eq_some_iff slot value).1 hget) (fun g hg => ?_) s.free _
    refine hg.imp_right fun ⟨v, hv⟩ => ⟨f value, ?_⟩
    injection hv with hgeneration
    rw [hgeneration]

theorem Spent.erase {s : SlotStore α} {k : Slot} (hk : s.Spent k) {slot : Slot}
    (hround : s.contains slot = true → slot.generation.toNat + 1 < UInt32.size) :
    (s.erase slot).Spent k := by
  unfold SlotStore.erase
  by_cases hlive : s.contains slot = true
  · rw [if_pos hlive]
    obtain ⟨value, hget⟩ := Option.isSome_iff_exists.1 hlive
    have hnext := Slot.lt_next_generation (hround hlive)
    refine hk.write ((s.get?_eq_some_iff slot value).1 hget) (fun g hg => .inl ?_) _ _
    rcases hg with hlt | ⟨v, hv⟩
    · exact UInt32.lt_trans hlt hnext
    · injection hv with hgeneration
      rwa [← hgeneration]
  · rw [if_neg hlive]
    exact hk

/-- The generation of a cell that is overwritten. -/
theorem vacancy_write {s : SlotStore α} {j : UInt32} {old : SlotCell α}
    (hold : s.cells[j.toNat]? = some old) (new : SlotCell α) (free : List UInt32) (n : Nat)
    (i : UInt32) : (SlotStore.mk (s.cells.setIfInBounds j.toNat new) free n).vacancy i
      = if i = j then ⟨j, new.generation⟩ else s.vacancy i := by
  unfold vacancy
  by_cases hij : i = j
  · rw [if_pos hij, hij]
    dsimp only
    rw [Array.getElem?_setIfInBounds_self_of_lt (Array.getElem?_eq_some_iff.1 hold).1]
    rfl
  · rw [if_neg hij]
    dsimp only
    rw [Array.getElem?_setIfInBounds_ne fun hn => hij (UInt32.toNat_inj.1 hn).symm]

/-- A cell keeps its generation when it is filled. -/
theorem vacancy_insert {s : SlotStore α} (h : s.Tidy) (value : α) (i : UInt32) :
    (s.insert value).2.vacancy i = s.vacancy i := by
  rcases s.insert_cases h value with ⟨-, heq⟩ | ⟨index, rest, g, -, hg, heq⟩
  · rw [heq]
    show (⟨i, (((s.cells.push (.occupied 0 value))[i.toNat]?).map
      SlotCell.generation).getD 0⟩ : Slot)
      = s.vacancy i
    unfold vacancy
    rw [Array.getElem?_push]
    split
    · rename_i hindex
      rw [hindex, Array.getElem?_eq_none le_rfl]
      rfl
    · rfl
  · rw [heq]
    dsimp only
    rw [vacancy_write hg]
    split
    · rename_i hindex
      unfold vacancy
      rw [hindex, hg]
      rfl
    · rfl

theorem vacancy_modify (s : SlotStore α) (slot : Slot) (f : α → α) (i : UInt32) :
    (s.modify slot f).vacancy i = s.vacancy i := by
  unfold modify
  cases hget : s.get? slot with
  | none => rfl
  | some value =>
    have hcell := (s.get?_eq_some_iff slot value).1 hget
    dsimp only
    rw [vacancy_write hcell]
    split
    · rename_i hindex
      unfold vacancy
      rw [hindex, hcell]
      rfl
    · rfl

/-- Only a removal moves a cell on, to its next generation. -/
theorem vacancy_erase {s : SlotStore α} {slot : Slot} {value : α}
    (hget : s.get? slot = some value) (i : UInt32) :
    (s.erase slot).vacancy i = if i = slot.index then slot.next else s.vacancy i := by
  have hlive : s.contains slot = true := Option.isSome_iff_exists.2 ⟨value, hget⟩
  unfold erase
  rw [if_pos hlive, vacancy_write ((s.get?_eq_some_iff slot value).1 hget)]
  rfl

/-- The next handle of an occupied cell has the generation of the live one. -/
theorem vacancy_of_get? {s : SlotStore α} {slot : Slot} {value : α}
    (hget : s.get? slot = some value) : s.vacancy slot.index = slot := by
  unfold vacancy
  rw [(s.get?_eq_some_iff slot value).1 hget]
  rfl

/-! ### Vacant cells -/

/-- Every vacant cell is on the stack of vacant indices. -/
def ListsVacant (s : SlotStore α) : Prop :=
  ∀ i g, s.cells[i.toNat]? = some (.vacant g) → i ∈ s.free

theorem ListsVacant.insert {s : SlotStore α} (h : s.Tidy) (hs : s.ListsVacant) (value : α) :
    (s.insert value).2.ListsVacant := by
  intro i g hi
  rcases s.insert_cases h value with ⟨-, heq⟩ | ⟨index, rest, g', hfree, hg, heq⟩
  · rw [heq] at hi ⊢
    have hi : (s.cells.push (.occupied 0 value))[i.toNat]? = some (.vacant g) := hi
    rw [Array.getElem?_push] at hi
    split at hi
    · exact absurd hi (by simp)
    · exact hs i g hi
  · rw [heq] at hi ⊢
    have hbound : index.toNat < s.cells.size := (Array.getElem?_eq_some_iff.1 hg).1
    have hi : (s.cells.setIfInBounds index.toNat _)[i.toNat]? = some (.vacant g) := hi
    by_cases hindex : index.toNat = i.toNat
    · rw [← hindex, Array.getElem?_setIfInBounds_self_of_lt hbound] at hi
      exact absurd hi (by simp)
    · rw [Array.getElem?_setIfInBounds_ne hindex] at hi
      have hlisted := hs i g hi
      rw [hfree] at hlisted
      exact (List.mem_cons.1 hlisted).resolve_left fun heq => hindex (by rw [heq])

theorem ListsVacant.modify {s : SlotStore α} (hs : s.ListsVacant) (slot : Slot) (f : α → α) :
    (s.modify slot f).ListsVacant := by
  unfold SlotStore.modify
  cases hget : s.get? slot with
  | none => exact hs
  | some value =>
    intro i g hi
    have hi : (s.cells.setIfInBounds slot.index.toNat _)[i.toNat]? = some (.vacant g) := hi
    rw [Array.getElem?_setIfInBounds] at hi
    split at hi
    · split at hi
      · exact absurd hi (by simp)
      · exact absurd hi (by simp)
    · exact hs i g hi

theorem ListsVacant.erase {s : SlotStore α} (hs : s.ListsVacant) (slot : Slot) :
    (s.erase slot).ListsVacant := by
  unfold SlotStore.erase
  by_cases hlive : s.contains slot = true
  · rw [if_pos hlive]
    intro i g hi
    have hi : (s.cells.setIfInBounds slot.index.toNat _)[i.toNat]? = some (.vacant g) := hi
    by_cases hindex : slot.index = i
    · exact hindex ▸ List.mem_cons_self
    · rw [Array.getElem?_setIfInBounds_ne fun hn => hindex (UInt32.toNat_inj.1 hn)] at hi
      exact List.mem_cons_of_mem _ (hs i g hi)
  · rw [if_neg hlive]
    exact hs

end SlotStore

end ElasticLayout
