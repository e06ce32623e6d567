import ElasticLayout.Proofs.SlotStore

/-!
# Which handles come next

A store gives out its vacant cells, the latest vacated first, and then new cells.  Two stores with
other contents may follow each other through the same changes, each under handles of its own; then
the handles that the one gives out are those that the other gives out, renamed.

* `Slot.next` -- a handle after its cell was vacated;
* `upcoming` -- the handles given out next;
* `upcoming_insert`, `upcoming_erase`, `upcoming_modify` -- what the changes do to them;
* `Trails` -- one store gives out the handles of another, renamed;
* `Trails.insert`, `Trails.erase` -- the same change on both sides;
* `Slot.exchange`, `Trails.exchange` -- two cells taken and vacated in the same order.
-/

namespace ElasticLayout

/-- The handle under which a cell is given out after this one was vacated. -/
def Slot.next (k : Slot) : Slot := { k with generation := k.generation + 1 }

/-- The generation under which a cell is, or will be, occupied. -/
def SlotCell.generation {α : Type} : SlotCell α → UInt32
  | .occupied g _ => g
  | .vacant g => g

namespace SlotStore

variable {α β : Type}

/-! ### The handles given out next -/

/-- The handle under which a new cell is given out. -/
def unused (i : Nat) : Slot := ⟨UInt32.ofNat i, 0⟩

/-- The handle under which a vacant cell is given out. -/
def vacancy (s : SlotStore α) (i : UInt32) : Slot :=
  ⟨i, ((s.cells[i.toNat]?).map SlotCell.generation).getD 0⟩

/-- The handles given out next, as long as there are at most so many cells. -/
def upcoming (s : SlotStore α) (n : Nat) : List Slot :=
  s.free.map s.vacancy ++ (List.range' s.cells.size (n - s.cells.size)).map unused

/-- Cells that are not listed do not matter. -/
theorem map_vacancy_congr {s t : SlotStore α} {rest : List UInt32}
    (h : ∀ i ∈ rest, t.cells[i.toNat]? = s.cells[i.toNat]?) :
    rest.map t.vacancy = rest.map s.vacancy := by
  refine List.map_congr_left fun i hi => ?_
  unfold vacancy
  rw [h i hi]

/-- More cells are new ones. -/
theorem upcoming_append (s : SlotStore α) {m n : Nat} (hm : s.cells.size ≤ m) (hn : m ≤ n) :
    s.upcoming n = s.upcoming m ++ (List.range' m (n - m)).map unused := by
  have hrange : List.range' s.cells.size (n - s.cells.size)
      = List.range' s.cells.size (m - s.cells.size) ++ List.range' m (n - m) := by
    rw [show n - s.cells.size = (m - s.cells.size) + (n - m) by omega, ← List.range'_append_1,
      show s.cells.size + (m - s.cells.size) = m by omega]
  unfold upcoming
  rw [hrange, List.map_append, List.append_assoc]

/-! ### What the changes do -/

/-- An insertion gives out the first of them. -/
theorem upcoming_insert {s : SlotStore α} (h : s.Tidy) (value : α) {n : Nat}
    (hn : (s.insert value).2.cells.size ≤ n) :
    s.upcoming n = (s.insert value).1 :: (s.insert value).2.upcoming n := by
  obtain ⟨hfree, heq⟩ | ⟨index, rest, g, hfree, hg, heq⟩ := s.insert_cases h value
  · rw [heq] at hn ⊢
    have hsize : (s.append value).2.cells.size = s.cells.size + 1 := Array.size_push _
    have hlength : n - s.cells.size = n - (s.cells.size + 1) + 1 := by omega
    unfold upcoming
    rw [hsize, show (s.append value).2.free = s.free from rfl, hfree, hlength, List.range'_succ]
    rfl
  · have hnodup := h.nodup
    rw [hfree, List.nodup_cons] at hnodup
    have hvacancy : s.vacancy index = ⟨index, g⟩ := by
      unfold vacancy
      rw [hg]
      rfl
    rw [heq]
    unfold upcoming
    rw [hfree, List.map_cons, hvacancy, List.cons_append, Array.size_setIfInBounds,
      map_vacancy_congr
        (t := ⟨s.cells.setIfInBounds index.toNat (.occupied g value), rest, s.size + 1⟩)
        fun i hi => ?_]
    have hne : index.toNat ≠ i.toNat := fun hn => hnodup.1 (UInt32.toNat_inj.1 hn ▸ hi)
    exact Array.getElem?_setIfInBounds_ne hne

/-- There is no new cell while a handle is waiting. -/
theorem cells_size_insert_le_of_upcoming {s : SlotStore α} (h : s.Tidy) (value : α) {n : Nat}
    (hn : s.cells.size ≤ n) (hne : s.upcoming n ≠ []) : (s.insert value).2.cells.size ≤ n := by
  obtain ⟨hfree, heq⟩ | ⟨index, rest, g, hfree, hg, heq⟩ := s.insert_cases h value
  · rw [heq]
    have hlt : s.cells.size ≠ n := by
      intro hsize
      refine hne ?_
      unfold upcoming
      rw [hfree, hsize, Nat.sub_self]
      rfl
    have hsize : (s.append value).2.cells.size = s.cells.size + 1 := Array.size_push _
    omega
  · rw [heq]
    exact Array.size_setIfInBounds.trans_le hn

/-- The index of a live handle is not on the stack. -/
theorem Tidy.index_ne {s : SlotStore α} (h : s.Tidy) {k : Slot} {value : α}
    (hget : s.get? k = some value) {i : UInt32} (hi : i ∈ s.free) : k.index.toNat ≠ i.toNat := by
  intro hn
  obtain ⟨g, hg⟩ := h.vacant i hi
  exact cells_ne_vacant hget g (by rw [hn, hg])

/-- A removal puts the next handle of the cell in front. -/
theorem upcoming_erase {s : SlotStore α} (h : s.Tidy) {k : Slot} {value : α}
    (hget : s.get? k = some value) (n : Nat) :
    (s.erase k).upcoming n = k.next :: s.upcoming n := by
  have hlive : s.contains k = true := Option.isSome_iff_exists.2 ⟨value, hget⟩
  have hbound : k.index.toNat < s.cells.size :=
    (Array.getElem?_eq_some_iff.1 ((s.get?_eq_some_iff k value).1 hget)).1
  unfold erase
  rw [if_pos hlive]
  have hcell : (SlotStore.mk (s.cells.setIfInBounds k.index.toNat (.vacant (k.generation + 1)))
      (k.index :: s.free) (s.size - 1)).vacancy k.index = k.next := by
    unfold vacancy
    rw [Array.getElem?_setIfInBounds_self_of_lt hbound]
    rfl
  unfold upcoming
  rw [List.map_cons, hcell, List.cons_append, Array.size_setIfInBounds,
    map_vacancy_congr fun i hi => ?_]
  exact Array.getElem?_setIfInBounds_ne (h.index_ne hget hi)

theorem upcoming_modify {s : SlotStore α} (h : s.Tidy) (k : Slot) (f : α → α) :
    (s.modify k f).upcoming = s.upcoming := by
  unfold modify
  cases hget : s.get? k with
  | none => rfl
  | some value =>
    funext n
    unfold upcoming
    rw [Array.size_setIfInBounds, map_vacancy_congr fun i hi => ?_]
    exact Array.getElem?_setIfInBounds_ne (h.index_ne hget hi)

/-- No two of them have one index, as long as there are indices. -/
theorem upcoming_nodup {s : SlotStore α} (h : s.Tidy) {n : Nat} (hn : n ≤ UInt32.size) :
    ((s.upcoming n).map Slot.index).Nodup := by
  unfold upcoming
  rw [List.map_append, List.map_map, List.map_map]
  refine List.Nodup.append ?_ ?_ ?_
  · rw [show Slot.index ∘ s.vacancy = id from rfl, List.map_id]
    exact h.nodup
  · refine List.Nodup.map_on (fun i hi j hj hij => ?_) List.nodup_range'
    simp only [List.mem_range'_1] at hi hj
    have hindex : UInt32.ofNat i = UInt32.ofNat j := hij
    rw [← UInt32.toNat_inj, UInt32.toNat_ofNat_of_lt' (show i < UInt32.size by omega),
      UInt32.toNat_ofNat_of_lt' (show j < UInt32.size by omega)] at hindex
    exact hindex
  · intro i hi hi'
    rw [show Slot.index ∘ s.vacancy = id from rfl, List.map_id] at hi
    obtain ⟨g, hg⟩ := h.vacant i hi
    have hlt : i.toNat < s.cells.size := (Array.getElem?_eq_some_iff.1 hg).1
    obtain ⟨j, hj, rfl⟩ := List.mem_map.1 hi'
    rw [List.mem_range'_1] at hj
    have hindex : (UInt32.ofNat j).toNat = j :=
      UInt32.toNat_ofNat_of_lt' (show j < UInt32.size by omega)
    have hlt : (UInt32.ofNat j).toNat < s.cells.size := hlt
    omega

/-- None of them has the index of a live handle. -/
theorem index_ne_of_mem_upcoming {s : SlotStore α} (h : s.Tidy) {n : Nat} (hn : n ≤ UInt32.size)
    {k : Slot} {value : α} (hk : s.get? k = some value) {a : Slot} (ha : a ∈ s.upcoming n) :
    k.index ≠ a.index := by
  intro heq
  rcases List.mem_append.1 ha with hvacant | hnew
  · obtain ⟨i, hi, rfl⟩ := List.mem_map.1 hvacant
    exact h.index_ne hk hi (congrArg UInt32.toNat heq)
  · obtain ⟨i, hi, rfl⟩ := List.mem_map.1 hnew
    rw [List.mem_range'_1] at hi
    have hlt : k.index.toNat < s.cells.size :=
      (Array.getElem?_eq_some_iff.1 ((s.get?_eq_some_iff k value).1 hk)).1
    have hindex : k.index.toNat = i := by
      rw [heq]
      exact UInt32.toNat_ofNat_of_lt' (show i < UInt32.size by omega)
    omega

/-! ### Stores that follow each other -/

/-- A store gives out the handles of another, renamed. -/
structure Trails (ρ : Equiv.Perm Slot) (s : SlotStore α) (t : SlotStore β) : Prop where
  /-- The other store may have new cells left to give out. -/
  size_le : s.cells.size ≤ t.cells.size
  /-- The handles given out next are those of the other store, renamed. -/
  upcoming : t.upcoming t.cells.size = (s.upcoming t.cells.size).map ρ
  /-- Cells that neither store has are given out under the same handles. -/
  unused : ∀ i, t.cells.size ≤ i → i < UInt32.size → ρ (SlotStore.unused i) = SlotStore.unused i
  /-- Vacated cells come back under handles renamed alike. -/
  next : ∀ k, ρ k.next = (ρ k).next

namespace Trails

variable {ρ : Equiv.Perm Slot} {s s' : SlotStore α} {t t' : SlotStore β}

theorem refl (s : SlotStore α) : Trails 1 s s :=
  ⟨le_rfl, (List.map_id _).symm, fun _ _ _ => rfl, fun _ => rfl⟩

theorem congr (h : Trails ρ s t) (hs : s'.upcoming = s.upcoming)
    (hs' : s'.cells.size = s.cells.size) (ht : t'.upcoming = t.upcoming)
    (ht' : t'.cells.size = t.cells.size) : Trails ρ s' t' := by
  obtain ⟨hsize, hupcoming, hunused, hnext⟩ := h
  exact ⟨by rwa [hs', ht'], by rwa [hs, ht, ht'], by rwa [ht'], hnext⟩

/-- The same handles are next for any number of cells. -/
theorem upcoming_of_le (h : Trails ρ s t) {n : Nat} (hn : t.cells.size ≤ n)
    (hroom : n ≤ UInt32.size) : t.upcoming n = (s.upcoming n).map ρ := by
  have hfixed : ((List.range' t.cells.size (n - t.cells.size)).map SlotStore.unused).map ρ
      = (List.range' t.cells.size (n - t.cells.size)).map SlotStore.unused := by
    rw [List.map_map]
    refine List.map_congr_left fun i hi => ?_
    rw [List.mem_range'_1] at hi
    exact h.unused i hi.1 (by omega)
  rw [t.upcoming_append le_rfl hn, s.upcoming_append h.size_le hn, List.map_append, hfixed,
    h.upcoming]

/-- **Both stores give out a handle.** -/
theorem insert (h : Trails ρ s t) (hs : s.Tidy) (ht : t.Tidy) (value : α) (value' : β)
    (hroom : (t.insert value').2.Addressable) :
    (t.insert value').1 = ρ (s.insert value).1 ∧
      Trails ρ (s.insert value).2 (t.insert value').2 := by
  obtain ⟨n, hn⟩ : ∃ n, n = (t.insert value').2.cells.size := ⟨_, rfl⟩
  have hle : t.cells.size ≤ n := hn ▸ t.cells_size_le_insert value'
  have hupcoming : t.upcoming n = (s.upcoming n).map ρ := h.upcoming_of_le hle (hn ▸ hroom)
  have hafter := upcoming_insert ht value' hn.ge
  have hne : s.upcoming n ≠ [] := by
    intro hnil
    rw [hupcoming, hnil] at hafter
    exact absurd hafter (by simp)
  have hsize := cells_size_insert_le_of_upcoming hs value (h.size_le.trans hle) hne
  rw [hupcoming, upcoming_insert hs value hsize, List.map_cons, List.cons.injEq] at hafter
  refine ⟨hafter.1.symm, hn ▸ hsize, ?_, fun i hi => h.unused i (hle.trans (hn ▸ hi)), h.next⟩
  rw [← hn]
  exact hafter.2.symm

/-- **Both stores vacate a cell.** -/
theorem erase (h : Trails ρ s t) (hs : s.Tidy) (ht : t.Tidy) {k : Slot} {value : α} {value' : β}
    (hk : s.get? k = some value) (hk' : t.get? (ρ k) = some value') :
    Trails ρ (s.erase k) (t.erase (ρ k)) := by
  have hsize := cells_size_erase t (ρ k)
  refine ⟨(cells_size_erase s k).trans_le (h.size_le.trans hsize.ge), ?_,
    fun i hi => h.unused i (hsize.ge.trans hi), h.next⟩
  rw [hsize, upcoming_erase ht hk', upcoming_erase hs hk, List.map_cons, h.next, h.upcoming]

end Trails

end SlotStore

/-! ### Exchanging two cells -/

namespace Slot

/-- How far the generations of a cell are shifted when two cells are exchanged. -/
def shift (a b : Slot) (i : UInt32) : UInt32 :=
  if i = a.index then b.generation - a.generation + 1
  else if i = b.index then a.generation - b.generation + 1
  else 0

/-- The cells of two handles are exchanged, such that each handle becomes the one that comes after
the other. -/
def exchange (a b : Slot) : Equiv.Perm Slot where
  toFun k := ⟨Equiv.swap a.index b.index k.index, k.generation + shift a b k.index⟩
  invFun k := ⟨Equiv.swap a.index b.index k.index,
    k.generation - shift a b (Equiv.swap a.index b.index k.index)⟩
  left_inv k := by simp
  right_inv k := by simp

theorem exchange_left (a b : Slot) : exchange a b a = b.next := by
  refine SlotStore.eq_of_index_eq (Equiv.swap_apply_left _ _) ?_
  show a.generation + shift a b a.index = b.generation + 1
  unfold shift
  rw [if_pos rfl]
  grind

theorem exchange_right {a b : Slot} (h : a.index ≠ b.index) : exchange a b b = a.next := by
  refine SlotStore.eq_of_index_eq (Equiv.swap_apply_right _ _) ?_
  show b.generation + shift a b b.index = a.generation + 1
  unfold shift
  rw [if_neg h.symm, if_pos rfl]
  grind

theorem exchange_of_ne {a b k : Slot} (ha : k.index ≠ a.index) (hb : k.index ≠ b.index) :
    exchange a b k = k := by
  refine SlotStore.eq_of_index_eq (Equiv.swap_apply_of_ne_of_ne ha hb) ?_
  show k.generation + shift a b k.index = k.generation
  unfold shift
  rw [if_neg ha, if_neg hb, UInt32.add_zero]

theorem exchange_next (a b k : Slot) : exchange a b k.next = (exchange a b k).next := by
  refine SlotStore.eq_of_index_eq rfl ?_
  show k.generation + 1 + shift a b k.index = k.generation + shift a b k.index + 1
  grind

end Slot

/-- **Vacating two cells in the order they were taken in exchanges them.** -/
theorem SlotStore.Trails.exchange {α : Type} {s t : SlotStore α} (hs : s.Tidy)
    (hsize : s.cells.size ≤ t.cells.size) (hroom : t.Addressable) {a b : Slot} {rest : List Slot}
    (hbefore : s.upcoming t.cells.size = a :: b :: rest)
    (hafter : t.upcoming t.cells.size = b.next :: a.next :: rest) :
    s.Trails (Slot.exchange a b) t := by
  have hnodup := upcoming_nodup hs hroom
  rw [hbefore, List.map_cons, List.map_cons, List.nodup_cons, List.nodup_cons] at hnodup
  obtain ⟨ha, hb, -⟩ := hnodup
  have hfixed : ∀ k ∈ rest, Slot.exchange a b k = k := fun k hk =>
    Slot.exchange_of_ne
      (fun heq => ha (List.mem_cons_of_mem _ (List.mem_map.2 ⟨k, hk, heq⟩)))
      (fun heq => hb (List.mem_map.2 ⟨k, hk, heq⟩))
  refine ⟨hsize, ?_, fun i hi hi' => ?_, Slot.exchange_next a b⟩
  · have hne : a.index ≠ b.index := fun heq => ha (heq ▸ List.mem_cons_self)
    rw [hbefore, hafter, List.map_cons, List.map_cons, Slot.exchange_left,
      Slot.exchange_right hne, List.map_congr_left hfixed, List.map_id']
  · have hlater := upcoming_nodup hs (show i + 1 ≤ UInt32.size from hi')
    rw [s.upcoming_append hsize (Nat.le_succ_of_le hi), hbefore, List.map_append,
      List.nodup_append] at hlater
    have hindex : (SlotStore.unused i).index ∈
        ((List.range' t.cells.size (i + 1 - t.cells.size)).map SlotStore.unused).map
          Slot.index := by
      refine List.mem_map_of_mem (List.mem_map_of_mem ?_)
      rw [List.mem_range'_1]
      omega
    exact Slot.exchange_of_ne
      (fun heq => hlater.2.2 _ (by simp) _ hindex heq.symm)
      (fun heq => hlater.2.2 _ (by simp) _ hindex heq.symm)

end ElasticLayout
