import ElasticLayout.Proofs.ElasticOwnership
import ElasticLayout.Proofs.ExactObjective

/-!
# Columns

The problem of a specification has one column per variable that a participating constraint
mentions.  A point of the problem and a valuation of the variables say the same, and the row of a
constraint has at a point the value of its left side at the valuation.

* `Spec.columns_pairwise`, `Spec.mem_columns` -- which columns there are;
* `evaluate` -- a left side at a valuation;
* `Spec.pointOf`, `Spec.valuation` -- from valuations to points and back;
* `Spec.dot_pointOf` -- the value of a row;
* `Spec.problem_isFull` -- the problem has full rows.
-/

namespace ElasticLayout

open Linear

variable {α : Type}

/-! ### The order of handles -/

theorem Slot.precedes_iff {a b : Slot} : a.precedes b = true ↔
    a.index < b.index ∨ a.index = b.index ∧ a.generation < b.generation := by
  simp [precedes]

theorem Slot.precedes_trans {a b c : Slot} (h : a.precedes b = true) (h' : b.precedes c = true) :
    a.precedes c = true := by
  rw [precedes_iff] at h h' ⊢
  rcases h with h | ⟨hi, hg⟩ <;> rcases h' with h' | ⟨hi', hg'⟩
  · exact .inl (UInt32.lt_trans h h')
  · exact .inl (hi' ▸ h)
  · exact .inl (hi ▸ h')
  · exact .inr ⟨hi.trans hi', UInt32.lt_trans hg hg'⟩

theorem Slot.precedes_irrefl (a : Slot) : ¬a.precedes a = true := by
  rw [precedes_iff]
  simp

theorem Slot.precedes_total {a b : Slot} (hne : a ≠ b) (h : ¬a.precedes b = true) :
    b.precedes a = true := by
  rw [precedes_iff] at h ⊢
  obtain ⟨i, g⟩ := a
  obtain ⟨j, k⟩ := b
  simp only [ne_eq, mk.injEq, not_and] at hne
  simp only [not_or, not_and, UInt32.not_lt] at h
  rcases UInt32.lt_or_eq_of_le h.1 with hij | hij
  · exact .inl hij
  · exact .inr ⟨hij, UInt32.lt_of_le_of_ne (h.2 hij.symm) fun heq => hne hij.symm heq.symm⟩

/-- A store lists its entries in the order of their handles. -/
theorem SlotStore.toList_precedes {s : SlotStore α} (h : s.Addressable) :
    s.toList.Pairwise fun a b => a.1.precedes b.1 = true :=
  (toList_pairwise h).imp fun hlt => Slot.precedes_iff.2 (.inl hlt)

theorem Spec.constraintList_pairwise {s : Spec α} (h : s.Addressable) :
    s.constraintList.Pairwise fun p q => p.1.slot.precedes q.1.slot = true := by
  unfold constraintList
  rw [List.pairwise_map]
  exact SlotStore.toList_precedes h.2

/-! ### Which columns there are -/

theorem mem_insertColumn {id other : VariableId} {ids : List VariableId} :
    other ∈ insertColumn id ids ↔ other = id ∨ other ∈ ids := by
  induction ids with
  | nil => simp [insertColumn]
  | cons first rest ih =>
    unfold insertColumn
    split
    · rename_i heq
      simp [heq]
    · split
      · simp
      · simp only [List.mem_cons, ih]
        tauto

/-- Inserting keeps a list of handles ascending. -/
theorem insertColumn_pairwise {id : VariableId} {ids : List VariableId}
    (h : ids.Pairwise fun a b => a.slot.precedes b.slot = true) :
    (insertColumn id ids).Pairwise fun a b => a.slot.precedes b.slot = true := by
  induction ids with
  | nil => simp [insertColumn]
  | cons first rest ih =>
    obtain ⟨hfirst, hrest⟩ := List.pairwise_cons.1 h
    unfold insertColumn
    split
    · exact h
    · rename_i hne
      split
      · rename_i hbefore
        refine List.pairwise_cons.2 ⟨fun other hother => ?_, h⟩
        rcases List.mem_cons.1 hother with rfl | hother
        · exact hbefore
        · exact Slot.precedes_trans hbefore (hfirst other hother)
      · rename_i hafter
        refine List.pairwise_cons.2 ⟨fun other hother => ?_, ih hrest⟩
        rcases mem_insertColumn.1 hother with rfl | hother
        · exact Slot.precedes_total (fun heq => hne (VariableId.slot_inj.1 heq)) hafter
        · exact hfirst other hother

namespace Spec

/-- Every live constraint takes part, since none is suspended between two calls. -/
theorem participants_eq [Scalar α] {s : Spec α} (h : s.registry.Owned none)
    (haddressable : s.Addressable) :
    s.participants = s.constraintList.map (·.2) := by
  unfold participants
  rw [List.filter_eq_self]
  intro c hc
  obtain ⟨⟨k, d⟩, hmem, rfl⟩ := List.mem_map.1 hc
  simpa using h.resumed k d ((mem_constraintList haddressable).1 hmem)

theorem mem_participants [Scalar α] {s : Spec α} (h : s.registry.Owned none)
    (haddressable : s.Addressable)
    {c : Constraint α} : c ∈ s.participants ↔ ∃ k, s.registry.constraint? k = some c := by
  rw [participants_eq h haddressable]
  simp only [List.mem_map, Prod.exists, mem_constraintList haddressable, exists_eq_right]

theorem mem_foldl_insertColumn {id : VariableId} {terms : List (Summand α)}
    {ids : List VariableId} :
    id ∈ terms.foldl (fun ids term => insertColumn term.var ids) ids ↔
      (∃ term ∈ terms, term.var = id) ∨ id ∈ ids := by
  induction terms generalizing ids with
  | nil => simp
  | cons term terms ih =>
    rw [List.foldl_cons, ih, mem_insertColumn]
    simp only [List.mem_cons, exists_eq_or_imp]
    constructor
    · rintro (h | rfl | h)
      · exact .inl (.inr h)
      · exact .inl (.inl rfl)
      · exact .inr h
    · rintro ((rfl | h) | h)
      · exact .inr (.inl rfl)
      · exact .inl h
      · exact .inr (.inr h)

/-- The columns are the variables that participating constraints mention. -/
theorem mem_columns {s : Spec α} {id : VariableId} :
    id ∈ s.columns ↔ ∃ c ∈ s.participants, ∃ term ∈ c.left, term.var = id := by
  suffices h : ∀ (cs : List (Constraint α)) (ids : List VariableId),
      id ∈ cs.foldl (fun ids c => c.left.foldl (fun ids term => insertColumn term.var ids) ids) ids
        ↔ (∃ c ∈ cs, ∃ term ∈ c.left, term.var = id) ∨ id ∈ ids by
    unfold columns
    simpa using h s.participants []
  intro cs
  induction cs with
  | nil => simp
  | cons c cs ih =>
    intro ids
    rw [List.foldl_cons, ih, mem_foldl_insertColumn]
    simp only [List.mem_cons, exists_eq_or_imp]
    rw [or_left_comm, or_assoc]

/-- **The columns are ascending.** -/
theorem columns_pairwise (s : Spec α) :
    s.columns.Pairwise fun a b => a.slot.precedes b.slot = true := by
  have hterms : ∀ (terms : List (Summand α)) (ids : List VariableId),
      ids.Pairwise (fun a b => a.slot.precedes b.slot = true) →
      (terms.foldl (fun ids term => insertColumn term.var ids) ids).Pairwise
        fun a b => a.slot.precedes b.slot = true := by
    intro terms
    induction terms with
    | nil => exact fun ids h => h
    | cons term terms ih => exact fun ids h => ih _ (insertColumn_pairwise h)
  suffices h : ∀ (cs : List (Constraint α)) (ids : List VariableId),
      ids.Pairwise (fun a b => a.slot.precedes b.slot = true) →
      (cs.foldl (fun ids c => c.left.foldl (fun ids term => insertColumn term.var ids) ids)
        ids).Pairwise fun a b => a.slot.precedes b.slot = true from
    h s.participants [] .nil
  intro cs
  induction cs with
  | nil => exact fun ids h => h
  | cons c cs ih => exact fun ids h => ih _ (hterms c.left ids h)

theorem columns_nodup (s : Spec α) : s.columns.Nodup := by
  refine s.columns_pairwise.imp fun {a b} h heq => ?_
  rw [heq] at h
  exact Slot.precedes_irrefl _ h

end Spec

/-- Ascending lists of the same entries are the same. -/
theorem eq_of_pairwise_precedes {β : Type} (slot : β → Slot) {l l' : List β}
    (h : l.Pairwise fun a b => (slot a).precedes (slot b) = true)
    (h' : l'.Pairwise fun a b => (slot a).precedes (slot b) = true)
    (hmem : ∀ a, a ∈ l ↔ a ∈ l') : l = l' := by
  have hirrefl : Std.Irrefl fun a b : β => (slot a).precedes (slot b) = true :=
    ⟨fun a => Slot.precedes_irrefl (slot a)⟩
  have hantisymm : Std.Antisymm fun a b : β => (slot a).precedes (slot b) = true :=
    ⟨fun a b hab hba => absurd (Slot.precedes_trans hab hba) (Slot.precedes_irrefl (slot a))⟩
  exact h.eq_of_mem_iff h' hmem

/-! ### Left sides at valuations -/

/-- A left side at a valuation of the variables. -/
noncomputable def evaluate (terms : List (Summand ℝ)) (y : VariableId → ℝ) : ℝ :=
  (terms.map fun term => term.coefficient * y term.var).sum

@[simp] theorem evaluate_nil (y : VariableId → ℝ) : evaluate [] y = 0 := rfl

@[simp] theorem evaluate_cons (term : Summand ℝ) (terms : List (Summand ℝ))
    (y : VariableId → ℝ) :
    evaluate (term :: terms) y = term.coefficient * y term.var + evaluate terms y :=
  List.sum_cons

theorem evaluate_append (terms terms' : List (Summand ℝ)) (y : VariableId → ℝ) :
    evaluate (terms ++ terms') y = evaluate terms y + evaluate terms' y := by
  unfold evaluate
  rw [List.map_append, List.sum_append]

theorem evaluate_congr {terms : List (Summand ℝ)} {y z : VariableId → ℝ}
    (h : ∀ term ∈ terms, y term.var = z term.var) : evaluate terms y = evaluate terms z := by
  unfold evaluate
  congr 1
  refine List.map_congr_left fun term hterm => ?_
  rw [h term hterm]

theorem Constraint.coefficientOf_eq (c : Constraint ℝ) (id : VariableId) :
    c.coefficientOf id
      = (c.left.map fun term => if term.var = id then term.coefficient else 0).sum := by
  unfold coefficientOf
  have hstep : (fun (sum : ℝ) (term : Summand ℝ) =>
      if term.var = id then sum + term.coefficient else sum)
      = fun sum term => sum + if term.var = id then term.coefficient else 0 := by
    funext sum term
    split
    · rfl
    · rw [add_zero]
  rw [hstep, foldl_add_eq_sum, zero_add]

/-- The coefficients of a left side, column by column, make up its value. -/
theorem sum_coefficients_mul {ids : List VariableId} (hids : ids.Nodup)
    {terms : List (Summand ℝ)} (hterms : ∀ term ∈ terms, term.var ∈ ids) (y : VariableId → ℝ) :
    (ids.map fun id =>
      (terms.map fun term => if term.var = id then term.coefficient else 0).sum * y id).sum
      = evaluate terms y := by
  induction terms with
  | nil => simp
  | cons term terms ih =>
    have hmem : term.var ∈ ids := hterms term List.mem_cons_self
    have hone : (ids.map fun id => (if term.var = id then term.coefficient else 0) * y id).sum
        = term.coefficient * y term.var := by
      have hite : (fun id => (if term.var = id then term.coefficient else 0) * y id)
          = fun id => if id = term.var then term.coefficient * y id else 0 := by
        funext id
        rw [ite_mul, zero_mul]
        exact if_congr eq_comm rfl rfl
      rw [hite, List.sum_map_ite_eq, List.count_eq_one_of_mem hids hmem]
      simp
    rw [evaluate_cons, ← ih fun other hother => hterms other (List.mem_cons_of_mem _ hother),
      ← hone, ← List.sum_map_add]
    congr 1
    refine List.map_congr_left fun id _ => ?_
    rw [List.map_cons, List.sum_cons]
    ring

namespace Spec

/-- The point of the problem that belongs to a valuation. -/
noncomputable def pointOf (s : Spec ℝ) (y : VariableId → ℝ) : s.problem.Point :=
  ⟨(s.columns.map y).toArray, by simp [problem]⟩

@[simp] theorem toList_pointOf (s : Spec ℝ) (y : VariableId → ℝ) :
    (s.pointOf y).toList = s.columns.map y := rfl

/-- The values that a point gives to the variables; zero to those without a column. -/
noncomputable def valuation (s : Spec ℝ) (x : s.problem.Point) (id : VariableId) : ℝ :=
  x.toList.getD (s.columns.idxOf id) 0

/-- Every point belongs to its valuation. -/
theorem pointOf_valuation (s : Spec ℝ) (x : s.problem.Point) : s.pointOf (s.valuation x) = x := by
  rw [← Vector.toList_inj, toList_pointOf]
  apply List.ext_getElem
  · rw [List.length_map, Vector.length_toList]
    rfl
  · intro j h₁ h₂
    rw [List.getElem_map]
    unfold valuation
    rw [s.columns_nodup.idxOf_getElem, List.getD_eq_getElem]

theorem valuation_pointOf {s : Spec ℝ} {id : VariableId} (h : id ∈ s.columns)
    (y : VariableId → ℝ) : s.valuation (s.pointOf y) id = y id := by
  unfold valuation
  have hlt := List.idxOf_lt_length_of_mem h
  rw [toList_pointOf, List.getD_eq_getElem _ _ (by simpa using hlt), List.getElem_map,
    List.getElem_idxOf]

/-- **The row of a constraint has the value of its left side.** -/
theorem dot_pointOf {s : Spec ℝ} {c : Constraint ℝ} (hc : c ∈ s.participants)
    (y : VariableId → ℝ) :
    dot (s.columns.map c.coefficientOf) (s.pointOf y).toList = evaluate c.left y := by
  have hmem : ∀ term ∈ c.left, term.var ∈ s.columns := fun term hterm =>
    mem_columns.2 ⟨c, hc, term, hterm, rfl⟩
  rw [toList_pointOf, dot_eq, List.zipWith_map, List.zipWith_self,
    ← sum_coefficients_mul s.columns_nodup hmem]
  simp only [Constraint.coefficientOf_eq]

theorem problem_isFull (s : Spec ℝ) : s.problem.IsFull where
  hard := by
    intro row hrow
    obtain ⟨c, -, rfl⟩ := List.mem_map.1 hrow
    exact List.length_map _
  soft := by
    intro row hrow
    obtain ⟨c, -, rfl⟩ := List.mem_map.1 hrow
    exact List.length_map _

/-- The hard rows hold at a valuation if the constraints do that are no objective terms. -/
theorem holds_pointOf {s : Spec ℝ} (y : VariableId → ℝ) :
    s.problem.Holds (s.pointOf y) ↔ ∀ c ∈ s.participants, c.isObjectiveTerm = false →
      c.relation.Holds (evaluate c.left y) c.right := by
  constructor
  · intro h c hc hterm
    have hrow := h ⟨s.columns.map c.coefficientOf, c.relation, c.right⟩
      (List.mem_map.2 ⟨c, List.mem_filter.2 ⟨hc, by simp [hterm]⟩, rfl⟩)
    rw [← dot_pointOf hc]
    exact hrow
  · intro h row hrow
    obtain ⟨c, hmem, rfl⟩ := List.mem_map.1 hrow
    obtain ⟨hc, hterm⟩ := List.mem_filter.1 hmem
    have hholds := h c hc (by simpa using hterm)
    rw [← dot_pointOf hc] at hholds
    exact hholds

/-- The penalty at a valuation is that of the objective terms. -/
theorem penalty_pointOf (s : Spec ℝ) (y : VariableId → ℝ) :
    s.problem.penalty (s.pointOf y) = 1 / 2 * ((s.participants.filter (·.isObjectiveTerm)).map
      fun c => (weightFor c.penaltyAbove c.penaltyBelow * (evaluate c.left y - c.right)) ^ 2).sum
      := by
  unfold Problem.penalty problem
  dsimp only
  rw [List.map_map]
  congr 2
  refine List.map_congr_left fun c hc => ?_
  rw [← dot_pointOf (List.mem_filter.1 hc).1]
  rfl

end Spec

end ElasticLayout
