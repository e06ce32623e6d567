import ElasticLayout.Proofs.SlotStore
import ElasticLayout.Spec.Operation

/-!
# What every call does to the stores

Whatever a specification does, its stores stay tidy, and no cell of them goes away.  Hence, if the
handles of a specification are enough for its cells at the end of a history, they were enough all
the way.

* `Spec.Tidy` -- both stores are tidy;
* `Spec.Evolves` -- from one specification to another the stores stay tidy, do not shrink, and grow
  by few cells;
* `Spec.evolves_retain` ... `Spec.evolves_sizeQuery` -- one lemma for every change;
* `Spec.sizeQuery_eq_ok_iff` -- what an answered size query is.
-/

namespace ElasticLayout.Spec

variable {α : Type}

/-- Both stores are tidy. -/
def Tidy (s : Spec α) : Prop := s.variableStore.Tidy ∧ s.constraintStore.Tidy

/-- The stores stay tidy, do not shrink, and grow by at most so many cells. -/
structure Evolves (s t : Spec α) (m n : Nat) : Prop where
  /-- Tidy stores stay tidy. -/
  tidy : s.Tidy → t.Tidy
  /-- No cell of a variable goes away. -/
  variables_le : s.variableStore.cells.size ≤ t.variableStore.cells.size
  /-- No cell of a constraint goes away. -/
  constraints_le : s.constraintStore.cells.size ≤ t.constraintStore.cells.size
  /-- There are few new cells of variables. -/
  le_variables : t.variableStore.cells.size ≤ s.variableStore.cells.size + m
  /-- There are few new cells of constraints. -/
  le_constraints : t.constraintStore.cells.size ≤ s.constraintStore.cells.size + n

namespace Evolves

variable {s t u : Spec α} {m n m' n' : Nat}

theorem refl (s : Spec α) : s.Evolves s 0 0 := ⟨id, le_rfl, le_rfl, le_rfl, le_rfl⟩

theorem trans (h : s.Evolves t m n) (h' : t.Evolves u m' n') :
    s.Evolves u (m + m') (n + n') := by
  obtain ⟨htidy, hv, hc, hv', hc'⟩ := h
  obtain ⟨htidy', hv₂, hc₂, hv₂', hc₂'⟩ := h'
  exact ⟨fun hs => htidy' (htidy hs), hv.trans hv₂, hc.trans hc₂, by omega, by omega⟩

theorem mono (h : s.Evolves t m n) (hm : m ≤ m') (hn : n ≤ n') : s.Evolves t m' n' :=
  ⟨h.tidy, h.variables_le, h.constraints_le, h.le_variables.trans (by omega),
    h.le_constraints.trans (by omega)⟩

theorem foldl {β : Type} {f : Spec α → β → Spec α} (h : ∀ (s : Spec α) (b : β),
    s.Evolves (f s b) m n) : ∀ (bs : List β) (s : Spec α),
      s.Evolves (bs.foldl f s) (bs.length * m) (bs.length * n) := by
  intro bs
  induction bs with
  | nil => exact fun s => (refl s).mono (Nat.zero_le _) (Nat.zero_le _)
  | cons b bs ih =>
    intro s
    refine ((h s b).trans (ih (f s b))).mono ?_ ?_
    · rw [List.length_cons, Nat.add_one_mul, Nat.add_comm]
    · rw [List.length_cons, Nat.add_one_mul, Nat.add_comm]

/-- Steps that add no cell, one after the other. -/
theorem foldl_zero {β : Type} {f : Spec α → β → Spec α}
    (h : ∀ (s : Spec α) (b : β), s.Evolves (f s b) 0 0) (bs : List β) (s : Spec α) :
    s.Evolves (bs.foldl f s) 0 0 := by
  have hall := foldl h bs s
  rwa [Nat.mul_zero] at hall

/-- Enough handles at the end were enough at the start. -/
theorem addressable (h : s.Evolves t m n) (ht : t.Addressable) : s.Addressable :=
  ⟨h.variables_le.trans ht.1, h.constraints_le.trans ht.2⟩

/-- Enough handles at the start are enough as long as no cell is added. -/
theorem addressable_of_zero (h : s.Evolves t 0 0) (hs : s.Addressable) : t.Addressable :=
  ⟨h.le_variables.trans hs.1, h.le_constraints.trans hs.2⟩

end Evolves

/-! ### Single entries -/

theorem evolves_modifyVariable (s : Spec α) (id : VariableId) (f : Variable α → Variable α) :
    s.Evolves (s.modifyVariable id f) 0 0 :=
  ⟨fun h => ⟨h.1.modify id.slot f, h.2⟩, (s.variableStore.cells_size_modify id.slot f).ge, le_rfl,
    (s.variableStore.cells_size_modify id.slot f).le, le_rfl⟩

theorem evolves_modifyConstraint (s : Spec α) (id : ConstraintId)
    (f : Constraint α → Constraint α) : s.Evolves (s.modifyConstraint id f) 0 0 :=
  ⟨fun h => ⟨h.1, h.2.modify id.slot f⟩, le_rfl, (s.constraintStore.cells_size_modify id.slot f).ge,
    le_rfl, (s.constraintStore.cells_size_modify id.slot f).le⟩

theorem evolves_insertVariable (s : Spec α) (v : Variable α) :
    s.Evolves { s with variableStore := (s.variableStore.insert v).2 } 1 0 :=
  ⟨fun h => ⟨h.1.insert v, h.2⟩, s.variableStore.cells_size_le_insert v, le_rfl,
    s.variableStore.cells_size_insert_le v, le_rfl⟩

theorem evolves_eraseVariable (s : Spec α) (slot : Slot) :
    s.Evolves { s with variableStore := s.variableStore.erase slot } 0 0 :=
  ⟨fun h => ⟨h.1.erase slot, h.2⟩, (s.variableStore.cells_size_erase slot).ge, le_rfl,
    (s.variableStore.cells_size_erase slot).le, le_rfl⟩

theorem evolves_eraseConstraint (s : Spec α) (slot : Slot) :
    s.Evolves { s with constraintStore := s.constraintStore.erase slot } 0 0 :=
  ⟨fun h => ⟨h.1, h.2.erase slot⟩, le_rfl, (s.constraintStore.cells_size_erase slot).ge, le_rfl,
    (s.constraintStore.cells_size_erase slot).le⟩

theorem evolves_retain (s : Spec α) (left : List (Summand α)) : s.Evolves (s.retain left) 0 0 :=
  Evolves.foldl_zero (fun s _ => s.evolves_modifyVariable _ _) left s

theorem evolves_release (s : Spec α) (left : List (Summand α)) : s.Evolves (s.release left) 0 0 :=
  Evolves.foldl_zero (fun s _ => s.evolves_modifyVariable _ _) left s

theorem evolves_place (s : Spec α) (c : Constraint α) : s.Evolves (s.place c).2 0 1 := by
  have hinsert : (s.retain c.left).Evolves (s.place c).2 0 1 :=
    ⟨fun h => ⟨h.1, h.2.insert c⟩, le_rfl, SlotStore.cells_size_le_insert _ c, le_rfl,
      SlotStore.cells_size_insert_le _ c⟩
  exact (s.evolves_retain c.left).trans hinsert

theorem evolves_withdraw (s : Spec α) (id : ConstraintId) : s.Evolves (s.withdraw id) 0 0 := by
  unfold withdraw
  split
  · exact .refl s
  · exact (s.evolves_eraseConstraint id.slot).trans (evolves_release _ _)

theorem evolves_dropVariable (s : Spec α) (id : VariableId) :
    s.Evolves (s.dropVariable id) 0 0 := by
  unfold dropVariable
  split
  · exact .refl s
  · exact (Evolves.foldl_zero evolves_withdraw _ s).trans (evolves_eraseVariable _ id.slot)

theorem evolves_detach (s : Spec α) (id : ConstraintId) : s.Evolves (s.detach id) 0 0 := by
  unfold detach
  split
  · exact .refl s
  · exact (((s.evolves_modifyConstraint _ _).trans (evolves_release _ _)).trans
      (evolves_withdraw _ _)).trans (evolves_dropVariable _ _)

theorem evolves_drop (s : Spec α) (id : ConstraintId) : s.Evolves (s.drop id) 0 0 :=
  (s.evolves_detach id).trans (evolves_withdraw _ id)

/-! ### Ranges, slacks and constraints -/

variable [Scalar α]

theorem evolves_syncBound (s : Spec α) (id : VariableId) (existing : Option ConstraintId)
    (relation : Relation) (limit : α) (needed : Bool) :
    s.Evolves (s.syncBound id existing relation limit needed).2 0 1 := by
  unfold syncBound
  split
  · exact (s.evolves_modifyConstraint _ _).mono le_rfl (Nat.zero_le 1)
  · exact (s.evolves_withdraw _).mono le_rfl (Nat.zero_le 1)
  · exact s.evolves_place _
  · exact (Evolves.refl s).mono le_rfl (Nat.zero_le 1)

theorem evolves_applyRange (s : Spec α) (id : VariableId) (lower upper : α) :
    s.Evolves (s.applyRange id lower upper) 0 2 := by
  unfold applyRange
  split
  · exact (Evolves.refl s).mono le_rfl (Nat.zero_le 2)
  · exact (((s.evolves_modifyVariable _ _).trans (evolves_syncBound _ _ _ _ _ _)).trans
      (evolves_syncBound _ _ _ _ _ _)).trans (evolves_modifyVariable _ _ _)

theorem evolves_attachSlack (s : Spec α) (id : ConstraintId) (c : Constraint α)
    (coefficient : α) : s.Evolves (s.attachSlack id c coefficient) 1 3 :=
  (((((s.evolves_insertVariable _).trans (evolves_applyRange _ _ _ _)).trans
    (evolves_modifyConstraint _ _ _)).trans (evolves_retain _ _)).trans
    (evolves_place _ _)).trans (evolves_modifyConstraint _ _ _)

theorem evolves_attach (s : Spec α) (id : ConstraintId) : s.Evolves (s.attach id) 1 3 := by
  have hstay : s.Evolves s 1 3 := (Evolves.refl s).mono (Nat.zero_le 1) (Nat.zero_le 3)
  unfold attach
  split
  · exact hstay
  · split
    · exact hstay
    · split
      · exact hstay
      · exact s.evolves_attachSlack _ _ _

theorem evolves_register (s : Spec α) (c : Constraint α) : s.Evolves (s.register c).2 1 4 :=
  (s.evolves_place c).trans (evolves_attach _ _)

theorem evolves_mutate (s : Spec α) (id : ConstraintId) (change : Constraint α → Constraint α) :
    s.Evolves (s.mutate id change) 1 3 := by
  refine @Evolves.trans _ _ _ _ 0 0 1 3 (s.evolves_detach id) ?_
  unfold mutate
  dsimp only
  split
  · exact (Evolves.refl _).mono (Nat.zero_le 1) (Nat.zero_le 3)
  · exact (((evolves_modifyConstraint _ _ _).trans (evolves_release _ _)).trans
      (evolves_retain _ _)).trans (evolves_attach _ _)

/-! ### Solving and size queries -/

omit [Scalar α] in
theorem evolves_assign (s : Spec α) (values : List (VariableId × α)) :
    s.Evolves (s.assign values) 0 0 :=
  Evolves.foldl_zero (fun s _ => s.evolves_modifyVariable _ _) values s

theorem evolves_solve (s : Spec α) : s.Evolves s.solve 0 0 := by
  have hresult : ∀ (t : Spec α) (code : ResultCode), t.Evolves { t with result := code } 0 0 :=
    fun t code => ⟨id, le_rfl, le_rfl, le_rfl, le_rfl⟩
  unfold solve
  split
  · exact (s.evolves_assign _).trans (hresult _ _)
  · exact hresult s _

omit [Scalar α] in
theorem evolves_setSuspended (suspended : Bool) (s : Spec α) (id : ConstraintId) :
    s.Evolves (s.setSuspended suspended id) 0 0 := by
  unfold setSuspended
  dsimp only
  split
  · exact .refl s
  · split
    · exact s.evolves_modifyConstraint _ _
    · exact Evolves.foldl_zero (fun s _ => s.evolves_modifyConstraint _ _) _ s

theorem evolves_pinned (s : Spec α) (width height : VariableId) (target : α) :
    s.Evolves (s.pinned width height target).2 2 8 :=
  ((Evolves.foldl_zero (evolves_setSuspended true) s.suspendable s).trans
    (evolves_register _ _)).trans (evolves_register _ _)

/-- **An answered query**: its handles are live, it restores what it pinned and suspended, and it
reports the values that are left. -/
theorem sizeQuery_eq_ok_iff {s t : Spec α} {width height : VariableId} {target : α}
    {unbounded size : Size α} : s.sizeQuery width height target unbounded = .ok (size, t) ↔
      (s.getVariable? width).isSome = true ∧ (s.getVariable? height).isSome = true ∧
        t = s.suspendable.foldl (setSuspended false)
          (((s.pinned width height target).2.solve.drop (s.pinned width height target).1.1).drop
            (s.pinned width height target).1.2) ∧
        size = if t.result = .unbounded then unbounded else
          ⟨(t.value? width).getD Scalar.nan, (t.value? height).getD Scalar.nan⟩ := by
  unfold sizeQuery
  cases s.getVariable? width with
  | none => simp
  | some v =>
    cases s.getVariable? height with
    | none => simp
    | some w =>
      simp only [Option.isNone_some, Bool.false_eq_true, if_false, Except.ok.injEq, Prod.mk.injEq,
        Option.isSome_some, true_and]
      constructor
      · rintro ⟨rfl, rfl⟩
        exact ⟨rfl, rfl⟩
      · rintro ⟨rfl, rfl⟩
        exact ⟨rfl, rfl⟩

/-- An answered query solves the pinned specification, and restores it. -/
theorem sizeQuery_ok {s t : Spec α} {width height : VariableId} {target : α}
    {unbounded size : Size α} (h : s.sizeQuery width height target unbounded = .ok (size, t)) :
    (s.getVariable? width).isSome = true ∧ (s.getVariable? height).isSome = true ∧
      t = s.suspendable.foldl (setSuspended false)
        (((s.pinned width height target).2.solve.drop (s.pinned width height target).1.1).drop
          (s.pinned width height target).1.2) := by
  obtain ⟨hwidth, hheight, ht, -⟩ := sizeQuery_eq_ok_iff.1 h
  exact ⟨hwidth, hheight, ht⟩

/-- What comes after the pins of a query adds no cell. -/
theorem evolves_pinned_sizeQuery {s t : Spec α} {width height : VariableId} {target : α}
    {unbounded size : Size α} (h : s.sizeQuery width height target unbounded = .ok (size, t)) :
    (s.pinned width height target).2.Evolves t 0 0 := by
  obtain ⟨-, -, rfl⟩ := sizeQuery_ok h
  exact (((evolves_solve _).trans (evolves_drop _ _)).trans (evolves_drop _ _)).trans
    (Evolves.foldl_zero (evolves_setSuspended false) _ _)

/-- A size query, after its handles were found live. -/
theorem evolves_sizeQuery {s t : Spec α} {width height : VariableId} {target : α}
    {unbounded size : Size α} (h : s.sizeQuery width height target unbounded = .ok (size, t)) :
    s.Evolves t 2 8 :=
  (s.evolves_pinned width height target).trans (evolves_pinned_sizeQuery h)

end ElasticLayout.Spec
