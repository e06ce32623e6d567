import ElasticLayout.Proofs.MirroredCalls

/-!
# The problem under other handles

The rows of a problem come in the order of the handles of the constraints.  Under other handles the
problem has the same columns and the same rows, in the order of the other handles.  If that order is
the same, it is the same problem, with the same outcome.

* `Spec.relisted` -- the constraints in the order of the renamed handles;
* `Spec.problemOver`, `Spec.Mirrors.problem_eq` -- the problem of the other side;
* `Spec.InOrder` -- a renaming that keeps the order of the handles;
* `Spec.solution`, `Spec.Mirrors.solve_agrees` -- the same problem has the same outcome.
-/

namespace ElasticLayout

variable {α : Type}

/-! ### Sorting by handles -/

/-- The handle of the one entry does not come after that of the other. -/
def NotAfter {β : Type} (slot : β → Slot) (a b : β) : Prop := (slot b).precedes (slot a) = false

instance {β : Type} (slot : β → Slot) : DecidableRel (NotAfter slot) := fun a b =>
  inferInstanceAs (Decidable ((slot b).precedes (slot a) = false))

theorem notAfter_of_precedes {β : Type} {slot : β → Slot} {a b : β}
    (h : (slot a).precedes (slot b) = true) : NotAfter slot a b :=
  Bool.eq_false_iff.2 fun hba => Slot.precedes_irrefl _ (Slot.precedes_trans h hba)

instance {β : Type} (slot : β → Slot) : Std.Total (NotAfter slot) where
  total a b := by
    by_cases h : (slot a).precedes (slot b) = true
    · exact .inl (notAfter_of_precedes h)
    · exact .inr (Bool.eq_false_iff.2 h)

instance {β : Type} (slot : β → Slot) : IsTrans β (NotAfter slot) where
  trans a b c hab hbc := by
    refine Bool.eq_false_iff.2 fun hca => ?_
    by_cases heq : slot a = slot b
    · rw [heq] at hca
      exact Bool.eq_false_iff.1 hbc hca
    · have hlt : (slot a).precedes (slot b) = true :=
        Slot.precedes_total (Ne.symm heq) (Bool.eq_false_iff.1 hab)
      exact Bool.eq_false_iff.1 hbc (Slot.precedes_trans hca hlt)

/-- Sorted entries with different handles ascend. -/
theorem insertionSort_pairwise {β : Type} (slot : β → Slot) {l : List β}
    (h : (l.map slot).Nodup) : (l.insertionSort (NotAfter slot)).Pairwise fun a b =>
      (slot a).precedes (slot b) = true := by
  have hnodup : ((l.insertionSort (NotAfter slot)).map slot).Nodup :=
    (((List.perm_insertionSort _ l).map slot).nodup_iff).2 h
  rw [List.Nodup, List.pairwise_map] at hnodup
  exact (List.pairwise_insertionSort (NotAfter slot) l).imp₂
    (fun a b hab hne => Slot.precedes_total (Ne.symm hne) (Bool.eq_false_iff.1 hab)) hnodup

namespace Spec

/-! ### The rows of the other side -/

/-- The constraints in the order of the renamed handles. -/
def relisted (ρ : Equiv.Perm Slot) (s : Spec α) : List (ConstraintId × Constraint α) :=
  s.constraintList.insertionSort (NotAfter fun p => (p.1.rename ρ).slot)

theorem relisted_participants_perm (ρ : Equiv.Perm Slot) (s : Spec α) :
    (((s.relisted ρ).map (·.2)).filter (!·.isSuspended)).Perm s.participants :=
  ((List.perm_insertionSort _ s.constraintList).map (·.2)).filter _

/-- The problem of constraints that come in some order. -/
def problemOver [Scalar α] (columns : List VariableId) (cs : List (Constraint α)) : Problem α where
  variableCount := columns.length
  hard := (cs.filter (!·.isObjectiveTerm)).map fun c =>
    ⟨columns.map c.coefficientOf, c.relation, c.right⟩
  soft := (cs.filter (·.isObjectiveTerm)).map fun c =>
    ⟨columns.map c.coefficientOf, c.right, weightFor c.penaltyAbove c.penaltyBelow⟩

/-- The problem with its rows in the order of the renamed handles. -/
def relistedProblem [Scalar α] (ρ : Equiv.Perm Slot) (s : Spec α) : Problem α :=
  problemOver s.columns (((s.relisted ρ).map (·.2)).filter (!·.isSuspended))

theorem problem_eq [Scalar α] (s : Spec α) : s.problem = problemOver s.columns s.participants :=
  rfl

/-- The rows do not depend on the handles. -/
theorem problemOver_rename [Scalar α] (ρ : Equiv.Perm Slot) (columns : List VariableId)
    (cs : List (Constraint α)) :
    problemOver columns (cs.map (·.rename ρ)) = problemOver columns cs := by
  unfold problemOver
  congr 1
  · rw [List.filter_map, List.map_map]
    rfl
  · rw [List.filter_map, List.map_map]
    rfl

/-- The renaming keeps the order of the live constraints. -/
def InOrder (ρ : Equiv.Perm Slot) (s : Spec α) : Prop :=
  (s.constraintList.map fun p => (p.1.rename ρ).slot).Pairwise fun a b => a.precedes b = true

instance (ρ : Equiv.Perm Slot) (s : Spec α) : Decidable (s.InOrder ρ) :=
  inferInstanceAs (Decidable (List.Pairwise _ _))

theorem relisted_of_inOrder {ρ : Equiv.Perm Slot} {s : Spec α} (h : s.InOrder ρ) :
    s.relisted ρ = s.constraintList := by
  unfold InOrder at h
  rw [List.pairwise_map] at h
  exact List.Pairwise.insertionSort_eq (h.imp notAfter_of_precedes)

variable {ρ : Equiv.Perm Slot} {s t : Spec α}

namespace Mirrors

theorem constraintList_eq (h : Mirrors ρ s t) (ht : t.Addressable) :
    t.constraintList = (s.relisted ρ).map fun p => (p.1.rename ρ, p.2.rename ρ) := by
  have hs := h.addressable ht
  have hnodup : (s.constraintList.map fun p => (p.1.rename ρ).slot).Nodup := by
    have hslots : (fun p : ConstraintId × Constraint α => (p.1.rename ρ).slot)
        = ρ ∘ ConstraintId.slot ∘ Prod.fst := rfl
    rw [hslots, ← List.map_map, ← List.map_map]
    exact ((constraintList_nodup hs).map fun _ _ => ConstraintId.slot_inj.1).map ρ.injective
  refine eq_of_pairwise_precedes (fun p => p.1.slot) (constraintList_pairwise ht) ?_ fun p => ?_
  · rw [List.pairwise_map]
    exact insertionSort_pairwise _ hnodup
  · obtain ⟨k, c⟩ := p
    obtain ⟨j, rfl⟩ := k.exists_rename ρ
    unfold relisted
    rw [mem_constraintList ht, List.mem_map,
      show t.registry.constraint? (j.rename ρ) = (s.getConstraint? j).map (·.rename ρ) from
        h.constraint j]
    constructor
    · intro hmap
      obtain ⟨d, hd, rfl⟩ := Option.map_eq_some_iff.1 hmap
      exact ⟨(j, d), List.mem_insertionSort _ |>.2 ((mem_constraintList hs).2 hd), rfl⟩
    · rintro ⟨⟨i, d⟩, hmem, heq⟩
      obtain ⟨hi, rfl⟩ := Prod.mk.inj heq
      obtain rfl := ConstraintId.rename_inj.1 hi
      have hd : s.getConstraint? i = some d :=
        (mem_constraintList hs).1 (List.mem_insertionSort _ |>.1 hmem)
      rw [hd, Option.map_some]

theorem participants_eq (h : Mirrors ρ s t) (ht : t.Addressable) :
    t.participants
      = (((s.relisted ρ).map (·.2)).filter (!·.isSuspended)).map (·.rename ρ) := by
  unfold participants
  rw [h.constraintList_eq ht, List.map_map, List.filter_map, List.filter_map, List.map_map]
  rfl

/-- **The columns are the same.** -/
theorem columns_eq (h : Mirrors ρ s t) (ht : t.Addressable) : t.columns = s.columns := by
  refine eq_of_pairwise_precedes VariableId.slot t.columns_pairwise s.columns_pairwise
    fun id => ?_
  have hmem : ∀ c, c ∈ ((s.relisted ρ).map (·.2)).filter (!·.isSuspended)
      ↔ c ∈ s.participants := fun c => (s.relisted_participants_perm ρ).mem_iff
  rw [mem_columns, mem_columns, h.participants_eq ht]
  constructor
  · rintro ⟨_, hmap, term, hterm, hid⟩
    obtain ⟨c, hc, rfl⟩ := List.mem_map.1 hmap
    exact ⟨c, (hmem c).1 hc, term, hterm, hid⟩
  · rintro ⟨c, hc, term, hterm, hid⟩
    exact ⟨c.rename ρ, List.mem_map_of_mem ((hmem c).2 hc), term, hterm, hid⟩

variable [Scalar α]

/-- **The problem is the same, with its rows in the order of the other handles.** -/
theorem problem_eq (h : Mirrors ρ s t) (ht : t.Addressable) :
    t.problem = s.relistedProblem ρ := by
  rw [Spec.problem_eq, h.columns_eq ht, h.participants_eq ht, problemOver_rename]
  rfl

end Mirrors

theorem relistedProblem_of_inOrder [Scalar α] (h : s.InOrder ρ) :
    s.relistedProblem ρ = s.problem := by
  unfold relistedProblem
  rw [relisted_of_inOrder h]
  rfl

/-- No row is lost, and none is new. -/
theorem relistedProblem_perm [Scalar α] (ρ : Equiv.Perm Slot) (s : Spec α) :
    (s.relistedProblem ρ).hard.Perm s.problem.hard ∧
      (s.relistedProblem ρ).soft.Perm s.problem.soft := by
  have hperm := s.relisted_participants_perm ρ
  exact ⟨(hperm.filter _).map _, (hperm.filter _).map _⟩

/-! ### The same outcome -/

/-- The values that a list gives to a variable; the last entry counts. -/
def assigned (values : List (VariableId × α)) (id : VariableId) (value : α) : α :=
  values.foldl (fun old entry => if entry.1 = id then entry.2 else old) value

theorem value?_assign (values : List (VariableId × α)) (s : Spec α) (id : VariableId) :
    (s.assign values).value? id = (s.value? id).map (assigned values id) := by
  induction values generalizing s with
  | nil => exact Option.map_id'.symm
  | cons entry values ih =>
    have hfirst : (s.modifyVariable entry.1 fun v => { v with value := entry.2 }).value? id
        = (s.value? id).map fun old => if entry.1 = id then entry.2 else old := by
      unfold value?
      rw [getVariable?_modifyVariable]
      by_cases hid : id = entry.1
      · rw [if_pos hid, hid]
        simp [Function.comp_def]
      · simp [hid, Ne.symm hid, Function.comp_def]
    refine (ih _).trans ?_
    rw [hfirst, Option.map_map]
    rfl

/-- A variable that is listed gets its value from the list alone. -/
theorem assigned_eq_of_mem {values : List (VariableId × α)} {id : VariableId}
    (h : id ∈ values.map Prod.fst) (a b : α) : assigned values id a = assigned values id b := by
  induction values generalizing a b with
  | nil => exact absurd h List.not_mem_nil
  | cons entry values ih =>
    unfold assigned
    rw [List.foldl_cons, List.foldl_cons]
    by_cases hid : entry.1 = id
    · rw [if_pos hid, if_pos hid]
    · rw [if_neg hid, if_neg hid]
      refine ih ?_ a b
      rw [List.map_cons, List.mem_cons] at h
      exact h.resolve_left (Ne.symm hid)

variable [Scalar α]

/-- The outcome of the problem, as a list of values. -/
def solution (s : Spec α) : Except SolveError (List α) := s.outcome.map fun x => x.toList

theorem solution_of_outcome {s : Spec α} {x : s.problem.Point} (hx : s.outcome = .ok x) :
    s.solution = .ok x.toList := by
  unfold solution
  rw [hx]
  rfl

theorem length_of_solution {s : Spec α} {values : List α} (h : s.solution = .ok values) :
    values.length = s.columns.length := by
  unfold solution at h
  cases hx : s.outcome with
  | error e =>
    rw [hx] at h
    exact absurd h (by simp [Except.map])
  | ok x =>
    rw [hx] at h
    rw [← Except.ok.inj h, Vector.length_toList]
    rfl

theorem result_solve (s : Spec α) : s.solve.result = match s.solution with
    | .ok _ => .optimal
    | .error e => e.resultCode := by
  unfold solve solution
  cases s.outcome <;> rfl

theorem value?_solve {s : Spec α} {values : List α} (h : s.solution = .ok values)
    (id : VariableId) :
    s.solve.value? id = (s.value? id).map (assigned (s.columns.zip values) id) := by
  unfold solution at h
  unfold solve
  cases hx : s.outcome with
  | error e =>
    rw [hx] at h
    exact absurd h (by simp [Except.map])
  | ok x =>
    rw [hx] at h
    rw [← Except.ok.inj h]
    exact s.value?_assign _ id

/-- What both sides agree on after a solve: the code, and the values of the columns if there is an
optimum. -/
structure SolveAgrees (s t : Spec α) : Prop where
  problem : t.problem = s.problem
  result : t.solve.result = s.solve.result
  value : s.solve.result = .optimal → ∀ id ∈ s.columns, t.solve.value? id = s.solve.value? id

/-- **The same problem has the same outcome.** -/
theorem Mirrors.solve_agrees (h : Mirrors ρ s t) (ht : t.Addressable) (horder : s.InOrder ρ) :
    SolveAgrees s t := by
  have hproblem : t.problem = s.problem :=
    (h.problem_eq ht).trans (relistedProblem_of_inOrder horder)
  have hsolution : t.solution = s.solution := by
    have hof : ∀ u : Spec α, u.solution
        = (fun (p : Problem α) (n : Nat) => (p.solve n).map fun x => x.toList) u.problem
          u.options.maxIterations := fun _ => rfl
    rw [hof t, hof s, hproblem, h.options]
  have hresult : t.solve.result = s.solve.result := by
    rw [result_solve, result_solve, hsolution]
  refine ⟨hproblem, hresult, fun hoptimal id hid => ?_⟩
  cases hs : s.solution with
  | error e =>
    rw [result_solve, hs] at hoptimal
    cases e <;> exact absurd hoptimal (by simp [SolveError.resultCode])
  | ok values =>
    have hlisted : id ∈ (s.columns.zip values).map Prod.fst := by
      rwa [List.map_fst_zip (length_of_solution hs).ge]
    rw [value?_solve hs, value?_solve (hsolution.trans hs), h.columns_eq ht]
    unfold value?
    cases hv : s.getVariable? id with
    | none => rw [h.getVariable?_eq_none hv]
    | some v =>
      obtain ⟨w, hw, -⟩ := h.getVariable?_eq_some hv
      rw [hw]
      exact congrArg some (assigned_eq_of_mem hlisted _ _)

end Spec

end ElasticLayout
