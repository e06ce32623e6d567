import ElasticLayout.Proofs.References
import ElasticLayout.Proofs.Relisting

/-!
# Rows and columns of a problem

The problem of a specification has one column for each variable that a participating constraint
mentions, and one row for each participating constraint, both in the order of the handles.  This
holds whichever constraints are suspended.

* `Spec.suspending` -- a specification with further constraints suspended;
* `IsRowOf` -- a row has the coefficients of a left side;
* `Spec.ListsParticipants` -- what a problem says about the constraints;
* `Spec.StoresPoint` -- a solve writes a point to the columns;
* `Spec.Reachable.problem_lists_participants` -- the main result.
-/

namespace ElasticLayout

open Linear

variable {α : Type}

/-! ### Coefficients -/

/-- A row has the coefficients of a left side, column by column, and zero for the other columns.
Adding to zero changes no number; it only makes a negative zero positive. -/
structure IsRowOf [Scalar α] (columns : List VariableId) (left : List (Summand α))
    (row : List α) : Prop where
  length : row.length = columns.length
  mentioned : ∀ (j : Nat) (id : VariableId), columns[j]? = some id → ∀ term ∈ left, term.var = id →
    row[j]? = some (0 + term.coefficient)
  unmentioned : ∀ (j : Nat) (id : VariableId), columns[j]? = some id →
    (∀ term ∈ left, term.var ≠ id) →
    row[j]? = some 0

namespace Constraint

variable [Scalar α] {c : Constraint α} {id : VariableId}

/-- Summands of other variables do not count. -/
theorem foldl_coefficient_of_forall_ne {terms : List (Summand α)}
    (h : ∀ term ∈ terms, term.var ≠ id) (sum : α) :
    terms.foldl (fun sum term => if term.var = id then sum + term.coefficient else sum) sum
      = sum := by
  induction terms with
  | nil => rfl
  | cons first rest ih =>
    rw [List.foldl_cons, if_neg (h first List.mem_cons_self)]
    exact ih fun term hterm => h term (List.mem_cons_of_mem _ hterm)

theorem coefficientOf_of_forall_ne (h : ∀ term ∈ c.left, term.var ≠ id) :
    c.coefficientOf id = 0 :=
  foldl_coefficient_of_forall_ne h 0

/-- A variable that is mentioned once has the coefficient of that mention. -/
theorem coefficientOf_of_mem (hnodup : (c.left.map (·.var)).Nodup) {term : Summand α}
    (hterm : term ∈ c.left) : c.coefficientOf term.var = 0 + term.coefficient := by
  suffices hfold : ∀ (terms : List (Summand α)) (sum : α), (terms.map (·.var)).Nodup →
      term ∈ terms → terms.foldl (fun sum other =>
        if other.var = term.var then sum + other.coefficient else sum) sum
        = sum + term.coefficient from
    hfold c.left 0 hnodup hterm
  intro terms
  induction terms with
  | nil => exact fun _ _ hmem => absurd hmem List.not_mem_nil
  | cons first rest ih =>
    intro sum hnodup hmem
    rw [List.map_cons, List.nodup_cons] at hnodup
    rw [List.foldl_cons]
    rcases List.mem_cons.1 hmem with rfl | hrest
    · rw [if_pos rfl]
      exact foldl_coefficient_of_forall_ne
        (fun other hother heq => hnodup.1 (List.mem_map.2 ⟨other, hother, heq⟩)) _
    · have hne : first.var ≠ term.var := fun heq => hnodup.1 (heq ▸ List.mem_map_of_mem hrest)
      rw [if_neg hne]
      exact ih sum hnodup.2 hrest

/-- The row that a constraint makes has the coefficients of its left side. -/
theorem isRowOf_map_coefficientOf (columns : List VariableId)
    (hnodup : (c.left.map (·.var)).Nodup) :
    IsRowOf columns c.left (columns.map c.coefficientOf) where
  length := List.length_map _
  mentioned := by
    rintro j id hid term hterm rfl
    rw [List.getElem?_map, hid, Option.map_some, coefficientOf_of_mem hnodup hterm]
  unmentioned := by
    intro j id hid hne
    rw [List.getElem?_map, hid, Option.map_some, coefficientOf_of_forall_ne hne]

end Constraint

namespace Spec

/-! ### Suspended constraints -/

/-- The specification with further constraints suspended. -/
def suspending (s : Spec α) (ks : List ConstraintId) : Spec α :=
  ks.foldl (fun s k => s.modifyConstraint k fun c => { c with isSuspended := true }) s

theorem registry_suspending (s : Spec α) (ks : List ConstraintId) :
    (s.suspending ks).registry = s.registry.mark true ks :=
  registry_foldl_mark true ks s

theorem evolves_suspending (s : Spec α) (ks : List ConstraintId) :
    s.Evolves (s.suspending ks) 0 0 :=
  .foldl_zero (fun s _ => s.evolves_modifyConstraint _ _) ks s

theorem addressable_suspending {s : Spec α} (hs : s.Addressable) (ks : List ConstraintId) :
    (s.suspending ks).Addressable :=
  ⟨(s.evolves_suspending ks).le_variables.trans hs.1,
    (s.evolves_suspending ks).le_constraints.trans hs.2⟩

/-- Suspension leaves left sides alone. -/
theorem exists_of_suspending {s : Spec α} {ks : List ConstraintId} {k : ConstraintId}
    {c : Constraint α} (h : (s.suspending ks).getConstraint? k = some c) :
    ∃ d, s.getConstraint? k = some d ∧ c.left = d.left := by
  rw [← registry_constraint?, registry_suspending, Registry.constraint?_mark] at h
  split at h
  · obtain ⟨d, hd, rfl⟩ := Option.map_eq_some_iff.1 h
    exact ⟨d, hd, rfl⟩
  · exact ⟨c, h, rfl⟩

theorem variableStore_suspending (s : Spec α) (ks : List ConstraintId) :
    (s.suspending ks).variableStore = s.variableStore := by
  unfold suspending
  refine foldl_keeps variableStore (fun _ _ => ?_) ks s
  rfl

/-! ### Rows -/

/-- The live constraints that take part and pass a test, in the order of the handles. -/
def participantsWhere (s : Spec α) (test : Constraint α → Bool) :
    List (ConstraintId × Constraint α) :=
  (s.constraintList.filter (!·.2.isSuspended)).filter (test ·.2)

theorem participantsWhere_pairwise {s : Spec α} (hs : s.Addressable)
    (test : Constraint α → Bool) : (s.participantsWhere test).Pairwise fun a b =>
      a.1.slot.precedes b.1.slot = true := by
  unfold participantsWhere constraintList
  refine (List.Pairwise.filter _ ?_).filter _
  rw [List.pairwise_map]
  exact (SlotStore.toList_pairwise hs.2).imp fun {a b} hlt => Slot.precedes_iff.2 (.inl hlt)

theorem mem_participantsWhere {s : Spec α} (hs : s.Addressable) {test : Constraint α → Bool}
    {k : ConstraintId} {c : Constraint α} : (k, c) ∈ s.participantsWhere test ↔
      s.getConstraint? k = some c ∧ c.isSuspended = false ∧ test c = true := by
  unfold participantsWhere
  rw [List.mem_filter, List.mem_filter, mem_constraintList hs, registry_constraint?, and_assoc]
  simp

/-- The list has the handles besides the constraints. -/
theorem filter_participants (s : Spec α) (test : Constraint α → Bool) :
    s.participants.filter test = (s.participantsWhere test).map (·.2) := by
  unfold participantsWhere participants
  rw [List.filter_map, List.filter_map]
  rfl

/-- What is made of the participants that pass a test is made of the list, entry by entry. -/
theorem forall₂_participantsWhere {β : Type} (s : Spec α) (test : Constraint α → Bool)
    (f : Constraint α → β) {R : ConstraintId × Constraint α → β → Prop}
    (h : ∀ p ∈ s.participantsWhere test, R p (f p.2)) :
    List.Forall₂ R (s.participantsWhere test) ((s.participants.filter test).map f) := by
  rw [filter_participants, List.map_map, List.forall₂_map_right_iff, List.forall₂_same]
  exact h

variable [Scalar α]

/-- The participants that are no soft equalities. -/
def hardConstraints (s : Spec α) : List (ConstraintId × Constraint α) :=
  s.participantsWhere (!·.isObjectiveTerm)

/-- The participants that are soft equalities. -/
def softEqualities (s : Spec α) : List (ConstraintId × Constraint α) :=
  s.participantsWhere (·.isObjectiveTerm)

theorem isObjectiveTerm_iff_penalties {c : Constraint α} : c.isObjectiveTerm = true ↔
    c.relation = .eq ∧ (0 < c.penaltyAbove ∨ 0 < c.penaltyBelow) := by
  rw [Constraint.isObjectiveTerm_iff, and_comm]
  simp [Constraint.isSoft]

omit [Scalar α] in
/-- The columns are the variables that a live constraint mentions that is not suspended. -/
theorem mem_columns_iff_mentioned {s : Spec α} (hs : s.Addressable) {id : VariableId} :
    id ∈ s.columns ↔ ∃ k c, s.getConstraint? k = some c ∧ c.isSuspended = false ∧
      ∃ term ∈ c.left, term.var = id := by
  rw [Spec.mem_columns]
  unfold participants
  constructor
  · rintro ⟨c, hc, hmentions⟩
    obtain ⟨hc, hresumed⟩ := List.mem_filter.1 hc
    obtain ⟨⟨k, d⟩, hmem, rfl⟩ := List.mem_map.1 hc
    exact ⟨k, d, (mem_constraintList hs).1 hmem, by simpa using hresumed, hmentions⟩
  · rintro ⟨k, c, hc, hresumed, hmentions⟩
    have hmem : c ∈ s.constraintList.map (·.2) :=
      List.mem_map.2 ⟨(k, c), (mem_constraintList hs).2 hc, rfl⟩
    exact ⟨c, List.mem_filter.2 ⟨hmem, by simp [hresumed]⟩, hmentions⟩

/-- What the problem of a specification says about its constraints: there is a column for each
variable that a participating constraint mentions, a soft row for each soft equality among them, and
a hard row for each other one, all in the order of the handles. -/
structure ListsParticipants (s : Spec α) : Prop where
  columns_ascending : s.columns.Pairwise fun a b => a.slot.precedes b.slot = true
  mem_columns : ∀ id, id ∈ s.columns ↔ ∃ k c, s.getConstraint? k = some c ∧
    c.isSuspended = false ∧ ∃ term ∈ c.left, term.var = id
  variableCount : s.problem.variableCount = s.columns.length
  hard_ascending : s.hardConstraints.Pairwise fun a b => a.1.slot.precedes b.1.slot = true
  mem_hard : ∀ k c, (k, c) ∈ s.hardConstraints ↔ s.getConstraint? k = some c ∧
    c.isSuspended = false ∧ ¬(c.relation = .eq ∧ (0 < c.penaltyAbove ∨ 0 < c.penaltyBelow))
  hard : List.Forall₂ (fun kc row => row.relation = kc.2.relation ∧ row.rhs = kc.2.right ∧
    IsRowOf s.columns kc.2.left row.coefficients) s.hardConstraints s.problem.hard
  soft_ascending : s.softEqualities.Pairwise fun a b => a.1.slot.precedes b.1.slot = true
  mem_soft : ∀ k c, (k, c) ∈ s.softEqualities ↔ s.getConstraint? k = some c ∧
    c.isSuspended = false ∧ c.relation = .eq ∧ (0 < c.penaltyAbove ∨ 0 < c.penaltyBelow)
  soft : List.Forall₂ (fun kc row => row.rhs = kc.2.right ∧
    row.weight = weightFor kc.2.penaltyAbove kc.2.penaltyBelow ∧
    IsRowOf s.columns kc.2.left row.coefficients) s.softEqualities s.problem.soft

/-- **A problem lists the participants**, if left sides name each variable once. -/
theorem listsParticipants {s : Spec α} (hs : s.Addressable)
    (hnodup : ∀ k c, s.getConstraint? k = some c → (c.left.map (·.var)).Nodup) :
    s.ListsParticipants where
  columns_ascending := s.columns_pairwise
  mem_columns _ := mem_columns_iff_mentioned hs
  variableCount := rfl
  hard_ascending := participantsWhere_pairwise hs _
  mem_hard := by
    intro k c
    unfold hardConstraints
    rw [mem_participantsWhere hs, ← isObjectiveTerm_iff_penalties]
    simp
  hard := s.forall₂_participantsWhere _ _ fun p hp => ⟨rfl, rfl,
    Constraint.isRowOf_map_coefficientOf _ (hnodup p.1 p.2 ((mem_participantsWhere hs).1 hp).1)⟩
  soft_ascending := participantsWhere_pairwise hs _
  mem_soft := by
    intro k c
    unfold softEqualities
    rw [mem_participantsWhere hs, ← isObjectiveTerm_iff_penalties]
  soft := s.forall₂_participantsWhere _ _ fun p hp => ⟨rfl, rfl,
    Constraint.isRowOf_map_coefficientOf _ (hnodup p.1 p.2 ((mem_participantsWhere hs).1 hp).1)⟩

/-! ### What a solve stores -/

/-- A solve ends well, with the coordinates of a point as the values of the columns.  Other
variables keep their values. -/
structure StoresPoint (s : Spec α) (x : s.problem.Point) : Prop where
  result : s.solve.result = .optimal
  value : ∀ (j : Nat) (id : VariableId), s.columns[j]? = some id → s.solve.value? id = x.toList[j]?
  others : ∀ id, id ∉ s.columns → s.solve.value? id = s.value? id

omit [Scalar α] in
/-- A variable that is not listed keeps its value. -/
theorem assigned_of_not_mem {values : List (VariableId × α)} {id : VariableId}
    (h : id ∉ values.map Prod.fst) (a : α) : assigned values id a = a := by
  induction values with
  | nil => rfl
  | cons entry values ih =>
    rw [List.map_cons, List.mem_cons, not_or] at h
    unfold assigned
    rw [List.foldl_cons, if_neg (Ne.symm h.1)]
    exact ih h.2

omit [Scalar α] in
/-- A variable that is listed once gets the value at its place. -/
theorem assigned_zip {ids : List VariableId} (hids : ids.Nodup) {values : List α} {j : Nat}
    {id : VariableId} {value : α} (hid : ids[j]? = some id) (hvalue : values[j]? = some value)
    (a : α) : assigned (ids.zip values) id a = value := by
  induction ids generalizing values j a with
  | nil => exact absurd hid (by simp)
  | cons first ids ih =>
    rw [List.nodup_cons] at hids
    cases values with
    | nil => exact absurd hvalue (by simp)
    | cons v values =>
      rw [List.zip_cons_cons]
      unfold assigned
      rw [List.foldl_cons]
      cases j with
      | zero =>
        rw [List.getElem?_cons_zero, Option.some.injEq] at hid hvalue
        rw [if_pos hid, hvalue]
        refine assigned_of_not_mem (fun hmem => hids.1 ?_) value
        obtain ⟨p, hp, hpid⟩ := List.mem_map.1 hmem
        rw [hid, ← hpid]
        exact (List.of_mem_zip hp).1
      | succ j =>
        rw [List.getElem?_cons_succ] at hid hvalue
        exact ih hids.2 hid hvalue _

/-- **A successful solve stores its point.** -/
theorem storesPoint {s : Spec α} (hlive : ∀ id ∈ s.columns, (s.getVariable? id).isSome = true)
    {x : s.problem.Point} (hx : s.outcome = .ok x) : s.StoresPoint x := by
  have hsolution := solution_of_outcome hx
  have hlength : x.toList.length = s.columns.length := length_of_solution hsolution
  refine ⟨by rw [result_solve, hsolution], fun j id hid => ?_, fun id hid => ?_⟩
  · obtain ⟨v, hv⟩ := Option.isSome_iff_exists.1 (hlive id (List.mem_of_getElem? hid))
    obtain ⟨hj, -⟩ := List.getElem?_eq_some_iff.1 hid
    have hvalue := List.getElem?_eq_getElem (hlength ▸ hj : j < x.toList.length)
    rw [value?_solve hsolution, hvalue]
    unfold value?
    rw [hv, Option.map_some, Option.map_some, assigned_zip s.columns_nodup hid hvalue]
  · rw [value?_solve hsolution]
    cases hv : s.value? id with
    | none => rfl
    | some value =>
      rw [Option.map_some, assigned_of_not_mem]
      rw [List.map_fst_zip hlength.ge]
      exact hid

/-! ### Exact values -/

omit [Scalar α] in
theorem mem_participants_of_mem_participantsWhere {s : Spec α} {test : Constraint α → Bool}
    {p : ConstraintId × Constraint α} (h : p ∈ s.participantsWhere test) :
    p.2 ∈ s.participants := by
  obtain ⟨hmem, hresumed⟩ := List.mem_filter.1 (List.mem_filter.1 h).1
  exact List.mem_filter.2 ⟨List.mem_map_of_mem hmem, hresumed⟩

/-- In exact arithmetic every row has, at a point, the value of the left side of its constraint
under any assignment that gives the columns the coordinates of the point. -/
structure EvaluatesParticipants (s : Spec ℝ) (x : s.problem.Point) (y : VariableId → ℝ) : Prop where
  hard : List.Forall₂ (fun kc row => row.value x.toList = evaluate kc.2.left y)
    s.hardConstraints s.problem.hard
  soft : List.Forall₂ (fun kc row => dot row.coefficients x.toList = evaluate kc.2.left y)
    s.softEqualities s.problem.soft

theorem evaluatesParticipants {s : Spec ℝ} {x : s.problem.Point} {y : VariableId → ℝ}
    (h : ∀ (j : Nat) (id : VariableId), s.columns[j]? = some id → x.toList[j]? = some (y id)) :
    s.EvaluatesParticipants x y := by
  have hx : s.pointOf y = x := by
    rw [← Vector.toList_inj, toList_pointOf]
    refine List.ext_getElem? fun j => ?_
    rw [List.getElem?_map]
    cases hid : s.columns[j]? with
    | none =>
      have hlength : x.toList.length = s.columns.length := Vector.length_toList
      rw [List.getElem?_eq_none_iff] at hid
      exact (List.getElem?_eq_none (hlength.trans_le hid)).symm
    | some id => exact (h j id hid).symm
  rw [← hx]
  exact {
    hard := s.forall₂_participantsWhere _ _ fun p hp =>
      dot_pointOf (mem_participants_of_mem_participantsWhere hp) y
    soft := s.forall₂_participantsWhere _ _ fun p hp =>
      dot_pointOf (mem_participants_of_mem_participantsWhere hp) y }

/-- **A problem lists the participants**, after every history of calls and with any further
constraints suspended, and a successful solve stores its point under the columns; in exact
arithmetic the rows have the values of the left sides under that assignment. -/
theorem problem_lists_participants :
    (∀ {α : Type} [Scalar α] [RangeScalar α] {s : Spec α}, s.Reachable →
      ∀ ks : List ConstraintId, (s.suspending ks).ListsParticipants ∧
        ∀ x, (s.suspending ks).outcome = .ok x → (s.suspending ks).StoresPoint x) ∧
    (∀ {s : Spec ℝ}, s.Reachable → ∀ (ks : List ConstraintId)
      (x : (s.suspending ks).problem.Point) (y : VariableId → ℝ),
      (∀ (j : Nat) (id : VariableId), (s.suspending ks).columns[j]? = some id →
        x.toList[j]? = some (y id)) → (s.suspending ks).EvaluatesParticipants x y) := by
  refine ⟨fun {α} _ _ {s} hs ks => ?_, fun {s} _ ks x y h => evaluatesParticipants h⟩
  obtain ⟨htidy, howned⟩ := hs.tidy_owned
  have hroom := addressable_suspending hs.1 ks
  have hlists : (s.suspending ks).ListsParticipants := by
    refine listsParticipants hroom fun k c hc => ?_
    obtain ⟨d, hd, hleft⟩ := exists_of_suspending hc
    rw [hleft]
    exact left_nodup howned hs.merged hd
  refine ⟨hlists, fun x hx => storesPoint (fun id hid => ?_) hx⟩
  obtain ⟨k, c, hc, -, term, hterm, rfl⟩ := (hlists.mem_columns id).1 hid
  obtain ⟨d, hd, hleft⟩ := exists_of_suspending hc
  unfold getVariable?
  rw [variableStore_suspending]
  exact isSome_of_mentioned howned hd (hleft ▸ hterm)

/-- Two variables, a hard equality, a soft inequality that is suspended with all it owns, and a soft
equality.  The optimum `3`, `2` is stored; and the rows have the values of the left sides where all
variables are seven. -/
theorem problem_lists_participants_of_suspended_soft_le :
    (let s : Spec Float := ({ options := .default } : Spec Float).run [.addVariable none,
        .addVariable none, .addConstraint [1] [⟨⟨0, 0⟩⟩] .eq 3 0 0,
        .addConstraint [2] [⟨⟨1, 0⟩⟩] .le 100 4 0,
        .addConstraint [1, 1] [⟨⟨0, 0⟩⟩, ⟨⟨1, 0⟩⟩] .eq 5 1 1]
      let t := s.suspending [⟨⟨1, 0⟩⟩, ⟨⟨2, 0⟩⟩, ⟨⟨3, 0⟩⟩]
      s.Reachable ∧ t.ListsParticipants ∧ t.columns = [⟨⟨0, 0⟩⟩, ⟨⟨1, 0⟩⟩] ∧
        ∃ x, t.outcome = .ok x ∧ (x.toList == [3, 2]) = true ∧ t.StoresPoint x) ∧
    (let s : Spec ℝ := ({ options := .default } : Spec ℝ).run [.addVariable none,
        .addVariable none, .addConstraint [1] [⟨⟨0, 0⟩⟩] .eq 3 0 0,
        .addConstraint [2] [⟨⟨1, 0⟩⟩] .le 100 4 0,
        .addConstraint [1, 1] [⟨⟨0, 0⟩⟩, ⟨⟨1, 0⟩⟩] .eq 5 1 1]
      let t := s.suspending [⟨⟨1, 0⟩⟩, ⟨⟨2, 0⟩⟩, ⟨⟨3, 0⟩⟩]
      s.Reachable ∧ t.EvaluatesParticipants (t.pointOf fun _ => 7) fun _ => 7) := by
  constructor
  · intro s t
    have hs : s.Reachable := reachable_run _ (by decide +kernel)
    obtain ⟨hlists, hstores⟩ := problem_lists_participants.1 hs [⟨⟨1, 0⟩⟩, ⟨⟨2, 0⟩⟩, ⟨⟨3, 0⟩⟩]
    have hsolved : ∃ x, t.outcome.toOption = some x ∧ (x.toList == [3, 2]) = true :=
      (Option.any_eq_true _ _).1 (by decide +kernel)
    obtain ⟨x, hx, hvalues⟩ := hsolved
    have hok : t.outcome = .ok x := by
      cases hresult : t.outcome with
      | error e =>
        rw [hresult] at hx
        exact absurd hx (by simp [Except.toOption])
      | ok z =>
        rw [hresult] at hx
        exact congrArg Except.ok (Option.some.inj hx)
    exact ⟨hs, hlists, by decide +kernel, x, hok, hvalues, hstores x hok⟩
  · intro s t
    have hs : s.Reachable := reachable_run _ (by decide)
    refine ⟨hs, problem_lists_participants.2 hs _ _ _ fun j id hid => ?_⟩
    rw [toList_pointOf, List.getElem?_map]
    exact congrArg (Option.map _) hid

end Spec

end ElasticLayout
