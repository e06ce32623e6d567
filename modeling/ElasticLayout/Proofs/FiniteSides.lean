import ElasticLayout.Proofs.Columns
import ElasticLayout.Proofs.Ranges

/-!
# Finite right sides and penalties

Every call that takes a right side or a penalty checks that it is finite.  A right side can also be
an end of a range, and ranges may be infinite: an end that is moved outwards to infinity is not
enforced and does no harm, but one that is moved inwards to infinity becomes the right side of its
bound constraint.  This is the only way in which a right side fails to be finite.

* `FiniteScalar` -- what this needs of the tests for exceptional numbers;
* `Variable.finiteEnds` -- no end of a range is narrowed to infinity;
* `Variable.EnforcedBy` -- the end of a range that a bound constraint stands for;
* `Spec.Reachable.isPenalty_of_live`, `Spec.Reachable.right_cases` -- penalties and right sides of
  live constraints, whoever made them;
* `Spec.Reachable.finite_sides` -- the main result;
* `Spec.right_side_may_be_infinite` -- a range that gives an infinite right side.
-/

namespace ElasticLayout

/-- What finite right sides need of the tests for exceptional numbers. -/
class FiniteScalar (α : Type) [Scalar α] : Prop extends RangeOrder α where
  /-- Zero would pass the check of a penalty. -/
  isPenalty_zero : Spec.isPenalty (0 : α) = true
  /-- What is finite is a number. -/
  isNaN_of_isFinite : ∀ {a : α}, Scalar.isFinite a = true → Scalar.isNaN a = false

theorem DoubleOrder.isNaN_of_isFinite {a : Float} (h : a.isFinite = true) : a.isNaN = false := by
  show a.toModel.unpack.isNaN = false
  have hfinite : a.toModel.unpack.isFinite = true := h
  cases hunpacked : a.toModel.unpack with
  | notANumber =>
    rw [hunpacked] at hfinite
    exact absurd hfinite Bool.false_ne_true
  | infinity sign => rfl
  | zero sign => rfl
  | finite sign mantissa exponent hpos => rfl

instance : FiniteScalar Float where
  isPenalty_zero := by decide
  isNaN_of_isFinite := DoubleOrder.isNaN_of_isFinite

instance : FiniteScalar ℝ where
  isPenalty_zero := Spec.isPenalty_iff.2 le_rfl
  isNaN_of_isFinite := fun _ => rfl

variable {α : Type} [Scalar α]

theorem isFinite_zero [FiniteScalar α] : Scalar.isFinite (0 : α) = true := by
  have h := FiniteScalar.isPenalty_zero (α := α)
  unfold Spec.isPenalty at h
  exact (Bool.and_eq_true_iff.1 h).1

namespace Variable

/-- No end of the range is narrowed to infinity. -/
def finiteEnds (v : Variable α) : Bool :=
  (!decide (defaultLower < v.lower) || Scalar.isFinite v.lower) &&
    (!decide (v.upper < defaultUpper) || Scalar.isFinite v.upper)

/-- A constraint with some right side is the bound constraint of a narrowed end. -/
def EnforcedBy (v : Variable α) (k : ConstraintId) (right : α) : Prop :=
  (v.lowerBound = some k ∧ defaultLower < v.lower ∧ right = v.lower) ∨
    (v.upperBound = some k ∧ v.upper < defaultUpper ∧ right = v.upper)

theorem finiteEnds_iff {v : Variable α} : v.finiteEnds = true ↔
    (defaultLower < v.lower → Scalar.isFinite v.lower = true) ∧
      (v.upper < defaultUpper → Scalar.isFinite v.upper = true) := by
  simp [finiteEnds, imp_iff_not_or]

theorem EnforcedBy.isFinite {v : Variable α} {k : ConstraintId} {right : α}
    (h : v.EnforcedBy k right) (hv : v.finiteEnds = true) : Scalar.isFinite right = true := by
  obtain ⟨hlower, hupper⟩ := finiteEnds_iff.1 hv
  obtain ⟨-, hnarrow, rfl⟩ | ⟨-, hnarrow, rfl⟩ := h
  · exact hlower hnarrow
  · exact hupper hnarrow

end Variable

namespace Spec

variable [FiniteScalar α] {s : Spec α}

/-! ### Live constraints by who made them -/

/-- A bound constraint stands for a narrowed end of the range of its variable. -/
theorem Reachable.enforcedBy (h : s.Reachable) {k : ConstraintId} {c : Constraint α}
    {id : VariableId} (hk : s.getConstraint? k = some c) (hrole : c.role = .bound id) :
    ∃ v, s.getVariable? id = some v ∧ v.EnforcedBy k c.right := by
  have howned := h.tidy_owned.2
  obtain ⟨x, hx, hmem⟩ := howned.bound k c id hk hrole
  obtain ⟨v, hv, rfl⟩ := getVariable?_of_extent? hx
  have hkept := howned.range id _ hx
  refine ⟨v, hv, hmem.imp (fun hlower => ?_) fun hupper => ?_⟩
  · obtain ⟨d, hd, hbound⟩ := hkept.lower.2 k hlower
    obtain rfl := Option.some.inj (hk.symm.trans hd)
    exact ⟨hlower, hkept.lower.1.1 (by rw [hlower]; rfl), hbound.right⟩
  · obtain ⟨d, hd, hbound⟩ := hkept.upper.2 k hupper
    obtain rfl := Option.some.inj (hk.symm.trans hd)
    exact ⟨hupper, hkept.upper.1.1 (by rw [hupper]; rfl), hbound.right⟩

/-- The penalties of a live constraint are proper, whoever made it. -/
theorem Reachable.isPenalty_of_live (h : s.Reachable) {k : ConstraintId} {c : Constraint α}
    (hk : s.getConstraint? k = some c) :
    Spec.isPenalty c.penaltyAbove = true ∧ Spec.isPenalty c.penaltyBelow = true := by
  have howned := h.tidy_owned.2
  cases hrole : c.role with
  | user => exact h.isPenalty hk hrole
  | bound id =>
    obtain ⟨relation, limit, hbound⟩ := howned.isBound_of_role hk hrole
    rw [hbound.penaltyAbove, hbound.penaltyBelow]
    exact ⟨FiniteScalar.isPenalty_zero, FiniteScalar.isPenalty_zero⟩
  | slackPenalty j =>
    -- The penalties are copied from the constraint of the caller that owns the slack.
    obtain ⟨d, e, hd, -, -, howns, hpenalty⟩ := howned.isPenaltyOf_of_role hk hrole
    rw [hpenalty.penaltyAbove, hpenalty.penaltyBelow]
    exact h.isPenalty hd howns.role

/-- The right side of a live constraint is finite, or the end of a range. -/
theorem Reachable.right_cases (h : s.Reachable) {k : ConstraintId} {c : Constraint α}
    (hk : s.getConstraint? k = some c) :
    Scalar.isFinite c.right = true ∨
      ∃ id v, c.role = .bound id ∧ s.getVariable? id = some v ∧ v.EnforcedBy k c.right := by
  cases hrole : c.role with
  | user => exact .inl (h.isFinite_right hk hrole)
  | bound id =>
    obtain ⟨v, hv, henforced⟩ := h.enforcedBy hk hrole
    exact .inr ⟨id, v, rfl, hv, henforced⟩
  | slackPenalty j =>
    obtain ⟨d, e, -, -, -, -, hpenalty⟩ := h.tidy_owned.2.isPenaltyOf_of_role hk hrole
    rw [hpenalty.right]
    exact .inl isFinite_zero

/-- The right side of a live constraint is a number. -/
theorem Reachable.isNaN_right (h : s.Reachable) {k : ConstraintId} {c : Constraint α}
    (hk : s.getConstraint? k = some c) : Scalar.isNaN c.right = false := by
  obtain hfinite | ⟨id, v, -, hv, ⟨-, -, hright⟩ | ⟨-, -, hright⟩⟩ := h.right_cases hk
  · exact FiniteScalar.isNaN_of_isFinite hfinite
  · rw [hright]
    exact (h.rangeEnforced hv).isNaN_lower
  · rw [hright]
    exact (h.rangeEnforced hv).isNaN_upper

/-- The range of a slack is finite. -/
theorem Reachable.finiteEnds_of_isSlack (h : s.Reachable) {id : VariableId} {v : Variable α}
    (hv : s.getVariable? id = some v) (hslack : v.isSlack = true) : v.finiteEnds = true := by
  have howned := h.tidy_owned.2
  obtain ⟨k, c, e, hk, he, rfl⟩ := howned.slack_owner id _ (registry_extent?_eq_some hv) hslack
  obtain ⟨x, hx, -, hlower, hupper⟩ := (howned.owns k c e hk he).slack
  obtain rfl := Option.some.inj ((registry_extent?_eq_some hv).symm.trans hx)
  rw [show v.extent.lower = v.lower from rfl] at hlower
  rw [show v.extent.upper = v.upper from rfl] at hupper
  refine Variable.finiteEnds_iff.2 ⟨fun _ => hlower ▸ isFinite_zero, fun hnarrow => ?_⟩
  rw [hupper] at hnarrow
  exact absurd hnarrow RangeScalar.defaultUpper_not_lt

/-- All right sides are finite exactly if no range is narrowed to infinity. -/
theorem Reachable.isFinite_right_iff (h : s.Reachable) :
    (∀ k c, s.getConstraint? k = some c → Scalar.isFinite c.right = true) ↔
      ∀ id v, s.getVariable? id = some v → v.finiteEnds = true := by
  constructor
  · intro hall id v hv
    have henforced := h.rangeEnforced hv
    refine Variable.finiteEnds_iff.2 ⟨fun hnarrow => ?_, fun hnarrow => ?_⟩
    · obtain ⟨k, hbound⟩ := henforced.lowerEnd.exists_iff.2 hnarrow
      obtain ⟨c, hc, -, -, -, hright, -⟩ := henforced.lowerEnd.constraint k hbound
      exact hright ▸ hall k c hc
    · obtain ⟨k, hbound⟩ := henforced.upperEnd.exists_iff.2 hnarrow
      obtain ⟨c, hc, -, -, -, hright, -⟩ := henforced.upperEnd.constraint k hbound
      exact hright ▸ hall k c hc
  · intro hall k c hk
    obtain hfinite | ⟨id, v, -, hv, henforced⟩ := h.right_cases hk
    · exact hfinite
    · exact henforced.isFinite (hall id v hv)

/-! ### Rows -/

omit [FiniteScalar α] in
theorem exists_live_of_mem_hard (h : s.registry.Owned none) (hs : s.Addressable) {row : HardRow α}
    (hrow : row ∈ s.problem.hard) : ∃ k c, s.getConstraint? k = some c ∧ row.rhs = c.right := by
  obtain ⟨c, hc, rfl⟩ := List.mem_map.1 hrow
  obtain ⟨k, hk⟩ := (mem_participants h hs).1 (List.mem_filter.1 hc).1
  exact ⟨k, c, hk, rfl⟩

omit [FiniteScalar α] in
theorem exists_live_of_mem_soft (h : s.registry.Owned none) (hs : s.Addressable) {row : SoftRow α}
    (hrow : row ∈ s.problem.soft) :
    ∃ k c, s.getConstraint? k = some c ∧ c.isObjectiveTerm = true ∧ row.rhs = c.right := by
  obtain ⟨c, hc, rfl⟩ := List.mem_map.1 hrow
  obtain ⟨hmem, hterm⟩ := List.mem_filter.1 hc
  obtain ⟨k, hk⟩ := (mem_participants h hs).1 hmem
  exact ⟨k, c, hk, hterm, rfl⟩

/-- The target of a soft row is finite: bound constraints are never soft. -/
theorem Reachable.isFinite_of_mem_soft (h : s.Reachable) {row : SoftRow α}
    (hrow : row ∈ s.problem.soft) : Scalar.isFinite row.rhs = true := by
  obtain ⟨k, c, hk, hterm, hrhs⟩ := exists_live_of_mem_soft h.tidy_owned.2 h.1 hrow
  rw [hrhs]
  obtain hfinite | ⟨id, -, hrole, -, -⟩ := h.right_cases hk
  · exact hfinite
  · obtain ⟨relation, limit, hbound⟩ := h.tidy_owned.2.isBound_of_role hk hrole
    have hsoft := (Constraint.isObjectiveTerm_iff.1 hterm).1
    rw [hbound.isSoft] at hsoft
    exact absurd hsoft Bool.false_ne_true

/-! ### Main result -/

/-- **Right sides and penalties are finite**, after every history of calls, but for ends of ranges
that are narrowed to infinity.  The penalties of every live constraint are finite and not negative,
and its right side is a number; it is finite, unless the constraint is the bound constraint of an
end of the range of a variable of the caller that is narrowed to infinity.  So all right sides are
finite exactly if no range is narrowed to infinity, and then the right sides of all rows of the
problem are; those of the soft rows are finite in any case, and those of the hard rows are numbers.
-/
theorem Reachable.finite_sides (h : s.Reachable) :
    (∀ k c, s.getConstraint? k = some c →
      Spec.isPenalty c.penaltyAbove = true ∧ Spec.isPenalty c.penaltyBelow = true ∧
      Scalar.isNaN c.right = false ∧
      (Scalar.isFinite c.right = false → ∃ id v, c.role = .bound id ∧
        s.getVariable? id = some v ∧ v.isSlack = false ∧ v.EnforcedBy k c.right)) ∧
    ((∀ k c, s.getConstraint? k = some c → Scalar.isFinite c.right = true) ↔
      ∀ id v, s.getVariable? id = some v → v.finiteEnds = true) ∧
    ((∀ id v, s.getVariable? id = some v → v.finiteEnds = true) →
      ∀ row ∈ s.problem.hard, Scalar.isFinite row.rhs = true) ∧
    (∀ row ∈ s.problem.hard, Scalar.isNaN row.rhs = false) ∧
    (∀ row ∈ s.problem.soft, Scalar.isFinite row.rhs = true) := by
  refine ⟨fun k c hk => ?_, h.isFinite_right_iff, fun hends row hrow => ?_, fun row hrow => ?_,
    fun row hrow => h.isFinite_of_mem_soft hrow⟩
  · refine ⟨(h.isPenalty_of_live hk).1, (h.isPenalty_of_live hk).2, h.isNaN_right hk, fun hne => ?_⟩
    obtain hfinite | ⟨id, v, hrole, hv, henforced⟩ := h.right_cases hk
    · exact absurd (hne.symm.trans hfinite) Bool.false_ne_true
    · refine ⟨id, v, hrole, hv, Bool.eq_false_iff.2 fun hslack => ?_, henforced⟩
      have hfinite := henforced.isFinite (h.finiteEnds_of_isSlack hv hslack)
      exact Bool.false_ne_true (hne.symm.trans hfinite)
  · obtain ⟨k, c, hk, hrhs⟩ := exists_live_of_mem_hard h.tidy_owned.2 h.1 hrow
    exact hrhs ▸ h.isFinite_right_iff.2 hends k c hk
  · obtain ⟨k, c, hk, hrhs⟩ := exists_live_of_mem_hard h.tidy_owned.2 h.1 hrow
    exact hrhs ▸ h.isNaN_right hk

/-- A variable between five and infinity, and a soft `x <= 100`: the infinite end is not narrowed,
and all right sides are finite. -/
theorem finite_sides_of_half_line :
    let s : Spec Float := ({ options := .default } : Spec Float).run [.addVariable none,
      .setRange ⟨⟨0, 0⟩⟩ 5 (1 / 0), .addConstraint [1] [⟨⟨0, 0⟩⟩] .le 100 4 0]
    s.Reachable ∧ (∀ k c, s.getConstraint? k = some c → Scalar.isFinite c.right = true) ∧
      ∀ row ∈ s.problem.hard, Scalar.isFinite row.rhs = true := by
  intro s
  have hs : s.Reachable := reachable_run _ (by decide)
  obtain ⟨-, hiff, hrows, -, -⟩ := Reachable.finite_sides hs
  have hall : (s.variableList.all fun p => p.2.finiteEnds) = true := by decide
  have hends : ∀ id v, s.getVariable? id = some v → v.finiteEnds = true := fun id v hv =>
    List.all_eq_true.1 hall (id, v) ((mem_variableList hs.1).2 hv)
  exact ⟨hs, hiff.2 hends, hrows hends⟩

/-- The check of a range lets infinity pass as a lower end, and it becomes the right side of a bound
constraint. -/
theorem right_side_may_be_infinite :
    ¬∀ s : Spec Float, s.Reachable → ∀ k c, s.getConstraint? k = some c →
      Scalar.isFinite c.right = true := by
  intro hall
  have hright : (({ options := .default } : Spec Float).run [.addVariable none,
      .setRange ⟨⟨0, 0⟩⟩ (1 / 0) (1 / 0)]).getConstraint? ⟨⟨0, 0⟩⟩ |>.any
        (!Scalar.isFinite ·.right) := by decide
  obtain ⟨c, hc, hinfinite⟩ := (Option.any_eq_true _ _).1 hright
  rw [hall _ (reachable_run _ (by decide)) _ c hc] at hinfinite
  exact absurd hinfinite Bool.false_ne_true

end Spec

end ElasticLayout
