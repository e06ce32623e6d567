import ElasticLayout.Proofs.Monotonicity
import ElasticLayout.Proofs.PlainHistory
import ElasticLayout.Proofs.ProblemRows

/-!
# What a soft constraint is charged

A soft constraint has a penalty for each direction.  Its soft row, or that of the penalty of its
slack, has one weight: the sum of both penalties, halved if both are positive.  So the charge at an
assignment is that of the weight and the violation, and the penalty of the other direction is part
of it, wherever the constraint is violated.

* `SoftRow.charge`, `Spec.softRow?` -- what a soft row costs, and the row of a constraint;
* `Spec.charge` -- what the soft rows charge for a constraint of the caller;
* `Spec.charge_eq` -- the weight and the violation make up the charge;
* `Spec.penalty_slackPoint_eq_sum_charge` -- the charges add up to the penalty;
* `SameWeight`, `weightFor_eq_iff` -- when the penalty of the other direction does not matter;
* `Spec.Reachable.charge_of_penalties` -- the main result;
* `Spec.charge_not_directional` -- a constraint that is charged for both directions.
-/

namespace ElasticLayout

open Linear

attribute [local instance] atLeastTwo_two

/-! ### Rows -/

/-- What a soft row adds to the penalty at a point. -/
noncomputable def SoftRow.charge (row : SoftRow ℝ) (x : List ℝ) : ℝ :=
  1 / 2 * (row.weight * (dot row.coefficients x - row.rhs)) ^ 2

/-- The handle of the constraint whose soft row stands for a constraint: that of the penalty of its
slack, or its own. -/
def Constraint.rowHandle {α : Type} (c : Constraint α) (k : ConstraintId) : ConstraintId :=
  match c.elastic with
  | some e => e.penalty
  | none => k

theorem Constraint.rowHandle_of_elastic {α : Type} {c : Constraint α} {e : Elastic α}
    (h : c.elastic = some e) (k : ConstraintId) : c.rowHandle k = e.penalty := by
  unfold rowHandle
  rw [h]

theorem Constraint.rowHandle_of_rigid {α : Type} {c : Constraint α} (h : c.elastic = none)
    (k : ConstraintId) : c.rowHandle k = k := by
  unfold rowHandle
  rw [h]

/-- In a list of distinct handles, an entry is found under its handle. -/
theorem lookup_eq_some_of_mem {β : Type} {list : List (ConstraintId × β)}
    (hnodup : (list.map (·.1)).Nodup) {k : ConstraintId} {b : β} (h : (k, b) ∈ list) :
    list.lookup k = some b := by
  induction list with
  | nil => exact absurd h List.not_mem_nil
  | cons p rest ih =>
    rw [List.map_cons, List.nodup_cons] at hnodup
    rw [List.lookup_cons]
    obtain rfl | hrest := List.mem_cons.1 h
    · rw [beq_self_eq_true]
    · have hne : (k == p.1) = false :=
        beq_false_of_ne fun heq => hnodup.1 (heq ▸ List.mem_map_of_mem hrest)
      rw [hne]
      exact ih hnodup.2 hrest

namespace Spec

/-- The soft row of the constraint behind a handle; soft rows are in the order of the handles. -/
def softRow? {α : Type} [Scalar α] (s : Spec α) (k : ConstraintId) : Option (SoftRow α) :=
  ((s.softEqualities.map (·.1)).zip s.problem.soft).lookup k

/-- What the soft rows charge for the constraint of the caller behind a handle, where every slack
makes up for the violation of its constraint. -/
noncomputable def charge (s : Spec ℝ) (k : ConstraintId) (a : VariableId → ℝ) : ℝ :=
  (((s.getConstraint? k).bind fun c => s.softRow? (c.rowHandle k)).map
    fun row => row.charge (s.slackPoint a).toList).getD 0

/-- The soft rows with their handles. -/
theorem zip_soft {α : Type} [Scalar α] (s : Spec α) :
    (s.softEqualities.map (·.1)).zip s.problem.soft = s.softEqualities.map fun p =>
      (p.1, ⟨s.columns.map p.2.coefficientOf, p.2.right,
        weightFor p.2.penaltyAbove p.2.penaltyBelow⟩) := by
  have hsoft : s.problem.soft = s.softEqualities.map fun p =>
      ⟨s.columns.map p.2.coefficientOf, p.2.right,
        weightFor p.2.penaltyAbove p.2.penaltyBelow⟩ := by
    show (s.participants.filter (·.isObjectiveTerm)).map _ = _
    rw [filter_participants, List.map_map]
    rfl
  rw [hsoft, List.zip_map']

variable {s : Spec ℝ}

/-- A soft equality, the penalty of a slack included, is charged what it costs. -/
theorem charge_of_mem_softEqualities (hs : s.Addressable) {k : ConstraintId} {d : Constraint ℝ}
    (hd : (k, d) ∈ s.softEqualities) (a : VariableId → ℝ) :
    ((s.softRow? k).map fun row => row.charge (s.slackPoint a).toList)
      = some (1 / 2 * termCost (s.withSlacks a) d) := by
  have hrow : s.softRow? k = some ⟨s.columns.map d.coefficientOf, d.right,
      weightFor d.penaltyAbove d.penaltyBelow⟩ := by
    unfold softRow?
    rw [zip_soft]
    refine lookup_eq_some_of_mem ?_ (List.mem_map_of_mem hd)
    rw [List.map_map]
    exact (constraintList_nodup hs).sublist
      ((List.filter_sublist.trans List.filter_sublist).map _)
  rw [hrow, Option.map_some, Option.some.injEq]
  unfold SoftRow.charge slackPoint
  rw [dot_pointOf (mem_participants_of_mem_participantsWhere hd)]
  rfl

/-- Who makes a soft row: the live soft equalities. -/
theorem mem_softEqualities_iff (h : s.registry.Owned none) (hs : s.Addressable) {k : ConstraintId}
    {d : Constraint ℝ} :
    (k, d) ∈ s.softEqualities ↔ s.getConstraint? k = some d ∧ d.isObjectiveTerm = true := by
  unfold softEqualities
  rw [mem_participantsWhere hs]
  exact ⟨fun hmem => ⟨hmem.1, hmem.2.2⟩, fun hlive => ⟨hlive.1, h.resumed k d hlive.1, hlive.2⟩⟩

theorem softRow?_of_not_isObjectiveTerm (h : s.registry.Owned none) (hs : s.Addressable)
    {k : ConstraintId} {c : Constraint ℝ} (hc : s.getConstraint? k = some c)
    (hterm : c.isObjectiveTerm = false) : s.softRow? k = none := by
  unfold softRow?
  rw [zip_soft, List.lookup_eq_none_iff]
  intro p hp
  obtain ⟨⟨j, d⟩, hd, rfl⟩ := List.mem_map.1 hp
  obtain ⟨hj, hsoft⟩ := (mem_softEqualities_iff h hs).1 hd
  rw [bne_iff_ne]
  rintro rfl
  obtain rfl := Option.some.inj (hc.symm.trans hj)
  exact Bool.false_ne_true (hterm.symm.trans hsoft)

theorem withSlacks_agrees (h : s.registry.Owned none) (hs : s.Addressable) (a : VariableId → ℝ) :
    ∀ id v, s.getVariable? id = some v → v.isSlack = false → a id = s.withSlacks a id :=
  fun _ _ hv hslack => (withSlacks_of_not_isSlack h hs a hv hslack).symm

/-- An elastic constraint is charged by the row of the penalty of its slack, and its slack is the
violation. -/
theorem charge_of_elastic (h : s.registry.Owned none) (hs : s.Addressable) {k : ConstraintId}
    {c : Constraint ℝ} {e : Elastic ℝ} (hc : s.getConstraint? k = some c)
    (he : c.elastic = some e) (a : VariableId → ℝ) :
    s.charge k a = 1 / 2 * (c.weight * c.violation a) ^ 2 := by
  have howns := h.owns k c e hc he
  obtain ⟨q, hq, hpenalty⟩ := howns.penalty
  have hsoft := (Constraint.isSoftInequality_iff.1 howns.isSoftInequality).1
  have hmem : (e.penalty, q) ∈ s.softEqualities := (mem_softEqualities_iff h hs).2
    ⟨hq, Constraint.isObjectiveTerm_iff.2 ⟨hpenalty.isSoft.trans hsoft, hpenalty.relation⟩⟩
  unfold charge
  rw [hc, Option.bind_some, Constraint.rowHandle_of_elastic he,
    charge_of_mem_softEqualities hs hmem, Option.getD_some]
  unfold termCost
  rw [hpenalty.left, hpenalty.right, hpenalty.penaltyAbove, hpenalty.penaltyBelow, evaluate_cons,
    evaluate_nil, add_zero, one_mul, sub_zero, withSlacks_slack h hs a hc he]
  rfl

/-- A soft equality is charged by its own row. -/
theorem charge_of_isObjectiveTerm (h : s.registry.Owned none) (hs : s.Addressable)
    {k : ConstraintId} {c : Constraint ℝ} (hc : s.getConstraint? k = some c)
    (hrole : c.role = .user) (hrigid : c.elastic = none) (hterm : c.isObjectiveTerm = true)
    (a : VariableId → ℝ) :
    s.charge k a = 1 / 2 * (c.weight * c.violation a) ^ 2 := by
  unfold charge
  rw [hc, Option.bind_some, Constraint.rowHandle_of_rigid hrigid,
    charge_of_mem_softEqualities hs ((mem_softEqualities_iff h hs).2 ⟨hc, hterm⟩), Option.getD_some]
  unfold termCost
  rw [evaluate_left h hc (isSoftInequality_of_isObjectiveTerm hterm), mul_pow, mul_pow,
    violation_eq_of_agree h hc hrole (withSlacks_agrees h hs a),
    c.violation_sq_of_eq (Constraint.isObjectiveTerm_iff.1 hterm).2]
  rfl

/-- A rigid constraint that makes no soft row is hard. -/
theorem isSoft_of_rigid (h : s.registry.Owned none) {k : ConstraintId} {c : Constraint ℝ}
    (hc : s.getConstraint? k = some c) (hrigid : c.elastic = none)
    (hterm : c.isObjectiveTerm = false) : c.isSoft = false := by
  have hinequality : ¬c.isSoftInequality = true := fun hinequality => by
    rw [← elastic_isSome_iff h hc, hrigid] at hinequality
    exact Bool.false_ne_true hinequality
  rw [Constraint.isSoftInequality_iff] at hinequality
  rw [← Bool.not_eq_true, Constraint.isObjectiveTerm_iff] at hterm
  rw [← Bool.not_eq_true]
  exact fun hsoft => hinequality ⟨hsoft, fun hrelation => hterm ⟨hsoft, hrelation⟩⟩

/-- **The charge of a constraint**: its weight and its violation make it up.  A hard constraint has
no weight. -/
theorem charge_eq (h : s.registry.Owned none) (hs : s.Addressable) {k : ConstraintId}
    {c : Constraint ℝ} (hc : s.getConstraint? k = some c) (hrole : c.role = .user)
    (a : VariableId → ℝ) : s.charge k a = 1 / 2 * (c.weight * c.violation a) ^ 2 := by
  cases helastic : c.elastic with
  | some e => exact charge_of_elastic h hs hc helastic a
  | none =>
    cases hterm : c.isObjectiveTerm with
    | true => exact charge_of_isObjectiveTerm h hs hc hrole helastic hterm a
    | false =>
      have hhard := isSoft_of_rigid h hc helastic hterm
      unfold charge
      rw [hc, Option.bind_some, Constraint.rowHandle_of_rigid helastic,
        softRow?_of_not_isObjectiveTerm h hs hc hterm, c.weight_eq_zero hhard]
      norm_num

/-- **The charges add up to the penalty** of the problem, where every slack makes up for the
violation of its constraint. -/
theorem penalty_slackPoint_eq_sum_charge (h : s.registry.Owned none) (hs : s.Addressable)
    (a : VariableId → ℝ) : s.problem.penalty (s.slackPoint a)
      = ((s.constraintList.filter (·.2.role == .user)).map fun p => s.charge p.1 a).sum := by
  rw [penalty_slackPoint h hs, userPenalty_eq_sum_userConstraints, ← List.sum_map_mul_left]
  unfold userConstraints
  rw [List.filter_map, List.map_map]
  congr 1
  refine List.map_congr_left fun p hp => ?_
  obtain ⟨hmem, hrole⟩ := List.mem_filter.1 hp
  rw [charge_eq h hs ((mem_constraintList hs).1 hmem) (by simpa using hrole), mul_pow]
  rfl

end Spec

/-! ### Weights -/

/-- With one penalty on its side, a constraint weighs the same with either penalty on the other
side: they are equal, or one of them is zero and the other as large as the first penalty. -/
def SameWeight (side other other' : ℝ) : Prop :=
  other' = other ∨ (other = 0 ∧ other' = side) ∨ (other = side ∧ other' = 0)

theorem weightFor_eq_iff {side other other' : ℝ} (hside : 0 ≤ side) (hother : 0 ≤ other)
    (hother' : 0 ≤ other') (hsoft : 0 < side ∨ 0 < other) (hsoft' : 0 < side ∨ 0 < other') :
    weightFor side other' = weightFor side other ↔ SameWeight side other other' := by
  unfold SameWeight
  obtain rfl | hside := hside.eq_or_lt
  · have hother : 0 < other := hsoft.resolve_left (lt_irrefl 0)
    have hother' : 0 < other' := hsoft'.resolve_left (lt_irrefl 0)
    rw [weightFor_comm, weightFor_zero hother'.le, weightFor_comm, weightFor_zero hother.le]
    simp [hother.ne', hother'.ne']
  · obtain rfl | hother := hother.eq_or_lt <;> obtain rfl | hother' := hother'.eq_or_lt
    · simp
    · rw [weightFor_zero hside.le, weightFor_of_pos hside hother']
      constructor
      · intro h
        exact .inr (.inl ⟨rfl, by linarith⟩)
      · rintro (h | ⟨-, rfl⟩ | ⟨h, -⟩)
        · exact absurd h hother'.ne'
        · ring
        · exact absurd h hside.ne
    · rw [weightFor_zero hside.le, weightFor_of_pos hside hother]
      constructor
      · intro h
        exact .inr (.inr ⟨by linarith, rfl⟩)
      · rintro (h | ⟨h, -⟩ | ⟨rfl, -⟩)
        · exact absurd h hother.ne
        · exact absurd h hother.ne'
        · ring
    · rw [weightFor_of_pos hside hother, weightFor_of_pos hside hother']
      simp only [hother.ne', hother'.ne', false_and, and_false, or_false]
      constructor
      · intro h
        linarith
      · rintro rfl
        rfl

/-! ### Sides -/

namespace Constraint

variable {c : Constraint ℝ} {a : VariableId → ℝ}

/-- Above its right side, a constraint is violated unless it is a lower limit. -/
theorem violation_eq_zero_iff_of_above (h : c.right < c.userValue a) :
    c.violation a = 0 ↔ c.relation = .ge := by
  unfold violation
  cases hrelation : c.relation with
  | le => simp [h]
  | ge => simp [h.le]
  | eq => simp [sub_eq_zero, h.ne']

/-- Below its right side, a constraint is violated unless it is an upper limit. -/
theorem violation_eq_zero_iff_of_below (h : c.userValue a < c.right) :
    c.violation a = 0 ↔ c.relation = .le := by
  unfold violation
  cases hrelation : c.relation with
  | le => simp [h.le]
  | ge => simp [h]
  | eq => simp [sub_eq_zero, h.ne]

end Constraint

namespace Spec

variable {s : Spec ℝ}

/-- Two weights charge the same if they are the same, or if there is nothing to charge. -/
theorem charge_same_iff {w w' v : ℝ} (hw : 0 ≤ w) (hw' : 0 ≤ w') (hv : 0 ≤ v) :
    1 / 2 * (w' * v) ^ 2 = 1 / 2 * (w * v) ^ 2 ↔ v = 0 ∨ w' = w := by
  have hhalf : (1 / 2 : ℝ) ≠ 0 := by norm_num
  rw [mul_right_inj' hhalf, pow_left_inj₀ (mul_nonneg hw' hv) (mul_nonneg hw hv) two_ne_zero,
    mul_eq_mul_right_iff, or_comm]

/-- **Other penalties**: the constraint is charged for the same violation at the new weight. -/
theorem charge_of_setPenalties (htidy : s.Tidy) (h : s.registry.Owned none) {t : Spec ℝ}
    {k : ConstraintId} {c : Constraint ℝ} (hc : s.getConstraint? k = some c)
    (hrole : c.role = .user) {above below : ℝ} (ht : s.setPenalties k above below = .ok t)
    (hroom : t.Addressable) (a : VariableId → ℝ) :
    t.charge k a = 1 / 2 * (weightFor above below * c.violation a) ^ 2 := by
  obtain rfl := setPenalties_ok ht
  have hchange := s.isUserChange_penalties above below
  have hid : s.isUserConstraint k = true := (s.isUserConstraint_iff k).2 ⟨c, hc, hrole⟩
  have howned := owned_mutate htidy h hid hchange hroom
  -- The caller sees the constraint with its new penalties.
  have hview := view_mutate htidy h hc hrole hchange hroom
  obtain ⟨d, hd, hrole', hshown⟩ := Registry.exists_of_view_constraint?
    ((view_constraint?_of_update hview k).trans (if_pos rfl))
  have hweight : d.weight = weightFor above below := by
    rw [← Constraint.weight_shown, hshown]
    rfl
  have hviolation : d.violation a = c.violation a := by
    rw [← Constraint.violation_shown, hshown]
    rfl
  rw [charge_eq howned hroom hd hrole', hweight, hviolation]

theorem nonneg_of_setPenalties {t : Spec ℝ} {k : ConstraintId} {above below : ℝ}
    (h : s.setPenalties k above below = .ok t) : 0 ≤ above ∧ 0 ≤ below := by
  obtain ⟨⟨-, habove, hbelow⟩, -⟩ := setPenalties_eq_ok_iff.1 h
  exact ⟨isPenalty_iff.1 habove, isPenalty_iff.1 hbelow⟩

section Sides

variable {t : Spec ℝ} {k : ConstraintId} {c : Constraint ℝ} {a : VariableId → ℝ} {p : ℝ}

theorem Reachable.penalties_nonneg (hs : s.Reachable) (hc : s.getConstraint? k = some c)
    (hrole : c.role = .user) : 0 ≤ c.penaltyAbove ∧ 0 ≤ c.penaltyBelow :=
  ⟨isPenalty_iff.1 (hs.isPenalty hc hrole).1, isPenalty_iff.1 (hs.isPenalty hc hrole).2⟩

/-- Other penalties leave the charge as it is exactly if the constraint is not violated, or the
weight stays the same. -/
theorem Reachable.charge_setPenalties_iff (hs : s.Reachable) (hc : s.getConstraint? k = some c)
    (hrole : c.role = .user) {above below : ℝ} (ht : s.setPenalties k above below = .ok t)
    (hroom : t.Addressable) : t.charge k a = s.charge k a ↔
      c.violation a = 0 ∨ weightFor above below = weightFor c.penaltyAbove c.penaltyBelow := by
  obtain ⟨htidy, h⟩ := hs.tidy_owned
  rw [charge_of_setPenalties htidy h hc hrole ht hroom, charge_eq h hs.1 hc hrole]
  exact charge_same_iff weightFor_nonneg weightFor_nonneg (c.violation_nonneg a)

/-- Above the right side, another penalty for values below it. -/
theorem Reachable.charge_same_iff_above (hs : s.Reachable) (hc : s.getConstraint? k = some c)
    (hrole : c.role = .user) (hsoft : c.isSoft = true) (hside : c.right < c.userValue a)
    (ht : s.setPenalties k c.penaltyAbove p = .ok t) (hroom : t.Addressable)
    (hsoft' : 0 < c.penaltyAbove ∨ 0 < p) : t.charge k a = s.charge k a ↔
      c.relation = .ge ∨ SameWeight c.penaltyAbove c.penaltyBelow p := by
  obtain ⟨habove, hbelow⟩ := hs.penalties_nonneg hc hrole
  have hpositive := weightFor_pos_iff.1 (Constraint.weight_pos_iff.2 hsoft)
  rw [hs.charge_setPenalties_iff hc hrole ht hroom, Constraint.violation_eq_zero_iff_of_above hside,
    weightFor_eq_iff habove hbelow (nonneg_of_setPenalties ht).2 hpositive hsoft']

/-- Below the right side, another penalty for values above it. -/
theorem Reachable.charge_same_iff_below (hs : s.Reachable) (hc : s.getConstraint? k = some c)
    (hrole : c.role = .user) (hsoft : c.isSoft = true) (hside : c.userValue a < c.right)
    (ht : s.setPenalties k p c.penaltyBelow = .ok t) (hroom : t.Addressable)
    (hsoft' : 0 < p ∨ 0 < c.penaltyBelow) : t.charge k a = s.charge k a ↔
      c.relation = .le ∨ SameWeight c.penaltyBelow c.penaltyAbove p := by
  obtain ⟨habove, hbelow⟩ := hs.penalties_nonneg hc hrole
  have hpositive := weightFor_pos_iff.1 (Constraint.weight_pos_iff.2 hsoft)
  rw [hs.charge_setPenalties_iff hc hrole ht hroom, Constraint.violation_eq_zero_iff_of_below hside,
    weightFor_comm p, weightFor_comm c.penaltyAbove,
    weightFor_eq_iff hbelow habove (nonneg_of_setPenalties ht).1 hpositive.symm hsoft'.symm]

end Sides

/-! ### Main result -/

/-- **One weight for both directions.**  Whatever values the variables have, the soft rows charge a
soft constraint for its violation at the weight of its two penalties.  Where its left side is above
its right side, another penalty for the other direction leaves the charge as it is exactly if the
constraint is a lower limit, which is not violated there, or the weight stays the same; and so below
the right side. -/
theorem Reachable.charge_of_penalties (hs : s.Reachable) {k : ConstraintId} {c : Constraint ℝ}
    (hc : s.getConstraint? k = some c) (hrole : c.role = .user) (hsoft : c.isSoft = true)
    (a : VariableId → ℝ) :
    s.charge k a = 1 / 2 * (weightFor c.penaltyAbove c.penaltyBelow * c.violation a) ^ 2 ∧
    (c.right < c.userValue a → ∀ (p : ℝ) (t : Spec ℝ), s.setPenalties k c.penaltyAbove p = .ok t →
      t.Addressable → 0 < c.penaltyAbove ∨ 0 < p →
        (t.charge k a = s.charge k a ↔
          c.relation = .ge ∨ SameWeight c.penaltyAbove c.penaltyBelow p)) ∧
    (c.userValue a < c.right → ∀ (p : ℝ) (t : Spec ℝ), s.setPenalties k p c.penaltyBelow = .ok t →
      t.Addressable → 0 < p ∨ 0 < c.penaltyBelow →
        (t.charge k a = s.charge k a ↔
          c.relation = .le ∨ SameWeight c.penaltyBelow c.penaltyAbove p)) :=
  ⟨charge_eq hs.tidy_owned.2 hs.1 hc hrole a,
    fun hside _ _ ht hroom hsoft' =>
      hs.charge_same_iff_above hc hrole hsoft hside ht hroom hsoft',
    fun hside _ _ ht hroom hsoft' =>
      hs.charge_same_iff_below hc hrole hsoft hside ht hroom hsoft'⟩

/-! ### A limit with a penalty on one side -/

/-- The pulled variable beyond its limit, before and after the limit is given another penalty for
values below it. -/
theorem exists_pulled_above {below : ℝ} (h : 0 ≤ below) :
    ∃ (s t : Spec ℝ) (k : ConstraintId) (c : Constraint ℝ), s.Reachable ∧ t.Reachable ∧
      s.getConstraint? k = some c ∧ c.role = .user ∧ c.isSoft = true ∧ c.relation = .le ∧
      c.penaltyAbove = 4 ∧ c.penaltyBelow = 0 ∧ (c.right < c.userValue fun _ => 150) ∧
      s.setPenalties k c.penaltyAbove below = .ok t := by
  obtain ⟨limit, -, s, t, c, -, hs, ht, hc, hrole, hshown, hset, -, -⟩ :=
    exists_pulled (by norm_num : (0 : ℝ) ≤ 4) h
  have habove : c.penaltyAbove = 4 := congrArg Constraint.penaltyAbove hshown
  have hbelow : c.penaltyBelow = 0 := congrArg Constraint.penaltyBelow hshown
  have hright : c.right = 100 := congrArg Constraint.right hshown
  have hsoft : 0 < c.weight := weightFor_pos_iff.2 (.inl (by rw [habove]; norm_num))
  have hside : c.right < c.userValue fun _ => 150 := by
    rw [userValue_of_pulledLimit hshown, hright]
    norm_num
  exact ⟨s, t, limit, c, hs, ht, hc, hrole, Constraint.weight_pos_iff.1 hsoft,
    congrArg Constraint.relation hshown, habove, hbelow, hside, by rw [habove]; exact hset⟩

/-- A limit that is passed, with a penalty of 4 above and none below: a penalty of 4 below leaves
the charge as it is. -/
theorem charge_of_pulledLimit : ∃ (s t : Spec ℝ) (k : ConstraintId) (c : Constraint ℝ),
    s.Reachable ∧ s.getConstraint? k = some c ∧ c.role = .user ∧ c.isSoft = true ∧
      (c.right < c.userValue fun _ => 150) ∧ s.setPenalties k c.penaltyAbove 4 = .ok t ∧
      t.charge k (fun _ => 150) = s.charge k fun _ => 150 := by
  obtain ⟨s, t, k, c, hs, ht, hc, hrole, hsoft, -, habove, hbelow, hside, hset⟩ :=
    exists_pulled_above (by norm_num : (0 : ℝ) ≤ 4)
  obtain ⟨-, hiff, -⟩ := hs.charge_of_penalties hc hrole hsoft fun _ => 150
  have hsame : SameWeight c.penaltyAbove c.penaltyBelow 4 := .inr (.inl ⟨hbelow, habove.symm⟩)
  exact ⟨s, t, k, c, hs, hc, hrole, hsoft, hside, hset,
    (hiff hside 4 t hset ht.1 (.inr (by norm_num))).2 (.inr hsame)⟩

/-- **The penalty of the other direction may change the charge.**  A limit that is passed weighs 4
with a penalty of 4 above and none below, and 5/2 with a penalty of 1 below. -/
theorem charge_not_directional : ¬∀ (s t : Spec ℝ) (k : ConstraintId) (c : Constraint ℝ)
    (a : VariableId → ℝ) (p : ℝ), s.Reachable → s.getConstraint? k = some c → c.role = .user →
    c.isSoft = true → c.right < c.userValue a → s.setPenalties k c.penaltyAbove p = .ok t →
    t.Reachable → 0 < c.penaltyAbove ∨ 0 < p → t.charge k a = s.charge k a := by
  intro hdirectional
  obtain ⟨s, t, k, c, hs, ht, hc, hrole, hsoft, hrelation, habove, hbelow, hside, hset⟩ :=
    exists_pulled_above zero_le_one
  have hsoft' : 0 < c.penaltyAbove ∨ (0 : ℝ) < 1 := .inr one_pos
  have hsame := hdirectional s t k c (fun _ => 150) 1 hs hc hrole hsoft hside hset ht hsoft'
  rw [hs.charge_same_iff_above hc hrole hsoft hside hset ht.1 hsoft', hrelation, habove, hbelow]
    at hsame
  unfold SameWeight at hsame
  norm_num at hsame
  exact absurd hsame (by decide)

end Spec

end ElasticLayout
