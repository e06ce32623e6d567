import ElasticLayout.Proofs.UserPenalty

/-!
# What the slacks mean

The problem of a specification speaks about slacks; the caller does not.  In exact arithmetic the
problem says about the variables of the caller what the caller said: its hard rows can be met if
and only if the hard constraints and the narrowed ranges hold, and the least penalty is that of the
violations of the soft constraints.

* `Spec.Extends`, `Spec.slackPoint` -- points over values for the variables of the caller;
* `Spec.holds_pointOf_iff`, `Spec.penalty_pointOf_eq` -- what the problem says at a valuation;
* `Spec.Reachable.slack_meaning` -- the main result.
-/

namespace ElasticLayout

open Linear

attribute [local instance] atLeastTwo_two

namespace Spec

/-! ### Points over values -/

/-- The point gives the variables of the caller these values. -/
def Extends (s : Spec ℝ) (a : VariableId → ℝ) (x : s.problem.Point) : Prop :=
  ∀ id v, id ∈ s.columns → s.getVariable? id = some v → v.isSlack = false →
    s.valuation x id = a id

/-- The valuation in which every slack makes up for the violation of its constraint. -/
noncomputable def withSlacks (s : Spec ℝ) (a : VariableId → ℝ) (id : VariableId) : ℝ :=
  match (s.constraintList.map (·.2)).find? (fun c => c.elastic.any (·.slack == id)) with
  | some c => c.violation a
  | none => a id

/-- The point in which every slack makes up for the violation of its constraint. -/
noncomputable def slackPoint (s : Spec ℝ) (a : VariableId → ℝ) : s.problem.Point :=
  s.pointOf (s.withSlacks a)

/-! ### The hard rows -/

/-- An elastic constraint holds if its slack makes up for the violation. -/
theorem elastic_holds_iff {s : Spec ℝ} {k : ConstraintId} {c : Constraint ℝ} {e : Elastic ℝ}
    (h : s.registry.Owns k c e) {y : VariableId → ℝ} :
    c.relation.Holds (evaluate c.left y) c.right ∧ 0 ≤ y e.slack ↔ c.violation y ≤ y e.slack := by
  have hvalue : evaluate c.left y = c.userValue y + e.coefficient * y e.slack := by
    rw [h.left, evaluate_append, evaluate_cons, evaluate_nil, add_zero]
    rfl
  rw [hvalue]
  unfold Constraint.violation
  have ha := h.coefficient
  cases hrelation : c.relation with
  | le =>
    rw [hrelation] at ha
    rw [← Option.some.inj ha, max_le_iff]
    unfold Relation.Holds
    constructor
    · rintro ⟨hrow, hslack⟩
      exact ⟨hslack, by linarith⟩
    · rintro ⟨hslack, hrow⟩
      exact ⟨by linarith, hslack⟩
  | ge =>
    rw [hrelation] at ha
    rw [← Option.some.inj ha, max_le_iff]
    unfold Relation.Holds
    constructor
    · rintro ⟨hrow, hslack⟩
      exact ⟨hslack, by linarith⟩
    · rintro ⟨hslack, hrow⟩
      exact ⟨by linarith, hslack⟩
  | eq =>
    rw [hrelation] at ha
    exact absurd ha (by simp [Relation.slackCoefficient?])

/-- A bound constraint at a valuation. -/
theorem isBound_holds_iff {d : Constraint ℝ} {v : VariableId} {relation : Relation} {limit : ℝ}
    (h : d.IsBound v relation limit) {y : VariableId → ℝ} :
    d.relation.Holds (evaluate d.left y) d.right ↔ relation.Holds (y v) limit := by
  rw [h.relation, h.left, h.right, evaluate_cons, evaluate_nil, add_zero, one_mul]

/-- A constraint that is hard for the problem is no objective term. -/
theorem isObjectiveTerm_of_not_isSoft {c : Constraint ℝ} (h : c.isSoft = false) :
    c.isObjectiveTerm = false := by
  rw [← Bool.not_eq_true, Constraint.isObjectiveTerm_iff, h]
  simp

/-- A constraint without slack is a row as it is. -/
theorem evaluate_left {s : Spec ℝ} (h : s.registry.Owned none) {k : ConstraintId}
    {c : Constraint ℝ} (hc : s.registry.constraint? k = some c)
    (hrigid : c.isSoftInequality = false) : evaluate c.left = c.userValue := by
  have helastic : c.elastic = none := by
    rw [← Option.not_isSome_iff_eq_none, elastic_isSome_iff h hc, hrigid]
    simp
  unfold Constraint.userValue
  rw [Constraint.ownTerms_of_rigid helastic]

theorem isSoftInequality_of_not_isSoft {c : Constraint ℝ} (h : c.isSoft = false) :
    c.isSoftInequality = false := by
  rw [← Bool.not_eq_true, Constraint.isSoftInequality_iff, h]
  simp

/-- A constraint that is no objective term holds where the hard rows do. -/
theorem constraint_holds {s : Spec ℝ} (h : s.registry.Owned none) (haddressable : s.Addressable)
    {y : VariableId → ℝ} (hrows : s.problem.Holds (s.pointOf y)) {k : ConstraintId}
    {c : Constraint ℝ} (hc : s.registry.constraint? k = some c)
    (hterm : c.isObjectiveTerm = false) : c.relation.Holds (evaluate c.left y) c.right :=
  (holds_pointOf y).1 hrows c ((mem_participants h haddressable).2 ⟨k, hc⟩) hterm

theorem bound_holds {s : Spec ℝ} (h : s.registry.Owned none) (haddressable : s.Addressable)
    {y : VariableId → ℝ} (hrows : s.problem.Holds (s.pointOf y)) {k : ConstraintId}
    {d : Constraint ℝ} {v : VariableId} {relation : Relation} {limit : ℝ}
    (hd : s.registry.constraint? k = some d) (hbound : d.IsBound v relation limit) :
    relation.Holds (y v) limit :=
  (isBound_holds_iff hbound).1
    (constraint_holds h haddressable hrows hd (isObjectiveTerm_of_not_isSoft hbound.isSoft))

/-- Where the hard rows hold, what the caller said holds. -/
theorem userHolds_of_holds {s : Spec ℝ} (h : s.registry.Owned none) (haddressable : s.Addressable)
    {y : VariableId → ℝ} (hrows : s.problem.Holds (s.pointOf y)) : s.UserHolds y := by
  refine ⟨fun k c hc hrole hsoft => ?_, fun id v hv hslack hnarrow => ?_,
    fun id v hv hslack hnarrow => ?_⟩
  · rw [← evaluate_left h hc (isSoftInequality_of_not_isSoft hsoft)]
    exact constraint_holds h haddressable hrows hc (isObjectiveTerm_of_not_isSoft hsoft)
  · have hkept := (h.range id _ (registry_extent?_eq_some hv)).lower
    obtain ⟨k, hk⟩ := Option.isSome_iff_exists.1 (hkept.1.2 hnarrow)
    obtain ⟨d, hd, hbound⟩ := hkept.2 k hk
    exact bound_holds h haddressable hrows hd hbound
  · have hkept := (h.range id _ (registry_extent?_eq_some hv)).upper
    obtain ⟨k, hk⟩ := Option.isSome_iff_exists.1 (hkept.1.2 hnarrow)
    obtain ⟨d, hd, hbound⟩ := hkept.2 k hk
    exact bound_holds h haddressable hrows hd hbound

/-- Where the hard rows hold, every slack makes up for the violation of its constraint. -/
theorem violation_le_slack {s : Spec ℝ} (h : s.registry.Owned none) (haddressable : s.Addressable)
    {y : VariableId → ℝ} (hrows : s.problem.Holds (s.pointOf y)) {k : ConstraintId}
    {c : Constraint ℝ} {e : Elastic ℝ} (hc : s.registry.constraint? k = some c)
    (he : c.elastic = some e) : c.violation y ≤ y e.slack := by
  have howns := h.owns k c e hc he
  obtain ⟨x, hx, -, hlower, hupper⟩ := howns.slack
  obtain ⟨b, hb, -⟩ := (h.range e.slack x hx).slack_bounds hlower hupper
  obtain ⟨d, hd, hbound⟩ := (h.range e.slack x hx).lower.2 b hb
  have hnonneg : 0 ≤ y e.slack := by
    rw [← hlower]
    exact bound_holds h haddressable hrows hd hbound
  refine (elastic_holds_iff howns).1 ⟨constraint_holds h haddressable hrows hc ?_, hnonneg⟩
  rw [← Bool.not_eq_true, Constraint.isObjectiveTerm_iff]
  exact fun hterm => (Constraint.isSoftInequality_iff.1 howns.isSoftInequality).2 hterm.2

/-- A bound constraint holds if the narrowed ends do, and the slacks make up for violations. -/
theorem bound_holds_of_userHolds {s : Spec ℝ} (h : s.registry.Owned none) {y : VariableId → ℝ}
    (huser : s.UserHolds y) (hslacks : ∀ k c e, s.registry.constraint? k = some c →
      c.elastic = some e → c.violation y ≤ y e.slack) {k : ConstraintId} {c : Constraint ℝ}
    {v : VariableId} (hk : s.registry.constraint? k = some c) (hrole : c.role = .bound v) :
    c.relation.Holds (evaluate c.left y) c.right := by
  obtain ⟨x, hx, hmem⟩ := h.bound k c v hk hrole
  have hkept := h.range v x hx
  obtain ⟨w, hw, rfl⟩ := getVariable?_of_extent? hx
  cases hslack : w.isSlack with
  | true =>
    obtain ⟨k', c', e, hk', he, rfl⟩ := h.slack_owner v _ hx hslack
    obtain ⟨x', hx', -, hlower, hupper⟩ := (h.owns k' c' e hk' he).slack
    obtain rfl := Option.some.inj (hx.symm.trans hx')
    obtain ⟨b, hb, hnone⟩ := hkept.slack_bounds hlower hupper
    rcases hmem with hmem | hmem
    · obtain ⟨d, hd, hbound⟩ := hkept.lower.2 k hmem
      obtain rfl := Option.some.inj (hk.symm.trans hd)
      rw [isBound_holds_iff hbound, hlower]
      exact (c'.violation_nonneg y).trans (hslacks k' c' e hk' he)
    · exact absurd (hnone.symm.trans hmem) (by simp)
  | false =>
    rcases hmem with hmem | hmem
    · obtain ⟨d, hd, hbound⟩ := hkept.lower.2 k hmem
      obtain rfl := Option.some.inj (hk.symm.trans hd)
      rw [isBound_holds_iff hbound]
      refine huser.lower v w hw hslack (hkept.lower.1.1 ?_)
      rw [hmem]
      rfl
    · obtain ⟨d, hd, hbound⟩ := hkept.upper.2 k hmem
      obtain rfl := Option.some.inj (hk.symm.trans hd)
      rw [isBound_holds_iff hbound]
      refine huser.upper v w hw hslack (hkept.upper.1.1 ?_)
      rw [hmem]
      rfl

/-- **The hard rows at a valuation.**  They hold exactly if what the caller said holds, and every
slack makes up for the violation of its constraint. -/
theorem holds_pointOf_iff {s : Spec ℝ} (h : s.registry.Owned none) (haddressable : s.Addressable)
    {y : VariableId → ℝ} : s.problem.Holds (s.pointOf y) ↔ s.UserHolds y ∧
      ∀ k c e, s.registry.constraint? k = some c → c.elastic = some e →
        c.violation y ≤ y e.slack := by
  refine ⟨fun hrows => ⟨userHolds_of_holds h haddressable hrows, fun k c e hc he =>
    violation_le_slack h haddressable hrows hc he⟩, fun ⟨huser, hslacks⟩ => ?_⟩
  rw [holds_pointOf]
  intro c hc hterm
  obtain ⟨k, hk⟩ := (mem_participants h haddressable).1 hc
  cases hrole : c.role with
  | user =>
    cases hsoft : c.isSoft with
    | false =>
      rw [evaluate_left h hk (isSoftInequality_of_not_isSoft hsoft)]
      exact huser.constraints k c hk hrole hsoft
    | true =>
      have hinequality : c.isSoftInequality = true :=
        Constraint.isSoftInequality_iff.2 ⟨hsoft, fun hrelation =>
          absurd (hterm.symm.trans (Constraint.isObjectiveTerm_iff.2 ⟨hsoft, hrelation⟩))
            (by simp)⟩
      obtain ⟨e, he⟩ := Option.isSome_iff_exists.1 ((elastic_isSome_iff h hk).2 hinequality)
      exact ((elastic_holds_iff (h.owns k c e hk he)).2 (hslacks k c e hk he)).1
  | bound v => exact bound_holds_of_userHolds h huser hslacks hk hrole
  | slackPenalty k' =>
    obtain ⟨c', e, -, -, -, howns, hpenalty⟩ := h.isPenaltyOf_of_role hk hrole
    have hsoft := (Constraint.isSoftInequality_iff.1 howns.isSoftInequality).1
    have hterm' := Constraint.isObjectiveTerm_iff.2
      ⟨hpenalty.isSoft.trans hsoft, hpenalty.relation⟩
    exact absurd (hterm.symm.trans hterm') (by simp)

/-! ### The penalty -/

/-- The value of the slack that a constraint owns. -/
def slackOf (y : VariableId → ℝ) (c : Constraint ℝ) : ℝ :=
  match c.elastic with
  | some e => y e.slack
  | none => 0

/-- The penalty constraints are those that the soft inequalities own. -/
theorem penaltyHandles_perm {s : Spec ℝ} (h : s.registry.Owned none)
    (haddressable : s.Addressable) :
    ((s.constraintList.filter (·.2.isSoftInequality)).map fun p =>
      ((p.2.elastic.map Elastic.penalty).getD p.1)).Perm
    ((s.constraintList.filter fun p => p.2.isObjectiveTerm && !(p.2.role == .user)).map (·.1)) := by
  have hnodup := constraintList_nodup haddressable
  have hmem : ∀ {k c}, (k, c) ∈ s.constraintList ↔ s.registry.constraint? k = some c :=
    mem_constraintList haddressable
  -- The penalty handle of a soft inequality, and the role of what it leads to.
  have hpenalty : ∀ {k c}, s.registry.constraint? k = some c → c.isSoftInequality = true →
      ∃ q, s.registry.constraint? ((c.elastic.map Elastic.penalty).getD k) = some q ∧
        q.role = .slackPenalty k ∧ q.isObjectiveTerm = true := by
    intro k c hk hsoft
    obtain ⟨e, he⟩ := Option.isSome_iff_exists.1 ((elastic_isSome_iff h hk).2 hsoft)
    obtain ⟨q, hq, hq'⟩ := (h.owns k c e hk he).penalty
    rw [he]
    exact ⟨q, hq, hq'.role, Constraint.isObjectiveTerm_iff.2
      ⟨hq'.isSoft.trans (Constraint.isSoftInequality_iff.1 hsoft).1, hq'.relation⟩⟩
  refine (List.perm_ext_iff_of_nodup ?_ ?_).2 fun p => ?_
  · refine List.Nodup.map_on ?_ ((List.Nodup.of_map _ hnodup).filter _)
    rintro ⟨k, c⟩ hk ⟨k', c'⟩ hk' heq
    obtain ⟨hk, hsoft⟩ := List.mem_filter.1 hk
    obtain ⟨hk', hsoft'⟩ := List.mem_filter.1 hk'
    obtain ⟨q, hq, hrole, -⟩ := hpenalty (hmem.1 hk) hsoft
    obtain ⟨q', hq', hrole', -⟩ := hpenalty (hmem.1 hk') hsoft'
    obtain rfl := Option.some.inj (hq.symm.trans (heq ▸ hq'))
    obtain rfl := Role.slackPenalty.inj (hrole.symm.trans hrole')
    obtain rfl := Option.some.inj ((hmem.1 hk).symm.trans (hmem.1 hk'))
    rfl
  · exact hnodup.sublist (List.filter_sublist.map _)
  · simp only [List.mem_map, List.mem_filter, Prod.exists, hmem]
    constructor
    · rintro ⟨k, c, ⟨hk, hsoft⟩, rfl⟩
      obtain ⟨q, hq, hrole, hterm⟩ := hpenalty hk hsoft
      exact ⟨_, q, ⟨hq, by simp [hrole, hterm]⟩, rfl⟩
    · rintro ⟨p, q, ⟨hq, hterm⟩, rfl⟩
      obtain ⟨hterm, hrole⟩ : q.isObjectiveTerm = true ∧ q.role ≠ .user := by simpa using hterm
      cases hq' : q.role with
      | user => exact absurd hq' hrole
      | bound v =>
        obtain ⟨relation, limit, hbound⟩ := h.isBound_of_role hq hq'
        exact absurd hterm (by simp [isObjectiveTerm_of_not_isSoft hbound.isSoft])
      | slackPenalty k =>
        obtain ⟨c, e, hk, he, hp, howns, -⟩ := h.isPenaltyOf_of_role hq hq'
        exact ⟨k, c, ⟨hk, howns.isSoftInequality⟩, by rw [he]; exact hp⟩

/-- Summing over a part of the constraints and over the rest. -/
theorem sum_filter_add_sum_filter_not {β : Type*} (p : β → Bool) (f : β → ℝ) (xs : List β) :
    ((xs.filter p).map f).sum + ((xs.filter fun x => !p x).map f).sum = (xs.map f).sum := by
  rw [← List.sum_append, ← List.map_append]
  exact ((List.filter_append_perm p xs).map f).sum_eq

/-- What an objective term costs at a valuation, times two. -/
noncomputable def termCost (y : VariableId → ℝ) (c : Constraint ℝ) : ℝ :=
  (weightFor c.penaltyAbove c.penaltyBelow * (evaluate c.left y - c.right)) ^ 2

/-- The objective terms of the caller. -/
theorem sum_userTerms {s : Spec ℝ} (h : s.registry.Owned none) (haddressable : s.Addressable)
    (y : VariableId → ℝ) :
    ((s.constraintList.filter fun p => p.2.isObjectiveTerm && p.2.role == .user).map
        fun p => termCost y p.2).sum
      = ((s.userConstraints.filter (·.isObjectiveTerm)).map fun c =>
        c.weight ^ 2 * (c.userValue y - c.right) ^ 2).sum := by
  unfold userConstraints
  rw [List.filter_map, List.filter_map, List.filter_filter, List.map_map]
  congr 1
  refine List.map_congr_left fun p hp => ?_
  obtain ⟨hlive, hterm⟩ := List.mem_filter.1 hp
  obtain ⟨hterm, -⟩ : p.2.isObjectiveTerm = true ∧ p.2.role = .user := by simpa using hterm
  have hk := (mem_constraintList haddressable).1 hlive
  unfold termCost
  rw [evaluate_left h hk (isSoftInequality_of_isObjectiveTerm hterm), mul_pow]
  rfl

/-- The penalties of slacks, by the soft inequalities that own them. -/
theorem sum_slackTerms {s : Spec ℝ} (h : s.registry.Owned none) (haddressable : s.Addressable)
    (y : VariableId → ℝ) :
    ((s.constraintList.filter fun p => p.2.isObjectiveTerm && !(p.2.role == .user)).map
        fun p => termCost y p.2).sum
      = ((s.constraintList.filter (·.2.isSoftInequality)).map fun p =>
        p.2.weight ^ 2 * slackOf y p.2 ^ 2).sum := by
  have hmem : ∀ {k c}, (k, c) ∈ s.constraintList ↔ s.registry.constraint? k = some c :=
    mem_constraintList haddressable
  -- The cost by handle, so that the handles can be exchanged for those of the owners.
  obtain ⟨costAt, hcostAt⟩ : ∃ costAt : ConstraintId → ℝ, costAt = fun k =>
    ((s.getConstraint? k).map (termCost y)).getD 0 := ⟨_, rfl⟩
  have hperm := ((penaltyHandles_perm h haddressable).map costAt).sum_eq
  rw [List.map_map, List.map_map] at hperm
  refine Eq.trans ?_ (hperm.symm.trans ?_)
  · congr 1
    refine List.map_congr_left fun p hp => ?_
    have hlive : s.getConstraint? p.1 = some p.2 := hmem.1 (List.mem_filter.1 hp).1
    show termCost y p.2 = costAt p.1
    rw [hcostAt]
    dsimp only
    rw [hlive]
    rfl
  · congr 1
    refine List.map_congr_left fun p hp => ?_
    obtain ⟨hlive, hsoft⟩ := List.mem_filter.1 hp
    have hlive := hmem.1 hlive
    obtain ⟨e, he⟩ := Option.isSome_iff_exists.1 ((elastic_isSome_iff h hlive).2 hsoft)
    obtain ⟨q, hq, hpenalty⟩ := (h.owns p.1 p.2 e hlive he).penalty
    have hq : s.getConstraint? e.penalty = some q := hq
    show costAt ((p.2.elastic.map Elastic.penalty).getD p.1) = p.2.weight ^ 2 * slackOf y p.2 ^ 2
    unfold slackOf
    rw [he, hcostAt]
    dsimp only [Option.map_some, Option.getD_some]
    rw [hq]
    dsimp only [Option.map_some, Option.getD_some, termCost]
    rw [hpenalty.left, hpenalty.right, hpenalty.penaltyAbove, hpenalty.penaltyBelow,
      evaluate_cons, evaluate_nil, add_zero, one_mul, sub_zero, mul_pow]
    rfl

/-- **The penalty at a valuation.**  Soft inequalities count with their slacks. -/
theorem penalty_pointOf_eq {s : Spec ℝ} (h : s.registry.Owned none) (haddressable : s.Addressable)
    (y : VariableId → ℝ) : s.problem.penalty (s.pointOf y) =
      1 / 2 * ((s.userConstraints.filter (·.isObjectiveTerm)).map fun c =>
        c.weight ^ 2 * (c.userValue y - c.right) ^ 2).sum +
      1 / 2 * ((s.constraintList.filter (·.2.isSoftInequality)).map fun p =>
        p.2.weight ^ 2 * slackOf y p.2 ^ 2).sum := by
  have hsplit := sum_filter_add_sum_filter_not (fun p => p.2.role == .user)
    (fun p => termCost y p.2) (s.constraintList.filter (·.2.isObjectiveTerm))
  rw [List.filter_filter, List.filter_filter] at hsplit
  rw [← sum_userTerms h haddressable, ← sum_slackTerms h haddressable, ← mul_add, penalty_pointOf,
    participants_eq h haddressable, List.filter_map, List.map_map]
  simp only [Bool.and_comm] at hsplit ⊢
  rw [hsplit]
  rfl

/-- Soft inequalities are constraints of the caller. -/
theorem sum_softInequalities {s : Spec ℝ} (h : s.registry.Owned none)
    (haddressable : s.Addressable) (f : Constraint ℝ → ℝ) :
    ((s.userConstraints.filter (·.isSoftInequality)).map f).sum
      = ((s.constraintList.filter (·.2.isSoftInequality)).map fun p => f p.2).sum := by
  unfold userConstraints
  rw [List.filter_map, List.filter_map, List.filter_filter, List.map_map]
  congr 2
  refine List.filter_congr fun p hp => ?_
  have hlive := (mem_constraintList haddressable).1 hp
  show (p.2.isSoftInequality && p.2.role == .user) = p.2.isSoftInequality
  cases hsoft : p.2.isSoftInequality with
  | false => rfl
  | true =>
    obtain ⟨e, he⟩ := Option.isSome_iff_exists.1 ((elastic_isSome_iff h hlive).2 hsoft)
    rw [(h.owns p.1 p.2 e hlive he).role]
    rfl

/-! ### Slacks that make up for violations -/

theorem withSlacks_slack {s : Spec ℝ} (h : s.registry.Owned none) (haddressable : s.Addressable)
    (a : VariableId → ℝ) {k : ConstraintId} {c : Constraint ℝ} {e : Elastic ℝ}
    (hk : s.registry.constraint? k = some c) (he : c.elastic = some e) :
    s.withSlacks a e.slack = c.violation a := by
  unfold withSlacks
  have hc : c ∈ s.constraintList.map (·.2) :=
    List.mem_map.2 ⟨(k, c), (mem_constraintList haddressable).2 hk, rfl⟩
  split
  · rename_i c' hfind
    obtain ⟨⟨k', d⟩, hmem, rfl⟩ := List.mem_map.1 (List.mem_of_find?_eq_some hfind)
    have hk' := (mem_constraintList haddressable).1 hmem
    have hslack := List.find?_some hfind
    obtain ⟨e', he', hslack⟩ : ∃ e', d.elastic = some e' ∧ e'.slack = e.slack := by
      simpa [Option.any_eq_true] using hslack
    obtain rfl := h.slack_unique k' d e' k c e hk' he' hk he hslack
    obtain rfl := Option.some.inj (hk.symm.trans hk')
    rfl
  · rename_i hfind
    have hnot := List.find?_eq_none.1 hfind c hc
    rw [he] at hnot
    exact absurd hnot (by simp)

theorem withSlacks_of_not_isSlack {s : Spec ℝ} (h : s.registry.Owned none)
    (haddressable : s.Addressable) (a : VariableId → ℝ) {id : VariableId} {v : Variable ℝ}
    (hv : s.getVariable? id = some v) (hslack : v.isSlack = false) : s.withSlacks a id = a id := by
  unfold withSlacks
  split
  · rename_i c hfind
    obtain ⟨⟨k, d⟩, hmem, rfl⟩ := List.mem_map.1 (List.mem_of_find?_eq_some hfind)
    have hk := (mem_constraintList haddressable).1 hmem
    have hfound := List.find?_some hfind
    obtain ⟨e, he, rfl⟩ : ∃ e, d.elastic = some e ∧ e.slack = id := by
      simpa [Option.any_eq_true] using hfound
    obtain ⟨x, hx, hx', -⟩ := (h.owns k d e hk he).slack
    obtain rfl := Option.some.inj ((registry_extent?_eq_some hv).symm.trans hx)
    exact absurd (hslack.symm.trans hx') (by simp)
  · rfl

/-- The violation of a constraint depends on the variables of the caller only. -/
theorem violation_eq_of_agree {s : Spec ℝ} (h : s.registry.Owned none) {k : ConstraintId}
    {c : Constraint ℝ} (hk : s.registry.constraint? k = some c) (hrole : c.role = .user)
    {a y : VariableId → ℝ}
    (hay : ∀ id v, s.getVariable? id = some v → v.isSlack = false → a id = y id) :
    c.violation a = c.violation y := by
  refine Constraint.violation_congr fun term hterm => ?_
  obtain ⟨x, hx, hslack⟩ := h.own k c hk hrole term hterm
  obtain ⟨v, hv, rfl⟩ := getVariable?_of_extent? hx
  exact hay term.var v hv hslack

/-- A point over some values is the point of a valuation that agrees with them. -/
theorem Extends.exists_valuation {s : Spec ℝ} {a : VariableId → ℝ} {x : s.problem.Point}
    (hx : s.Extends a x) : ∃ y, s.pointOf y = x ∧
      ∀ id v, s.getVariable? id = some v → v.isSlack = false → a id = y id := by
  refine ⟨fun id => if id ∈ s.columns then s.valuation x id else a id, ?_, ?_⟩
  · conv_rhs => rw [← s.pointOf_valuation x]
    rw [← Vector.toList_inj, toList_pointOf, toList_pointOf]
    refine List.map_congr_left fun id hid => ?_
    rw [if_pos hid]
  · intro id v hv hslack
    dsimp only
    split
    · rename_i hid
      exact (hx id v hid hv hslack).symm
    · rfl

/-! ### The meaning of slacks -/

/-- The penalty in which soft inequalities count with their violations. -/
theorem userPenalty_eq {s : Spec ℝ} (h : s.registry.Owned none) (haddressable : s.Addressable)
    {a y : VariableId → ℝ}
    (hay : ∀ id v, s.getVariable? id = some v → v.isSlack = false → a id = y id) :
    s.userPenalty a = 1 / 2 * ((s.userConstraints.filter (·.isObjectiveTerm)).map fun c =>
        c.weight ^ 2 * (c.userValue y - c.right) ^ 2).sum +
      1 / 2 * ((s.constraintList.filter (·.2.isSoftInequality)).map fun p =>
        p.2.weight ^ 2 * p.2.violation a ^ 2).sum := by
  unfold userPenalty
  rw [sum_softInequalities h haddressable]
  congr 3
  refine List.map_congr_left fun c hc => ?_
  obtain ⟨⟨hmem, hrole⟩, -⟩ : (c ∈ s.constraintList.map (·.2) ∧ c.role = .user) ∧ _ := by
    simpa [userConstraints] using List.mem_filter.1 hc
  obtain ⟨⟨k, d⟩, hlive, rfl⟩ := List.mem_map.1 hmem
  have hvalue : d.userValue a = d.userValue y := by
    refine evaluate_congr fun term hterm => ?_
    obtain ⟨x, hx, hslack⟩ := h.own k d ((mem_constraintList haddressable).1 hlive) hrole term hterm
    obtain ⟨v, hv, rfl⟩ := getVariable?_of_extent? hx
    exact hay term.var v hv hslack
  rw [hvalue]

/-- Whatever the slacks are, the penalty is at least that of the violations. -/
theorem userPenalty_le {s : Spec ℝ} (h : s.registry.Owned none) (haddressable : s.Addressable)
    {a : VariableId → ℝ} {x : s.problem.Point} (hx : s.Extends a x) (hholds : s.problem.Holds x) :
    s.userPenalty a ≤ s.problem.penalty x := by
  obtain ⟨y, rfl, hay⟩ := hx.exists_valuation
  have hslacks := ((holds_pointOf_iff h haddressable).1 hholds).2
  rw [penalty_pointOf_eq h haddressable, userPenalty_eq h haddressable hay]
  refine add_le_add le_rfl (mul_le_mul_of_nonneg_left (List.sum_le_sum fun p hp => ?_)
    (by norm_num))
  obtain ⟨hmem, hsoft⟩ := List.mem_filter.1 hp
  have hlive := (mem_constraintList haddressable).1 hmem
  obtain ⟨e, he⟩ := Option.isSome_iff_exists.1 ((elastic_isSome_iff h hlive).2 hsoft)
  have hrole := (h.owns p.1 p.2 e hlive he).role
  have hle := hslacks p.1 p.2 e hlive he
  rw [← violation_eq_of_agree h hlive hrole hay] at hle
  unfold slackOf
  rw [he]
  exact mul_le_mul_of_nonneg_left (pow_le_pow_left₀ (p.2.violation_nonneg a) hle 2) (sq_nonneg _)

theorem extends_slackPoint {s : Spec ℝ} (h : s.registry.Owned none) (haddressable : s.Addressable)
    (a : VariableId → ℝ) : s.Extends a (s.slackPoint a) := by
  intro id v hid hv hslack
  unfold slackPoint
  rw [valuation_pointOf hid, withSlacks_of_not_isSlack h haddressable a hv hslack]

theorem holds_slackPoint {s : Spec ℝ} (h : s.registry.Owned none) (haddressable : s.Addressable)
    {a : VariableId → ℝ} (ha : s.UserHolds a) : s.problem.Holds (s.slackPoint a) := by
  have hagree : ∀ id v, s.getVariable? id = some v → v.isSlack = false →
      a id = s.withSlacks a id := fun id v hv hslack =>
    (withSlacks_of_not_isSlack h haddressable a hv hslack).symm
  refine (holds_pointOf_iff h haddressable).2 ⟨ha.congr h hagree, fun k c e hk he => ?_⟩
  rw [withSlacks_slack h haddressable a hk he,
    violation_eq_of_agree h hk (h.owns k c e hk he).role hagree]

/-- Where every slack is the violation of its constraint, the penalty is that of the violations. -/
theorem penalty_slackPoint {s : Spec ℝ} (h : s.registry.Owned none) (haddressable : s.Addressable)
    (a : VariableId → ℝ) : s.problem.penalty (s.slackPoint a) = s.userPenalty a := by
  have hagree : ∀ id v, s.getVariable? id = some v → v.isSlack = false →
      a id = s.withSlacks a id := fun id v hv hslack =>
    (withSlacks_of_not_isSlack h haddressable a hv hslack).symm
  unfold slackPoint
  rw [penalty_pointOf_eq h haddressable, userPenalty_eq h haddressable hagree]
  congr 3
  refine List.map_congr_left fun p hp => ?_
  obtain ⟨hmem, hsoft⟩ := List.mem_filter.1 hp
  have hlive := (mem_constraintList haddressable).1 hmem
  obtain ⟨e, he⟩ := Option.isSome_iff_exists.1 ((elastic_isSome_iff h hlive).2 hsoft)
  unfold slackOf
  rw [he]
  dsimp only
  rw [withSlacks_slack h haddressable a hlive he]

/-- Values that extend to a point that keeps the hard rows are such as the caller asked for. -/
theorem Extends.userHolds {s : Spec ℝ} (h : s.registry.Owned none) (haddressable : s.Addressable)
    {a : VariableId → ℝ} {x : s.problem.Point} (hx : s.Extends a x) (hholds : s.problem.Holds x) :
    s.UserHolds a := by
  obtain ⟨y, rfl, hay⟩ := hx.exists_valuation
  exact ((holds_pointOf_iff h haddressable).1 hholds).1.congr h fun id v hv hslack =>
    (hay id v hv hslack).symm

/-- **Slacks keep the meaning of a specification.**  Values for the variables of the caller extend
to a point that keeps all hard rows exactly if they keep the hard constraints and the narrowed
ranges of the caller; and then the least penalty of such a point is the penalty of the violations,
attained where every slack is the violation of its constraint. -/
theorem Reachable.slack_meaning {s : Spec ℝ} (hs : s.Reachable) (a : VariableId → ℝ) :
    ((∃ x, s.Extends a x ∧ s.problem.Holds x) ↔ s.UserHolds a) ∧
    (s.UserHolds a →
      IsLeast {e | ∃ x, s.Extends a x ∧ s.problem.Holds x ∧ s.problem.penalty x = e}
        (s.userPenalty a) ∧
      s.Extends a (s.slackPoint a) ∧ s.problem.Holds (s.slackPoint a) ∧
      s.problem.penalty (s.slackPoint a) = s.userPenalty a ∧
      ∀ id c e, s.getConstraint? id = some c → c.elastic = some e →
        s.valuation (s.slackPoint a) e.slack = c.violation a) := by
  obtain ⟨-, h⟩ := hs.tidy_owned
  have haddressable := hs.1
  have hextends := extends_slackPoint h haddressable a
  have hpenalty := penalty_slackPoint h haddressable a
  refine ⟨⟨?_, fun huser => ⟨_, hextends, holds_slackPoint h haddressable huser⟩⟩,
    fun huser => ⟨⟨?_, ?_⟩, hextends, holds_slackPoint h haddressable huser, hpenalty,
      fun k c e hk he => ?_⟩⟩
  · rintro ⟨x, hx, hholds⟩
    exact hx.userHolds h haddressable hholds
  · exact ⟨_, hextends, holds_slackPoint h haddressable huser, hpenalty⟩
  · rintro _ ⟨x, hx, hholds, rfl⟩
    exact userPenalty_le h haddressable hx hholds
  · have hcolumn : e.slack ∈ s.columns := by
      refine mem_columns.2 ⟨c, (mem_participants h haddressable).2 ⟨k, hk⟩,
        ⟨e.coefficient, e.slack⟩, ?_, rfl⟩
      rw [(h.owns k c e hk he).left]
      simp
    unfold slackPoint
    rw [valuation_pointOf hcolumn, withSlacks_slack h haddressable a hk he]

/-- A variable that should be at most 100, at a penalty of 4, and should be 150, which it is: the
slack of the limit is 50, and the penalty is half the square of 4 times 50. -/
theorem slack_meaning_of_pulled :
    let s : Spec ℝ := ({ options := .default } : Spec ℝ).run pulled
    s.Reachable ∧ s.UserHolds (fun _ => 150) ∧
    (∃ x, s.Extends (fun _ => 150) x ∧ s.problem.Holds x) ∧
    IsLeast {e | ∃ x, s.Extends (fun _ => 150) x ∧ s.problem.Holds x ∧ s.problem.penalty x = e}
      20000 ∧
    s.problem.penalty (s.slackPoint fun _ => 150) = 20000 ∧
    ∃ id c e, s.getConstraint? id = some c ∧ c.elastic = some e ∧
      s.valuation (s.slackPoint fun _ => 150) e.slack = 50 := by
  intro s
  have hs : s.Reachable := reachable_run .default (by decide)
  obtain ⟨limit, target, hne, hview⟩ : ∃ limit target : ConstraintId, target ≠ limit ∧
    s.registry.view = pulledView limit target 4 0 := view_pulled
  have hweight : weightFor (4 : ℝ) 0 = 4 := weightFor_zero (by norm_num)
  have hholds : s.UserHolds fun _ => 150 :=
    userHolds_of_pulledView hview (by rw [hweight]; norm_num) _
  have hcost : s.userPenalty (fun _ => 150) = 20000 := by
    rw [userPenalty_of_pulledView hs.1 hne hview, hweight]
    norm_num
  obtain ⟨c, hc, -, hshown⟩ := exists_limit_of_pulledView hview
  have hsoft : c.isSoftInequality = true := by
    have hlimit : (pulledLimit 4 0).isSoftInequality = true := by
      refine Constraint.isSoftInequality_iff.2 ⟨Constraint.weight_pos_iff.1 ?_, by
        simp [pulledLimit, Constraint.fresh]⟩
      show 0 < weightFor (4 : ℝ) 0
      rw [hweight]
      norm_num
    rw [← hshown] at hlimit
    exact hlimit
  obtain ⟨e, he⟩ :=
    Option.isSome_iff_exists.1 ((elastic_isSome_iff hs.tidy_owned.2 hc).2 hsoft)
  have hviolation : c.violation (fun _ => 150) = 50 := by
    rw [violation_of_pulledLimit hshown]
    norm_num
  obtain ⟨hextends, hleast⟩ := hs.slack_meaning fun _ => 150
  obtain ⟨hminimum, -, -, hpenalty, hslacks⟩ := hleast hholds
  rw [hcost] at hminimum hpenalty
  exact ⟨hs, hholds, hextends.2 hholds, hminimum, hpenalty, limit, c, e, hc, he,
    (hslacks limit c e hc he).trans hviolation⟩

end Spec

end ElasticLayout
