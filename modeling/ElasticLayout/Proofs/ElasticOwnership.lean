import ElasticLayout.Proofs.SizeQuery

/-!
# Soft inequalities own their slacks

Every step keeps the ownership of internal constraints, so it holds after every history of calls:
a constraint is elastic exactly if it is a soft inequality, and an elastic constraint, its slack,
the penalty of the slack and the bound constraint of the slack determine each other.

* `Spec.Step.owned`, `Spec.Reachable.owned_induction` -- the invariant, for one step and for a
  history;
* `Spec.OwnsElastic` -- what a live elastic constraint looks like, and what it owns;
* `Spec.Reachable.elastic_ownership` -- the main result.
-/

namespace ElasticLayout

variable {α : Type}

instance : RangeScalar Float where
  zero_not_lt := by decide
  defaultLower_not_lt := by decide
  defaultUpper_not_lt := by decide
  defaultLower_lt_zero := by decide

namespace Spec

variable [Scalar α] [RangeScalar α]

/-! ### The invariant -/

/-- **Every step keeps the ownership.** -/
theorem Step.owned {s t : Spec α} (hs : s.Tidy) (h : s.registry.Owned none) (hstep : s.Step t)
    (hroom : t.Addressable) : t.registry.Owned none := by
  cases hstep with
  | stay => exact h
  | addVariable label =>
    obtain ⟨hfresh, hregistry⟩ := s.registry_insertVariable hs
      (v := (Variable.fresh label false : Variable α)) hroom.1
    show ({ s with variableStore := (s.variableStore.insert _).2 } : Spec α).registry.Owned none
    rw [hregistry]
    exact h.putFresh hfresh label
  | removeVariable id hid =>
    have haddressable : s.Addressable := ((Evolves.foldl_zero evolves_drop _ s).trans
      (evolves_dropVariable _ id)).addressable hroom
    exact owned_removeVariable haddressable h hid
  | nameVariable id label =>
    rw [s.registry_modifyVariable_of_extent id (f := fun v => { v with label }) fun _ => rfl]
    exact h
  | setRange id lower upper hid => exact owned_applyRange hs h hid hroom
  | addConstraint left relation right above below hleft =>
    exact owned_register hs h rfl rfl rfl (isUserVariable_of_mem_mergeSummands hleft) hroom
  | removeConstraint id hid =>
    obtain ⟨c, hc, hrole⟩ := (s.isUserConstraint_iff id).1 hid
    exact (dropped_drop h hc hrole).owned
  | setLeft id left hid hleft =>
    exact owned_mutate hs h hid (isUserChange_setLeft hleft) hroom
  | setRelation id relation hid =>
    exact owned_mutate hs h hid ⟨fun _ => rfl, fun _ => rfl, fun _ => rfl, fun _ _ => .inl⟩ hroom
  | setRight id right hid =>
    exact owned_mutate hs h hid ⟨fun _ => rfl, fun _ => rfl, fun _ => rfl, fun _ _ => .inl⟩ hroom
  | setPenalties id above below hid =>
    exact owned_mutate hs h hid ⟨fun _ => rfl, fun _ => rfl, fun _ => rfl, fun _ _ => .inl⟩ hroom
  | nameConstraint id label =>
    rw [registry_modifyConstraint]
    cases hc : s.registry.constraint? id with
    | none =>
      rw [Option.map_none, Registry.putConstraint_self hc]
      exact h
    | some c => exact h.relabel hc label
  | solve =>
    rw [registry_solve]
    exact h
  | query width height target unbounded hquery =>
    rw [registry_sizeQuery hs h.resumed hquery hroom]
    exact h

omit [RangeScalar α] in
theorem owned_initial (options : Options α) : ({ options } : Spec α).registry.Owned none where
  range := by
    intro v x hx
    exact absurd hx (by simp [registry, getVariable?, SlotStore.get?])
  bound := by simp [registry, getConstraint?, SlotStore.get?]
  owns := by simp [registry, getConstraint?, SlotStore.get?]
  own := by simp [registry, getConstraint?, SlotStore.get?]
  penalty_owner := by simp [registry, getConstraint?, SlotStore.get?]
  slack_owner := by simp [registry, getVariable?, SlotStore.get?]
  slack_unique := by simp [registry, getConstraint?, SlotStore.get?]
  rigid := by simp [registry, getConstraint?, SlotStore.get?]
  pending_rigid := by simp
  resumed := by simp [registry, getConstraint?, SlotStore.get?]

/-- **Induction over histories**, with the ownership at hand: what holds of an empty specification,
and is kept by every step that has handles enough, holds of every reachable specification. -/
theorem Reachable.owned_induction {P : Spec α → Prop} (initial : ∀ options, P { options })
    (step : ∀ s t, s.Tidy → s.registry.Owned none → P s → Step s t → t.Addressable → P t)
    {s : Spec α} (h : s.Reachable) : s.Tidy ∧ s.registry.Owned none ∧ P s := by
  refine h.induction (P := fun s => s.Tidy ∧ s.registry.Owned none ∧ P s) (fun options => ?_) ?_
  · exact ⟨⟨SlotStore.tidy_empty, SlotStore.tidy_empty⟩, owned_initial options, initial options⟩
  · rintro s t ⟨htidy, howned, hs⟩ hstep hroom
    exact ⟨hstep.evolves.tidy htidy, hstep.owned htidy howned hroom,
      step s t htidy howned hs hstep hroom⟩

theorem Reachable.tidy_owned {s : Spec α} (h : s.Reachable) :
    s.Tidy ∧ s.registry.Owned none := by
  obtain ⟨htidy, howned, -⟩ := h.owned_induction (P := fun _ => True) (fun _ => trivial)
    fun _ _ _ _ _ _ _ => trivial
  exact ⟨htidy, howned⟩

/-! ### Owners and what they own -/

omit [RangeScalar α] in
/-- What a live elastic constraint looks like, and what it owns. -/
structure OwnsElastic (s : Spec α) (id : ConstraintId) (c : Constraint α) (e : Elastic α) :
    Prop where
  /-- The slack is live, and its range is the range of slacks. -/
  slack : ∃ v, s.getVariable? e.slack = some v ∧ v.isSlack = true ∧ v.lower = 0 ∧
    v.upper = Variable.slackUpper
  /-- The factor of the slack relaxes the constraint. -/
  coefficient : c.relation = .le ∧ e.coefficient = -1 ∨ c.relation = .ge ∧ e.coefficient = 1
  /-- The slack is mentioned last, and nowhere else in the left side. -/
  left : ∃ own, c.left = own ++ [⟨e.coefficient, e.slack⟩] ∧ ∀ term ∈ own, term.var ≠ e.slack
  /-- The penalty pulls the slack to zero, as strongly as the constraint says. -/
  penalty : ∃ q, s.getConstraint? e.penalty = some q ∧ q.role = .slackPenalty id ∧
    q.left = [⟨1, e.slack⟩] ∧ q.relation = .eq ∧ q.right = 0 ∧
    q.penaltyAbove = c.penaltyAbove ∧ q.penaltyBelow = c.penaltyBelow
  /-- The slack has one bound constraint. -/
  bound : ∃! k, ∃ d, s.getConstraint? k = some d ∧ d.role = .bound e.slack
  /-- The bound constraint keeps the slack from being negative. -/
  bound_le : ∀ k d, s.getConstraint? k = some d → d.role = .bound e.slack →
    d.left = [⟨1, e.slack⟩] ∧ d.relation = .ge ∧ d.right = 0 ∧ d.isSoft = false

/-- A live constraint has a slack if it is a soft inequality, and only then. -/
theorem elastic_isSome_iff {s : Spec α} (h : s.registry.Owned none) {id : ConstraintId}
    {c : Constraint α} (hc : s.registry.constraint? id = some c) :
    c.elastic.isSome = true ↔ c.isSoftInequality = true := by
  constructor
  · intro hsome
    obtain ⟨e, he⟩ := Option.isSome_iff_exists.1 hsome
    exact (h.owns id c e hc he).isSoftInequality
  · intro hsoft
    by_cases hrole : c.role = .user
    · exact h.rigid id c hc hrole hsoft (by simp)
    · have hinternal := h.isInternal_of_role hc hrole
      exact absurd hsoft (by simp [hinternal.isSoftInequality])

theorem ownsElastic {s : Spec α} (h : s.registry.Owned none) {id : ConstraintId}
    {c : Constraint α} {e : Elastic α} (hc : s.registry.constraint? id = some c)
    (he : c.elastic = some e) : s.OwnsElastic id c e := by
  have howns := h.owns id c e hc he
  obtain ⟨x, hx, hisSlack, hlower, hupper⟩ := howns.slack
  obtain ⟨v, hv, rfl⟩ := getVariable?_of_extent? hx
  obtain ⟨b, hb, hnone⟩ := (h.range e.slack _ hx).slack_bounds hlower hupper
  obtain ⟨d, hd, hbound⟩ := (h.range e.slack _ hx).lower.2 b hb
  have honly : ∀ k d', s.registry.constraint? k = some d' → d'.role = .bound e.slack → k = b := by
    intro k d' hk hrole
    obtain ⟨y, hy, hmem⟩ := h.bound k d' e.slack hk hrole
    obtain rfl := Option.some.inj (hx.symm.trans hy)
    grind
  exact {
    slack := ⟨v, hv, hisSlack, hlower, hupper⟩
    coefficient := by
      have ha := howns.coefficient
      cases hrelation : c.relation <;> rw [hrelation] at ha
      · exact .inl ⟨rfl, (Option.some.inj ha).symm⟩
      · exact .inr ⟨rfl, (Option.some.inj ha).symm⟩
      · exact absurd ha (by simp [Relation.slackCoefficient?])
    left := by
      exact ⟨c.ownTerms, howns.left, fun term hterm =>
        Constraint.ne_slack_of_mem_ownTerms he hterm⟩
    penalty := by
      obtain ⟨q, hq, hpenalty⟩ := howns.penalty
      exact ⟨q, hq, hpenalty.role, hpenalty.left, hpenalty.relation, hpenalty.right,
        hpenalty.penaltyAbove, hpenalty.penaltyBelow⟩
    bound := ⟨b, ⟨d, hd, hbound.role⟩, fun k ⟨d', hk, hrole⟩ => honly k d' hk hrole⟩
    bound_le := by
      intro k d' hk hrole
      obtain rfl := honly k d' hk hrole
      obtain rfl := Option.some.inj (hd.symm.trans hk)
      exact ⟨hbound.left, hbound.relation, hbound.right.trans hlower,
        hbound.isSoft⟩ }

/-- **Ownership after every history of calls.**  A live constraint is elastic exactly if it is a
soft inequality, and then it owns what it should; every live slack and every live slack penalty
belongs to exactly one live elastic constraint. -/
theorem Reachable.elastic_ownership {s : Spec α} (h : s.Reachable) :
    (∀ id c, s.getConstraint? id = some c →
      ((∃ e, c.elastic = some e) ↔
        c.relation ≠ .eq ∧ (0 < c.penaltyAbove ∨ 0 < c.penaltyBelow)) ∧
      ∀ e, c.elastic = some e → s.OwnsElastic id c e) ∧
    (∀ v x, s.getVariable? v = some x → x.isSlack = true →
      ∃! id, ∃ c e, s.getConstraint? id = some c ∧ c.elastic = some e ∧ e.slack = v) ∧
    (∀ p q k, s.getConstraint? p = some q → q.role = .slackPenalty k →
      ∃! id, ∃ c e, s.getConstraint? id = some c ∧ c.elastic = some e ∧ e.penalty = p) := by
  obtain ⟨-, h⟩ := h.tidy_owned
  refine ⟨fun id c hc => ⟨?_, fun e he => ownsElastic h hc he⟩, ?_, ?_⟩
  · rw [← Option.isSome_iff_exists, elastic_isSome_iff h hc]
    simp [Constraint.isSoftInequality, Constraint.isSoft, and_comm]
  · intro v x hv hslack
    obtain ⟨id, c, e, hc, he, hev⟩ := h.slack_owner v _ (registry_extent?_eq_some hv) hslack
    refine ⟨id, ⟨c, e, hc, he, hev⟩, ?_⟩
    rintro id' ⟨c', e', hc', he', hev'⟩
    exact h.slack_unique id' c' e' id c e hc' he' hc he (hev'.trans hev.symm)
  · intro p q k hq hrole
    obtain ⟨c, e, hc, he, hp, -, -⟩ := h.isPenaltyOf_of_role hq hrole
    refine ⟨k, ⟨c, e, hc, he, hp⟩, ?_⟩
    rintro id ⟨c', e', hc', he', rfl⟩
    -- The penalty names its owner in its role.
    obtain ⟨q', hq', hpenalty⟩ := (h.owns id c' e' hc' he').penalty
    obtain rfl := Option.some.inj (hq.symm.trans hq')
    exact Role.slackPenalty.inj (hpenalty.role.symm.trans hrole)

/-- A variable and a soft `x <= 100` with one penalty: the constraint is elastic. -/
theorem elastic_ownership_of_soft_le :
    (({ options := .default } : Spec Float).run
      [.addVariable none, .addConstraint [1] [⟨⟨0, 0⟩⟩] .le 100 4 0]).Reachable ∧
    ∃ c e, (({ options := .default } : Spec Float).run
      [.addVariable none, .addConstraint [1] [⟨⟨0, 0⟩⟩] .le 100 4 0]).getConstraint? ⟨⟨0, 0⟩⟩
        = some c ∧ c.elastic = some e ∧
      (({ options := .default } : Spec Float).run
        [.addVariable none, .addConstraint [1] [⟨⟨0, 0⟩⟩] .le 100 4 0]).OwnsElastic
          ⟨⟨0, 0⟩⟩ c e := by
  have hreachable : (({ options := .default } : Spec Float).run
      [.addVariable none, .addConstraint [1] [⟨⟨0, 0⟩⟩] .le 100 4 0]).Reachable :=
    reachable_run .default (by decide)
  have helastic : (((({ options := .default } : Spec Float).run
      [.addVariable none, .addConstraint [1] [⟨⟨0, 0⟩⟩] .le 100 4 0]).getConstraint?
        ⟨⟨0, 0⟩⟩).bind (·.elastic)).isSome = true := by decide
  obtain ⟨e, he⟩ := Option.isSome_iff_exists.1 helastic
  obtain ⟨c, hc, he⟩ := Option.bind_eq_some_iff.1 he
  exact ⟨hreachable, c, e, hc, he, ((Reachable.elastic_ownership hreachable).1 _ c hc).2 e he⟩

end Spec

end ElasticLayout
