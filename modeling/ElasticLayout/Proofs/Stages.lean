import ElasticLayout.Proofs.Registry

/-!
# Changes in stages

A change that is made of several others, with the specification after each of them.  What the parts
keep, the whole keeps; the stages say once how the whole is put together.

* `Spec.RangeStages`, `Spec.exists_rangeStages` -- setting a range;
* `Spec.settled_or_pending`, `Spec.attach_of_settled`, `Spec.attach_of_softInequality` -- who gets a
  slack;
* `Spec.SlackStages`, `Spec.exists_slackStages` -- giving a slack;
* `Spec.DetachStages`, `Spec.exists_detachStages` -- taking a slack back;
* `Spec.rigid_or_elastic`, `Spec.detach_of_rigid`, `Spec.drop_of_rigid` -- who has none;
* `Spec.mutate_eq` -- changing a constraint.
-/

namespace ElasticLayout.Spec

variable {α : Type}

/-! ### Taking a slack back -/

/-- A slack is taken back in stages: its summands go and the link with them, then its penalty, and
then the variable with its bound constraint. -/
structure DetachStages (s : Spec α) (id : ConstraintId) (c : Constraint α) (e : Elastic α)
    (s₁ s₂ : Spec α) : Prop where
  released : s₁ = (s.modifyConstraint id fun d => { d with
    elastic := none, left := c.left.filter (·.var != e.slack) }).release
      (c.left.filter (·.var == e.slack))
  withdrawn : s₂ = s₁.withdraw e.penalty
  dropped : s.detach id = s₂.dropVariable e.slack

theorem detach_eq {s : Spec α} {id : ConstraintId} {c : Constraint α} {e : Elastic α}
    (hc : s.getConstraint? id = some c) (he : c.elastic = some e) :
    s.detach id = (((s.modifyConstraint id fun d => { d with
      elastic := none, left := c.left.filter (·.var != e.slack) }).release
        (c.left.filter (·.var == e.slack))).withdraw e.penalty).dropVariable e.slack := by
  unfold detach
  rw [hc, Option.bind_some, he, Option.map_some]
  dsimp only
  rw [List.partition_eq_filter_filter]
  rfl

theorem exists_detachStages {s : Spec α} {id : ConstraintId} {c : Constraint α} {e : Elastic α}
    (hc : s.getConstraint? id = some c) (he : c.elastic = some e) :
    ∃ s₁ s₂, s.DetachStages id c e s₁ s₂ :=
  ⟨_, _, rfl, rfl, detach_eq hc he⟩

namespace DetachStages

variable {s s₁ s₂ : Spec α} {id : ConstraintId} {c : Constraint α} {e : Elastic α}

theorem registry₁ (h : s.DetachStages id c e s₁ s₂) :
    s₁.registry = s.registry.putConstraint id ((s.registry.constraint? id).map fun d =>
      { d with elastic := none, left := c.left.filter (·.var != e.slack) }) := by
  rw [h.released, registry_release, registry_modifyConstraint]

/-- Other constraints are there when the penalty is withdrawn. -/
theorem constraint?₁ (h : s.DetachStages id c e s₁ s₂) {k : ConstraintId} (hk : k ≠ id) :
    s₁.getConstraint? k = s.getConstraint? k := by
  rw [← registry_constraint?, h.registry₁, Registry.constraint?_putConstraint, if_neg hk]
  rfl

/-- Other constraints are there when the variable is dropped. -/
theorem constraint?₂ (h : s.DetachStages id c e s₁ s₂) {k : ConstraintId} (hk : k ≠ id)
    (hp : k ≠ e.penalty) : s₂.getConstraint? k = s.getConstraint? k := by
  rw [← registry_constraint?, h.withdrawn, registry_withdraw, Registry.constraint?_putConstraint,
    if_neg hp]
  exact h.constraint?₁ hk

/-- The slack is there when it is dropped. -/
theorem extent?₂ (h : s.DetachStages id c e s₁ s₂) (v : VariableId) :
    s₂.registry.extent? v = s.registry.extent? v := by
  rw [h.withdrawn, registry_withdraw, Registry.extent?_putConstraint, h.registry₁,
    Registry.extent?_putConstraint]

end DetachStages

/-- Either a handle has no slack to take back, or it is that of an elastic constraint. -/
theorem rigid_or_elastic (s : Spec α) (id : ConstraintId) :
    (∀ c, s.registry.constraint? id = some c → c.elastic = none) ∨
      ∃ c e, s.registry.constraint? id = some c ∧ c.elastic = some e := by
  by_cases helastic : ∃ c e, s.registry.constraint? id = some c ∧ c.elastic = some e
  · exact .inr helastic
  · exact .inl fun c hc => Option.eq_none_iff_forall_ne_some.2 fun e he => helastic ⟨c, e, hc, he⟩

theorem detach_of_rigid {s : Spec α} {id : ConstraintId}
    (h : ∀ c, s.registry.constraint? id = some c → c.elastic = none) : s.detach id = s := by
  have hnone : ((s.getConstraint? id).bind fun c => c.elastic.map fun e => (c, e)) = none := by
    rw [Option.bind_eq_none_iff]
    intro c hc
    rw [h c hc]
    rfl
  unfold detach
  rw [hnone]

/-- A constraint without slack is dropped by withdrawing it. -/
theorem drop_of_rigid {s : Spec α} {id : ConstraintId}
    (h : ∀ c, s.registry.constraint? id = some c → c.elastic = none) :
    s.drop id = s.withdraw id := by
  unfold drop
  rw [detach_of_rigid h]

variable [Scalar α]

/-! ### Setting a range -/

/-- The range of a variable is set in stages: the ends, the bound constraint of the lower end, that
of the upper end, and the links to both. -/
structure RangeStages (s : Spec α) (id : VariableId) (v : Variable α) (lower upper : α)
    (s₁ s₂ s₃ : Spec α) (lowerBound upperBound : Option ConstraintId) : Prop where
  ends : s₁ = s.modifyVariable id fun v => { v with lower, upper }
  lowerEnd : s₁.syncBound id v.lowerBound .ge lower (Variable.defaultLower < lower)
    = (lowerBound, s₂)
  upperEnd : s₂.syncBound id v.upperBound .le upper (upper < Variable.defaultUpper)
    = (upperBound, s₃)
  links : s.applyRange id lower upper = s₃.modifyVariable id fun v =>
    { v with lowerBound, upperBound }

theorem exists_rangeStages {s : Spec α} {id : VariableId} {v : Variable α}
    (h : s.getVariable? id = some v) (lower upper : α) :
    ∃ s₁ s₂ s₃ lowerBound upperBound,
      s.RangeStages id v lower upper s₁ s₂ s₃ lowerBound upperBound := by
  obtain ⟨s₁, hs₁⟩ : ∃ t, t = s.modifyVariable id fun v => { v with lower, upper } := ⟨_, rfl⟩
  obtain ⟨⟨lowerBound, s₂⟩, hl⟩ : ∃ t, t = s₁.syncBound id v.lowerBound .ge lower
    (Variable.defaultLower < lower) := ⟨_, rfl⟩
  obtain ⟨⟨upperBound, s₃⟩, hu⟩ : ∃ t, t = s₂.syncBound id v.upperBound .le upper
    (upper < Variable.defaultUpper) := ⟨_, rfl⟩
  refine ⟨s₁, s₂, s₃, lowerBound, upperBound, hs₁, hl.symm, hu.symm, ?_⟩
  unfold applyRange
  rw [h]
  dsimp only
  rw [← hs₁, ← hl]
  dsimp only
  rw [← hu]

namespace RangeStages

variable {s s₁ s₂ s₃ : Spec α} {id : VariableId} {v : Variable α} {lower upper : α}
  {lowerBound upperBound : Option ConstraintId}

theorem tidy₁ (h : s.RangeStages id v lower upper s₁ s₂ s₃ lowerBound upperBound)
    (hs : s.Tidy) : s₁.Tidy :=
  h.ends ▸ (s.evolves_modifyVariable id _).tidy hs

theorem tidy₂ (h : s.RangeStages id v lower upper s₁ s₂ s₃ lowerBound upperBound)
    (hs : s.Tidy) : s₂.Tidy := by
  have htidy := (evolves_syncBound s₁ id v.lowerBound .ge lower
    (Variable.defaultLower < lower)).tidy (h.tidy₁ hs)
  rwa [h.lowerEnd] at htidy

theorem room₃ (h : s.RangeStages id v lower upper s₁ s₂ s₃ lowerBound upperBound)
    (hroom : (s.applyRange id lower upper).Addressable) : s₃.Addressable :=
  (s₃.evolves_modifyVariable id _).addressable (h.links ▸ hroom)

theorem room₂ (h : s.RangeStages id v lower upper s₁ s₂ s₃ lowerBound upperBound)
    (hroom : (s.applyRange id lower upper).Addressable) : s₂.Addressable := by
  refine (evolves_syncBound s₂ id v.upperBound .le upper
    (upper < Variable.defaultUpper)).addressable ?_
  rw [h.upperEnd]
  exact h.room₃ hroom

end RangeStages

/-! ### Giving a slack -/

/-- Only an equality has no coefficient for a slack, and that is no inequality. -/
theorem isSoftInequality_of_slackCoefficient? {c : Constraint α}
    (h : (c.relation.slackCoefficient? : Option α) = none) : c.isSoftInequality = false := by
  unfold Constraint.isSoftInequality
  cases hrelation : c.relation <;> simp_all [Relation.slackCoefficient?]

/-- A constraint that has its slack, or needs none, is left alone. -/
theorem attach_of_settled {s : Spec α} {id : ConstraintId}
    (h : ∀ c, s.getConstraint? id = some c →
      c.elastic.isSome = true ∨ c.isSoftInequality = false) : s.attach id = s := by
  unfold attach
  split
  · rfl
  · rename_i c hc
    exact if_pos (by simpa using h c hc)

theorem attach_of_softInequality {s : Spec α} {id : ConstraintId} {c : Constraint α} {a : α}
    (hc : s.getConstraint? id = some c) (hrigid : c.elastic = none)
    (hsoft : c.isSoftInequality = true) (ha : c.relation.slackCoefficient? = some a) :
    s.attach id = s.attachSlack id c a := by
  unfold attach
  rw [hc]
  simp [hsoft, hrigid, ha]

/-- Either nothing is to be done for a handle, or it is that of a soft inequality without slack. -/
theorem settled_or_pending (s : Spec α) (id : ConstraintId) :
    (∀ c, s.getConstraint? id = some c → c.elastic.isSome = true ∨ c.isSoftInequality = false) ∨
      ∃ (c : Constraint α) (a : α), s.getConstraint? id = some c ∧ c.elastic = none ∧
        c.isSoftInequality = true ∧ c.relation.slackCoefficient? = some a := by
  rw [or_iff_not_imp_left]
  intro h
  push Not at h
  obtain ⟨c, hc, hrigid, hsoft⟩ := h
  have hsoft : c.isSoftInequality = true := by simpa using hsoft
  cases ha : (c.relation.slackCoefficient? : Option α) with
  | none => exact absurd hsoft (by simp [isSoftInequality_of_slackCoefficient? ha])
  | some a => exact ⟨c, a, hc, by simpa using hrigid, hsoft, ha⟩

/-- The constraint that penalizes the slack of a constraint. -/
def penaltyOf (id : ConstraintId) (c : Constraint α) (slack : VariableId) : Constraint α :=
  .fresh [⟨1, slack⟩] .eq 0 c.penaltyAbove c.penaltyBelow (.slackPenalty id)

/-- A slack is given in stages: the variable, its range, its summand, its penalty, and the link to
both. -/
structure SlackStages (s : Spec α) (id : ConstraintId) (c : Constraint α) (a : α)
    (s₁ s₂ s₃ s₄ : Spec α) (slack : VariableId) (penalty : ConstraintId) : Prop where
  handle : slack = ⟨(s.variableStore.insert (Variable.fresh none true : Variable α)).1⟩
  inserted : s₁ = { s with variableStore :=
    (s.variableStore.insert (Variable.fresh none true : Variable α)).2 }
  ranged : s₂ = s₁.applyRange slack 0 Variable.slackUpper
  extended : s₃ = (s₂.modifyConstraint id fun c =>
    { c with left := c.left ++ [⟨a, slack⟩] }).retain [⟨a, slack⟩]
  penalized : s₃.place (penaltyOf id c slack) = (penalty, s₄)
  linked : s.attachSlack id c a = s₄.modifyConstraint id fun c =>
    { c with elastic := some ⟨slack, a, penalty⟩ }

theorem exists_slackStages (s : Spec α) (id : ConstraintId) (c : Constraint α) (a : α) :
    ∃ s₁ s₂ s₃ s₄ slack penalty, s.SlackStages id c a s₁ s₂ s₃ s₄ slack penalty := by
  obtain ⟨slack, hslack⟩ : ∃ v : VariableId,
    v = ⟨(s.variableStore.insert (Variable.fresh none true : Variable α)).1⟩ := ⟨_, rfl⟩
  obtain ⟨s₁, hs₁⟩ : ∃ t : Spec α, t = { s with variableStore :=
    (s.variableStore.insert (Variable.fresh none true : Variable α)).2 } := ⟨_, rfl⟩
  obtain ⟨s₂, hs₂⟩ : ∃ t, t = s₁.applyRange slack 0 Variable.slackUpper := ⟨_, rfl⟩
  obtain ⟨s₃, hs₃⟩ : ∃ t, t = (s₂.modifyConstraint id fun c =>
    { c with left := c.left ++ [⟨a, slack⟩] }).retain [⟨a, slack⟩] := ⟨_, rfl⟩
  obtain ⟨⟨penalty, s₄⟩, hpair⟩ : ∃ t, t = s₃.place (penaltyOf id c slack) := ⟨_, rfl⟩
  refine ⟨s₁, s₂, s₃, s₄, slack, penalty, hslack, hs₁, hs₂, hs₃, hpair.symm, ?_⟩
  unfold attachSlack
  dsimp only
  rw [← hslack, ← hs₁, ← hs₂, ← hs₃]
  unfold penaltyOf at hpair
  rw [← hpair]

namespace SlackStages

variable {s s₁ s₂ s₃ s₄ : Spec α} {id : ConstraintId} {c : Constraint α} {a : α}
  {slack : VariableId} {penalty : ConstraintId}

theorem tidy₁ (h : s.SlackStages id c a s₁ s₂ s₃ s₄ slack penalty) (hs : s.Tidy) : s₁.Tidy :=
  h.inserted ▸ (s.evolves_insertVariable _).tidy hs

theorem tidy₂ (h : s.SlackStages id c a s₁ s₂ s₃ s₄ slack penalty) (hs : s.Tidy) : s₂.Tidy :=
  h.ranged ▸ (evolves_applyRange _ _ _ _).tidy (h.tidy₁ hs)

theorem tidy₃ (h : s.SlackStages id c a s₁ s₂ s₃ s₄ slack penalty) (hs : s.Tidy) : s₃.Tidy :=
  h.extended ▸ ((evolves_modifyConstraint _ _ _).trans (evolves_retain _ _)).tidy (h.tidy₂ hs)

theorem room₄ (h : s.SlackStages id c a s₁ s₂ s₃ s₄ slack penalty)
    (hroom : (s.attachSlack id c a).Addressable) : s₄.Addressable :=
  (evolves_modifyConstraint _ _ _).addressable (h.linked ▸ hroom)

theorem room₃ (h : s.SlackStages id c a s₁ s₂ s₃ s₄ slack penalty)
    (hroom : (s.attachSlack id c a).Addressable) : s₃.Addressable := by
  refine (evolves_place s₃ (penaltyOf id c slack)).addressable ?_
  rw [h.penalized]
  exact h.room₄ hroom

theorem room₂ (h : s.SlackStages id c a s₁ s₂ s₃ s₄ slack penalty)
    (hroom : (s.attachSlack id c a).Addressable) : s₂.Addressable :=
  ((evolves_modifyConstraint _ _ _).trans (evolves_retain _ _)).addressable
    (h.extended ▸ h.room₃ hroom)

theorem room₁ (h : s.SlackStages id c a s₁ s₂ s₃ s₄ slack penalty)
    (hroom : (s.attachSlack id c a).Addressable) : s₁.Addressable :=
  (evolves_applyRange _ _ _ _).addressable (h.ranged ▸ h.room₂ hroom)

end SlackStages

/-! ### Changing a constraint -/

theorem mutate_eq {s : Spec α} {id : ConstraintId} {c : Constraint α}
    (hc : (s.detach id).getConstraint? id = some c) (change : Constraint α → Constraint α) :
    s.mutate id change = ((((s.detach id).modifyConstraint id change).release c.left).retain
      (change c).left).attach id := by
  unfold mutate
  dsimp only
  rw [hc]

end ElasticLayout.Spec
