import ElasticLayout.Proofs.Registry

/-!
# Who owns what

Internal constraints and slacks are nobody's but their owner's: a bound constraint belongs to the
range of a variable, a slack and the constraint that penalizes it to an elastic constraint.  `Owned`
says so of a registry, in both directions: what is owned is there, and what is there is owned.  A
change of an elastic constraint goes through a state in which its slack has been taken back; the
constraint is pending then.

* `RangeScalar` -- what the default ranges need of the arithmetic;
* `Constraint.IsBound`, `Constraint.IsPenaltyOf`, `Constraint.IsInternal` -- the shapes of internal
  constraints;
* `Constraint.ownTerms`, `Constraint.withSlack` -- an elastic constraint without and with its slack;
* `Registry.RangeKept` -- the ends of a range that are narrowed have their bound constraints, and
  the others have none;
* `Registry.Owns`, `Registry.Owned` -- what an elastic constraint owns, and the invariant;
* `Owned.putPending`, `Owned.settle`, `Owned.relabel` -- constraints of the caller;
* `SlackGiven`, `Owned.attach`, `Owned.detach` -- slacks, given and taken back;
* `RangeChanged`, `Owned.changeRange` -- a variable of the caller with its bound constraints;
  `Owned.putFresh`, `Owned.setRange` and `Owned.removeVariable` are the cases.
-/

namespace ElasticLayout

variable {α : Type} [Scalar α]

/-- What the default ranges need of the arithmetic. -/
class RangeScalar (α : Type) [Scalar α] : Prop where
  /-- Zero is no positive penalty. -/
  zero_not_lt : ¬(0 : α) < 0
  /-- The lower default end is not narrowed. -/
  defaultLower_not_lt : ¬(Variable.defaultLower : α) < Variable.defaultLower
  /-- The upper default end is not narrowed. -/
  defaultUpper_not_lt : ¬(Variable.defaultUpper : α) < Variable.defaultUpper
  /-- The range of a slack is narrowed at its lower end. -/
  defaultLower_lt_zero : (Variable.defaultLower : α) < 0

namespace Constraint

/-- A bound constraint of a variable. -/
structure IsBound (c : Constraint α) (id : VariableId) (relation : Relation) (limit : α) :
    Prop where
  role : c.role = .bound id
  left : c.left = [⟨1, id⟩]
  relation : c.relation = relation
  right : c.right = limit
  penaltyAbove : c.penaltyAbove = 0
  penaltyBelow : c.penaltyBelow = 0
  elastic : c.elastic = none

/-- The constraint that penalizes the slack of an elastic constraint. -/
structure IsPenaltyOf (q : Constraint α) (id : ConstraintId) (c : Constraint α)
    (slack : VariableId) : Prop where
  role : q.role = .slackPenalty id
  left : q.left = [⟨1, slack⟩]
  relation : q.relation = .eq
  right : q.right = 0
  penaltyAbove : q.penaltyAbove = c.penaltyAbove
  penaltyBelow : q.penaltyBelow = c.penaltyBelow
  elastic : q.elastic = none

theorem isSoftInequality_iff {c : Constraint α} :
    c.isSoftInequality = true ↔ c.isSoft = true ∧ c.relation ≠ .eq := by
  simp [isSoftInequality]

theorem isObjectiveTerm_iff {c : Constraint α} :
    c.isObjectiveTerm = true ↔ c.isSoft = true ∧ c.relation = .eq := by
  simp [isObjectiveTerm]

theorem IsBound.isSoft [RangeScalar α] {c : Constraint α} {id : VariableId} {relation : Relation}
    {limit : α} (h : c.IsBound id relation limit) : c.isSoft = false := by
  unfold Constraint.isSoft
  rw [h.penaltyAbove, h.penaltyBelow]
  simp [RangeScalar.zero_not_lt (α := α)]

theorem IsPenaltyOf.isSoft {q c : Constraint α} {id : ConstraintId} {slack : VariableId}
    (h : q.IsPenaltyOf id c slack) : q.isSoft = c.isSoft := by
  unfold Constraint.isSoft
  rw [h.penaltyAbove, h.penaltyBelow]

/-- A constraint that the specification stores on its own behalf. -/
def IsInternal (c : Constraint α) : Prop :=
  (∃ id relation limit, c.IsBound id relation limit) ∨
    ∃ id owner slack, c.IsPenaltyOf id owner slack

theorem IsInternal.elastic {c : Constraint α} (h : c.IsInternal) : c.elastic = none := by
  obtain ⟨id, relation, limit, hbound⟩ | ⟨id, owner, slack, hpenalty⟩ := h
  · exact hbound.elastic
  · exact hpenalty.elastic

/-- Its left side is a single variable. -/
theorem IsInternal.left {c : Constraint α} (h : c.IsInternal) : ∃ v, c.left = [⟨1, v⟩] := by
  obtain ⟨id, relation, limit, hbound⟩ | ⟨id, owner, slack, hpenalty⟩ := h
  · exact ⟨id, hbound.left⟩
  · exact ⟨slack, hpenalty.left⟩

/-- Bound constraints are hard, and what penalizes a slack is an equality. -/
theorem IsInternal.isSoftInequality [RangeScalar α] {c : Constraint α} (h : c.IsInternal) :
    c.isSoftInequality = false := by
  unfold Constraint.isSoftInequality
  obtain ⟨id, relation, limit, hbound⟩ | ⟨id, owner, slack, hpenalty⟩ := h
  · rw [hbound.isSoft, Bool.false_and]
  · rw [hpenalty.relation]
    exact Bool.and_false _

section OwnTerms

omit [Scalar α]

/-- The left side as the caller gave it, without the slack. -/
def ownTerms (c : Constraint α) : List (Summand α) :=
  match c.elastic with
  | none => c.left
  | some e => c.left.filter (·.var != e.slack)

theorem ownTerms_of_rigid {c : Constraint α} (h : c.elastic = none) : c.ownTerms = c.left := by
  unfold ownTerms
  rw [h]

theorem ownTerms_of_elastic {c : Constraint α} {e : Elastic α} (h : c.elastic = some e) :
    c.ownTerms = c.left.filter (·.var != e.slack) := by
  unfold ownTerms
  rw [h]

theorem mem_ownTerms_subset {c : Constraint α} {term : Summand α} (h : term ∈ c.ownTerms) :
    term ∈ c.left := by
  unfold ownTerms at h
  split at h
  · exact h
  · exact (List.mem_filter.1 h).1

/-- The slack is none of the variables that the caller mentions. -/
theorem ne_slack_of_mem_ownTerms {c : Constraint α} {e : Elastic α} (h : c.elastic = some e)
    {term : Summand α} (hterm : term ∈ c.ownTerms) : term.var ≠ e.slack := by
  rw [ownTerms_of_elastic h] at hterm
  simpa using (List.mem_filter.1 hterm).2

/-- The constraint as the caller gave it. -/
def shown (c : Constraint α) : Constraint α := { c with left := c.ownTerms, elastic := none }

theorem shown_of_rigid {c : Constraint α} (h : c.elastic = none) : c.shown = c := by
  unfold shown
  rw [ownTerms_of_rigid h, ← h]

end OwnTerms

/-- The elastic constraint with a slack, made of the constraint without. -/
def withSlack (c : Constraint α) (e : Elastic α) : Constraint α :=
  { c with left := c.left ++ [⟨e.coefficient, e.slack⟩], elastic := some e }

end Constraint

namespace Registry

/-- An end of a range has a bound constraint if it is narrowed, and only then. -/
def EndKept (r : Registry α) (id : VariableId) (handle : Option ConstraintId) (relation : Relation)
    (limit : α) (needed : Prop) : Prop :=
  (handle.isSome = true ↔ needed) ∧
    ∀ k, handle = some k → ∃ c, r.constraint? k = some c ∧ c.IsBound id relation limit

/-- Both ends of a range are kept. -/
structure RangeKept (r : Registry α) (id : VariableId) (x : Extent α) : Prop where
  lower : r.EndKept id x.lowerBound .ge x.lower (Variable.defaultLower < x.lower)
  upper : r.EndKept id x.upperBound .le x.upper (x.upper < Variable.defaultUpper)

/-- What keeps the bound constraints of a variable keeps its range. -/
theorem EndKept.mono {r t : Registry α} {v : VariableId} {handle : Option ConstraintId}
    {relation : Relation} {limit : α} {needed : Prop}
    (h : r.EndKept v handle relation limit needed)
    (hkept : ∀ j d relation limit, r.constraint? j = some d → d.IsBound v relation limit →
      ∃ d', t.constraint? j = some d' ∧ d'.IsBound v relation limit) :
    t.EndKept v handle relation limit needed := by
  refine ⟨h.1, fun j hj => ?_⟩
  obtain ⟨d, hd, hbound⟩ := h.2 j hj
  exact hkept j d relation limit hd hbound

theorem RangeKept.mono {r t : Registry α} {v : VariableId} {x : Extent α} (h : r.RangeKept v x)
    (hkept : ∀ j d relation limit, r.constraint? j = some d → d.IsBound v relation limit →
      ∃ d', t.constraint? j = some d' ∧ d'.IsBound v relation limit) :
    t.RangeKept v x :=
  ⟨h.lower.mono hkept, h.upper.mono hkept⟩

/-- The bound constraints of a range. -/
theorem RangeKept.isBound_of_mem {r : Registry α} {v : VariableId} {x : Extent α}
    (h : r.RangeKept v x) {k : ConstraintId} (hk : k ∈ x.bounds) :
    ∃ c relation limit, r.constraint? k = some c ∧ c.IsBound v relation limit := by
  rcases Extent.mem_bounds.1 hk with hk | hk
  · obtain ⟨c, hc, hbound⟩ := h.lower.2 k hk
    exact ⟨c, _, _, hc, hbound⟩
  · obtain ⟨c, hc, hbound⟩ := h.upper.2 k hk
    exact ⟨c, _, _, hc, hbound⟩

theorem RangeKept.isBound {r : Registry α} {v : VariableId} {x : Extent α}
    (h : r.RangeKept v x) {k : ConstraintId} {c : Constraint α} (hk : k ∈ x.bounds)
    (hc : r.constraint? k = some c) : ∃ relation limit, c.IsBound v relation limit := by
  obtain ⟨d, relation, limit, hd, hbound⟩ := h.isBound_of_mem hk
  obtain rfl := Option.some.inj (hc.symm.trans hd)
  exact ⟨relation, limit, hbound⟩

/-- No constraint bounds a range at both ends: the ends compare in opposite ways. -/
theorem RangeKept.lowerBound_ne {r : Registry α} {v : VariableId} {x : Extent α}
    (h : r.RangeKept v x) {k : ConstraintId} (hk : x.upperBound = some k) :
    x.lowerBound ≠ some k := by
  intro hk'
  obtain ⟨c, hc, hlower⟩ := h.lower.2 k hk'
  obtain ⟨d, hd, hupper⟩ := h.upper.2 k hk
  obtain rfl := Option.some.inj (hc.symm.trans hd)
  exact absurd (hlower.relation.symm.trans hupper.relation) (by simp)

/-- A fresh variable has no bound constraint, and needs none. -/
theorem RangeKept.fresh [RangeScalar α] (r : Registry α) (v : VariableId)
    (label : Option String) (isSlack : Bool) :
    r.RangeKept v (Variable.fresh label isSlack : Variable α).extent where
  lower := ⟨iff_of_false (by simp [Variable.fresh, Variable.extent])
    RangeScalar.defaultLower_not_lt, by simp [Variable.fresh, Variable.extent]⟩
  upper := ⟨iff_of_false (by simp [Variable.fresh, Variable.extent])
    RangeScalar.defaultUpper_not_lt, by simp [Variable.fresh, Variable.extent]⟩

/-- A slack has one bound constraint, for its lower end. -/
theorem RangeKept.slack_bounds [RangeScalar α] {r : Registry α} {v : VariableId} {x : Extent α}
    (h : r.RangeKept v x) (hlower : x.lower = 0) (hupper : x.upper = Variable.slackUpper) :
    ∃ b, x.lowerBound = some b ∧ x.upperBound = none := by
  have hsome : x.lowerBound.isSome = true := by
    rw [h.lower.1, hlower]
    exact RangeScalar.defaultLower_lt_zero
  have hnone : ¬x.upperBound.isSome = true := by
    rw [h.upper.1, hupper]
    exact RangeScalar.defaultUpper_not_lt
  obtain ⟨b, hb⟩ := Option.isSome_iff_exists.1 hsome
  exact ⟨b, hb, by simpa using hnone⟩

/-- What an elastic constraint looks like, and what it owns. -/
structure Owns (r : Registry α) (k : ConstraintId) (c : Constraint α) (e : Elastic α) : Prop where
  role : c.role = .user
  isSoftInequality : c.isSoftInequality = true
  coefficient : c.relation.slackCoefficient? = some e.coefficient
  left : c.left = c.ownTerms ++ [⟨e.coefficient, e.slack⟩]
  slack : ∃ x, r.extent? e.slack = some x ∧ x.isSlack = true ∧ x.lower = 0 ∧
    x.upper = Variable.slackUpper
  penalty : ∃ q, r.constraint? e.penalty = some q ∧ q.IsPenaltyOf k c e.slack

/-- What keeps the slack and the constraint that penalizes it keeps what is owned. -/
theorem Owns.mono {r t : Registry α} {k : ConstraintId} {c : Constraint α} {e : Elastic α}
    (h : r.Owns k c e)
    (hslack : ∀ x, r.extent? e.slack = some x → x.isSlack = true → t.extent? e.slack = some x)
    (hpenalty : ∀ q, r.constraint? e.penalty = some q → q.role = .slackPenalty k →
      t.constraint? e.penalty = some q) : t.Owns k c e := by
  obtain ⟨x, hx, hx'⟩ := h.slack
  obtain ⟨q, hq, hq'⟩ := h.penalty
  exact { h with
    slack := ⟨x, hslack x hx hx'.1, hx'⟩
    penalty := ⟨q, hpenalty q hq hq'.role, hq'⟩ }

/-- All internal constraints and all slacks have their owners.  A constraint that is pending is
one of the caller whose slack has been taken back, or has not been given yet. -/
structure Owned (r : Registry α) (pending : Option ConstraintId) : Prop where
  range : ∀ v x, r.extent? v = some x → r.RangeKept v x
  bound : ∀ k c v, r.constraint? k = some c → c.role = .bound v →
    ∃ x, r.extent? v = some x ∧ (x.lowerBound = some k ∨ x.upperBound = some k)
  owns : ∀ k c e, r.constraint? k = some c → c.elastic = some e → r.Owns k c e
  own : ∀ k c, r.constraint? k = some c → c.role = .user → ∀ term ∈ c.ownTerms,
    ∃ x, r.extent? term.var = some x ∧ x.isSlack = false
  penalty_owner : ∀ p q k, r.constraint? p = some q → q.role = .slackPenalty k →
    ∃ c e, r.constraint? k = some c ∧ c.elastic = some e ∧ e.penalty = p
  slack_owner : ∀ v x, r.extent? v = some x → x.isSlack = true →
    ∃ k c e, r.constraint? k = some c ∧ c.elastic = some e ∧ e.slack = v
  slack_unique : ∀ k c e k' c' e', r.constraint? k = some c → c.elastic = some e →
    r.constraint? k' = some c' → c'.elastic = some e' → e.slack = e'.slack → k = k'
  rigid : ∀ k c, r.constraint? k = some c → c.role = .user → c.isSoftInequality = true →
    pending ≠ some k → c.elastic.isSome = true
  pending_rigid : ∀ k c, r.constraint? k = some c → pending = some k →
    c.role = .user ∧ c.elastic = none
  resumed : ∀ k c, r.constraint? k = some c → c.isSuspended = false

namespace Owned

variable {r : Registry α} {p : Option ConstraintId}

/-- A constraint that bounds a variable has the shape of one. -/
theorem isBound_of_role (h : r.Owned p) {k : ConstraintId} {c : Constraint α} {v : VariableId}
    (hk : r.constraint? k = some c) (hrole : c.role = .bound v) :
    ∃ relation limit, c.IsBound v relation limit := by
  obtain ⟨x, hx, hmem⟩ := h.bound k c v hk hrole
  exact (h.range v x hx).isBound (Extent.mem_bounds.2 hmem) hk

/-- A constraint that penalizes a slack has the shape of one. -/
theorem isPenaltyOf_of_role (h : r.Owned p) {k i : ConstraintId} {q : Constraint α}
    (hq : r.constraint? i = some q) (hrole : q.role = .slackPenalty k) :
    ∃ c e, r.constraint? k = some c ∧ c.elastic = some e ∧ e.penalty = i ∧ r.Owns k c e ∧
      q.IsPenaltyOf k c e.slack := by
  obtain ⟨c, e, hk, he, rfl⟩ := h.penalty_owner i q k hq hrole
  have howns := h.owns k c e hk he
  obtain ⟨q', hq', hpenalty⟩ := howns.penalty
  obtain rfl := Option.some.inj (hq.symm.trans hq')
  exact ⟨c, e, hk, he, rfl, howns, hpenalty⟩

/-- What is not of the caller is internal. -/
theorem isInternal_of_role (h : r.Owned p) {k : ConstraintId} {c : Constraint α}
    (hc : r.constraint? k = some c) (hrole : c.role ≠ .user) : c.IsInternal := by
  cases hof : c.role with
  | user => exact absurd hof hrole
  | bound v =>
    obtain ⟨relation, limit, hbound⟩ := h.isBound_of_role hc hof
    exact .inl ⟨v, relation, limit, hbound⟩
  | slackPenalty i =>
    obtain ⟨d, e, -, -, -, -, hpenalty⟩ := h.isPenaltyOf_of_role hc hof
    exact .inr ⟨i, d, e.slack, hpenalty⟩

/-- The slack of an elastic constraint is live. -/
theorem slack_ne (h : r.Owned p) {k : ConstraintId} {c : Constraint α} {e : Elastic α}
    (hk : r.constraint? k = some c) (he : c.elastic = some e) {v : VariableId}
    (hv : r.extent? v = none) : e.slack ≠ v := by
  rintro rfl
  obtain ⟨x, hx, -⟩ := (h.owns k c e hk he).slack
  exact absurd (hv.symm.trans hx) (by simp)

/-- A constraint of the caller without slack is put, changed or removed. -/
theorem putPending (h : r.Owned p) {k : ConstraintId} (hp : p = none ∨ p = some k)
    (hold : ∀ c, r.constraint? k = some c → c.role = .user ∧ c.elastic = none)
    {new : Option (Constraint α)}
    (hnew : ∀ c, new = some c → c.role = .user ∧ c.elastic = none ∧ c.isSuspended = false ∧
      ∀ term ∈ c.left, ∃ x, r.extent? term.var = some x ∧ x.isSlack = false) :
    (r.putConstraint k new).Owned (some k) where
  range := by
    intro w x hx
    exact (h.range w x hx).mono fun j d _ _ hd hbound => ⟨d, by grind [hbound.role], hbound⟩
  bound := by
    intro j c w hj hrole
    have hb := h.bound j c w
    grind
  owns := by
    intro j c e hj he
    have hjk : j ≠ k := by grind
    exact (h.owns j c e (by grind) he).mono (fun _ hx _ => hx) fun q hq hrole => by grind
  own := by
    intro j c hj hrole term hterm
    have ho := h.own j c
    grind [Constraint.ownTerms]
  penalty_owner := by
    intro i q j hi hq
    have ho := h.penalty_owner i q j
    grind
  slack_owner := by
    intro w x hx hx'
    obtain ⟨j, c, e, hj, hc, he⟩ := h.slack_owner w x hx hx'
    exact ⟨j, c, e, by grind, hc, he⟩
  slack_unique := by
    intro j c e j' c' e' hj he hj' he' heq
    have hu := h.slack_unique j c e j' c' e'
    grind
  rigid := by
    intro j c hj hrole hsoft hpending
    have hr := h.rigid j c
    grind
  pending_rigid := by grind
  resumed := by
    intro j c hj
    have hr := h.resumed j c
    grind

/-- A constraint need not be pending if it is no soft inequality. -/
theorem settle {k : ConstraintId} (h : r.Owned (some k))
    (hk : ∀ c, r.constraint? k = some c → c.isSoftInequality = false) : r.Owned none where
  range := h.range
  bound := h.bound
  owns := h.owns
  own := h.own
  penalty_owner := h.penalty_owner
  slack_owner := h.slack_owner
  slack_unique := h.slack_unique
  rigid := by
    intro j c hj hrole hsoft _
    have hr := h.rigid j c hj hrole hsoft
    grind
  pending_rigid := by simp
  resumed := h.resumed

end Owned

/-! ### Slacks -/

/-- Two registries that differ by the slack of one constraint. -/
structure SlackGiven (r t : Registry α) (k : ConstraintId) (c : Constraint α) (e : Elastic α)
    (b : ConstraintId) : Prop where
  before : r.constraint? k = some c
  after : t.constraint? k = some (c.withSlack e)
  no_slack : r.extent? e.slack = none
  slack : t.extent? e.slack = some ⟨0, Variable.slackUpper, some b, none, true⟩
  no_bound : r.constraint? b = none
  bound : ∃ q, t.constraint? b = some q ∧ q.IsBound e.slack .ge 0 ∧ q.isSuspended = false
  no_penalty : r.constraint? e.penalty = none
  penalty : ∃ q, t.constraint? e.penalty = some q ∧ q.IsPenaltyOf k c e.slack ∧
    q.isSuspended = false
  extents : ∀ w, w ≠ e.slack → t.extent? w = r.extent? w
  constraints : ∀ j, j ≠ k → j ≠ b → j ≠ e.penalty → t.constraint? j = r.constraint? j

namespace SlackGiven

variable {r t : Registry α} {k b : ConstraintId} {c : Constraint α} {e : Elastic α}

theorem constraint_of_before (g : r.SlackGiven t k c e b) {j : ConstraintId} {d : Constraint α}
    (hj : r.constraint? j = some d) (hjk : j ≠ k) : t.constraint? j = some d := by
  rw [g.constraints j hjk (by grind [g.no_bound]) (by grind [g.no_penalty])]
  exact hj

/-- Internal constraints stay. -/
theorem internal_of_before (g : r.SlackGiven t k c e b) (hc : c.role = .user) {j : ConstraintId}
    {d : Constraint α} (hj : r.constraint? j = some d) (hd : d.role ≠ .user) :
    t.constraint? j = some d :=
  g.constraint_of_before hj (by grind [g.before])

/-- Other elastic constraints stay. -/
theorem elastic_of_before (g : r.SlackGiven t k c e b) (hc : c.elastic = none) {j : ConstraintId}
    {d : Constraint α} {e' : Elastic α} (hj : r.constraint? j = some d)
    (he' : d.elastic = some e') : t.constraint? j = some d :=
  g.constraint_of_before hj (by grind [g.before])

theorem extent_of_before (g : r.SlackGiven t k c e b) {w : VariableId} {x : Extent α}
    (hw : r.extent? w = some x) : t.extent? w = some x := by
  rw [g.extents w (by grind [g.no_slack])]
  exact hw

theorem extent_of_after (g : r.SlackGiven t k c e b) {w : VariableId} {x : Extent α}
    (hw : t.extent? w = some x) (hne : w ≠ e.slack) : r.extent? w = some x :=
  (g.extents w hne).symm.trans hw

/-- The constraint, the bound constraint of its slack and the penalty are three constraints. -/
theorem distinct (g : r.SlackGiven t k c e b) : b ≠ k ∧ e.penalty ≠ k ∧ b ≠ e.penalty := by
  have hlive : r.constraint? k ≠ none := by simp [g.before]
  refine ⟨fun heq => hlive (heq ▸ g.no_bound), fun heq => hlive (heq ▸ g.no_penalty),
    fun heq => ?_⟩
  obtain ⟨q, hq, hpenalty, -⟩ := g.penalty
  obtain ⟨d, hd, hbound, -⟩ := g.bound
  rw [heq, hq, Option.some.injEq] at hd
  have hrole := hpenalty.role
  rw [hd, hbound.role] at hrole
  exact absurd hrole (by simp)

theorem constraint_cases (g : r.SlackGiven t k c e b) {j : ConstraintId} {d : Constraint α}
    (hj : t.constraint? j = some d) :
    j = k ∧ d = c.withSlack e ∨
      j = b ∧ d.IsBound e.slack .ge 0 ∧ d.isSuspended = false ∨
      j = e.penalty ∧ d.IsPenaltyOf k c e.slack ∧ d.isSuspended = false ∨
      j ≠ k ∧ r.constraint? j = some d := by
  by_cases hjk : j = k
  · exact .inl ⟨hjk, by grind [g.after]⟩
  by_cases hjb : j = b
  · obtain ⟨q, hq, hbound⟩ := g.bound
    grind
  by_cases hjp : j = e.penalty
  · obtain ⟨q, hq, hpenalty⟩ := g.penalty
    grind
  · exact .inr (.inr (.inr ⟨hjk, by rw [← g.constraints j hjk hjb hjp]; exact hj⟩))

/-- A constraint of the caller is the one that got the slack, or was there before. -/
theorem user_cases (g : r.SlackGiven t k c e b) {j : ConstraintId} {d : Constraint α}
    (hj : t.constraint? j = some d) (hrole : d.role = .user) :
    j = k ∧ d = c.withSlack e ∨ j ≠ k ∧ r.constraint? j = some d := by
  obtain hk | ⟨-, hbound, -⟩ | ⟨-, hpenalty, -⟩ | hother := g.constraint_cases hj
  · exact .inl hk
  · grind [hbound.role]
  · grind [hpenalty.role]
  · exact .inr hother

/-- Internal constraints that do not belong to the slack were there before. -/
theorem internal_of_after (g : r.SlackGiven t k c e b) (hc : c.role = .user) {j : ConstraintId}
    {d : Constraint α} (hj : t.constraint? j = some d) (huser : d.role ≠ .user)
    (hslack : d.role ≠ .bound e.slack) (hother : d.role ≠ .slackPenalty k) :
    r.constraint? j = some d := by
  obtain ⟨-, rfl⟩ | ⟨-, hbound, -⟩ | ⟨-, hpenalty, -⟩ | ⟨-, hj'⟩ := g.constraint_cases hj
  · exact absurd hc huser
  · exact absurd hbound.role hslack
  · exact absurd hpenalty.role hother
  · exact hj'

theorem extent_cases (g : r.SlackGiven t k c e b) {w : VariableId} {x : Extent α}
    (hw : t.extent? w = some x) :
    w = e.slack ∧ x = ⟨0, Variable.slackUpper, some b, none, true⟩ ∨ r.extent? w = some x := by
  by_cases hslack : w = e.slack
  · exact .inl ⟨hslack, by grind [g.slack]⟩
  · exact .inr (by rw [← g.extents w hslack]; exact hw)

theorem elastic_cases (g : r.SlackGiven t k c e b) {j : ConstraintId} {d : Constraint α}
    {e' : Elastic α} (hj : t.constraint? j = some d) (he' : d.elastic = some e') :
    j = k ∧ e' = e ∨ j ≠ k ∧ r.constraint? j = some d := by
  obtain ⟨hjk, rfl⟩ | ⟨-, hbound, -⟩ | ⟨-, hpenalty, -⟩ | hother := g.constraint_cases hj
  · exact .inl ⟨hjk, (Option.some.inj he').symm⟩
  · grind [hbound.elastic]
  · grind [hpenalty.elastic]
  · exact .inr hother

/-- The slack has its bound constraint. -/
theorem rangeKept [RangeScalar α] (g : r.SlackGiven t k c e b) :
    t.RangeKept e.slack ⟨0, Variable.slackUpper, some b, none, true⟩ where
  lower := by
    obtain ⟨q, hq, hbound, -⟩ := g.bound
    refine ⟨by simpa using RangeScalar.defaultLower_lt_zero (α := α), ?_⟩
    rintro j ⟨⟩
    exact ⟨q, hq, hbound⟩
  upper := ⟨iff_of_false (by simp) RangeScalar.defaultUpper_not_lt, by simp⟩

end SlackGiven

namespace Owned

variable {r t : Registry α} {k b : ConstraintId} {c : Constraint α} {e : Elastic α}

/-- The summands of the caller do not mention a slack that is not there yet. -/
theorem ownTerms_withSlack (h : r.Owned (some k)) (g : r.SlackGiven t k c e b) :
    (c.withSlack e).ownTerms = c.left := by
  obtain ⟨hrole, helastic⟩ := h.pending_rigid k c g.before rfl
  have hleft := Constraint.ownTerms_of_rigid helastic
  have hne : ∀ term ∈ c.left, term.var ≠ e.slack := by
    intro term hterm heq
    obtain ⟨x, hx, -⟩ := h.own k c g.before hrole term (by rw [hleft]; exact hterm)
    have hnone := g.no_slack
    rw [heq] at hx
    grind
  show (c.left ++ [_]).filter _ = c.left
  rw [List.filter_append, List.filter_eq_self.2 (by simpa using hne)]
  simp

/-- **A pending soft inequality gets its slack.** -/
theorem attach [RangeScalar α] (h : r.Owned (some k)) (g : r.SlackGiven t k c e b)
    (hsoft : c.isSoftInequality = true)
    (ha : c.relation.slackCoefficient? = some e.coefficient) : t.Owned none := by
  obtain ⟨hrole, helastic⟩ := h.pending_rigid k c g.before rfl
  exact {
    range := by
      intro w x hx
      obtain ⟨rfl, rfl⟩ | hx' := g.extent_cases hx
      · exact g.rangeKept
      · exact (h.range w x hx').mono fun j d _ _ hd hbound =>
          ⟨d, g.internal_of_before hrole hd (by simp [hbound.role]), hbound⟩
    bound := by
      intro j d w hj hdrole
      obtain ⟨rfl, rfl⟩ | ⟨rfl, hbound, -⟩ | ⟨rfl, hpenalty, -⟩ | ⟨hjk, hj'⟩ :=
        g.constraint_cases hj
      · grind [Constraint.withSlack]
      · obtain rfl : w = e.slack := by grind [hbound.role]
        exact ⟨_, g.slack, .inl rfl⟩
      · grind [hpenalty.role]
      · obtain ⟨x, hx, hmem⟩ := h.bound j d w hj' hdrole
        exact ⟨x, g.extent_of_before hx, hmem⟩
    owns := by
      intro j d e' hj he'
      obtain ⟨rfl, rfl⟩ | ⟨hjk, hj'⟩ := g.elastic_cases hj he'
      · obtain rfl := Option.some.inj (g.after.symm.trans hj)
        obtain ⟨q, hq, hpenalty, -⟩ := g.penalty
        exact {
          role := hrole
          isSoftInequality := hsoft
          coefficient := ha
          left := by rw [h.ownTerms_withSlack g]; rfl
          slack := ⟨_, g.slack, rfl, rfl, rfl⟩
          penalty := ⟨q, hq, { hpenalty with }⟩ }
      · exact (h.owns j d e' hj' he').mono (fun x hx _ => g.extent_of_before hx)
          fun q hq hq' => g.internal_of_before hrole hq (by simp [hq'])
    own := by
      intro j d hj hdrole term hterm
      have hown : ∃ x, r.extent? term.var = some x ∧ x.isSlack = false := by
        obtain ⟨rfl, rfl⟩ | ⟨-, hj'⟩ := g.user_cases hj hdrole
        · rw [h.ownTerms_withSlack g] at hterm
          exact h.own j c g.before hrole term (by grind [Constraint.ownTerms])
        · exact h.own j d hj' hdrole term hterm
      obtain ⟨x, hx, hslack⟩ := hown
      exact ⟨x, g.extent_of_before hx, hslack⟩
    penalty_owner := by
      intro i q j hi hq
      obtain ⟨rfl, rfl⟩ | ⟨rfl, hbound, -⟩ | ⟨rfl, hpenalty, -⟩ | ⟨hik, hi'⟩ :=
        g.constraint_cases hi
      · grind [Constraint.withSlack]
      · grind [hbound.role]
      · obtain rfl : k = j := by grind [hpenalty.role]
        exact ⟨_, e, g.after, rfl, rfl⟩
      · obtain ⟨d, e', hj, he', hp⟩ := h.penalty_owner i q j hi' hq
        exact ⟨d, e', g.elastic_of_before helastic hj he', he', hp⟩
    slack_owner := by
      intro w x hx hslack
      obtain ⟨rfl, rfl⟩ | hx' := g.extent_cases hx
      · exact ⟨k, _, e, g.after, rfl, rfl⟩
      · obtain ⟨j, d, e', hj, he', hw⟩ := h.slack_owner w x hx' hslack
        exact ⟨j, d, e', g.elastic_of_before helastic hj he', he', hw⟩
    slack_unique := by
      intro j d e₁ j' d' e₂ hj he₁ hj' he₂ heq
      obtain ⟨rfl, rfl⟩ | ⟨hjk, hd⟩ := g.elastic_cases hj he₁ <;>
        obtain ⟨rfl, rfl⟩ | ⟨hjk', hd'⟩ := g.elastic_cases hj' he₂
      · rfl
      · exact absurd heq.symm (h.slack_ne hd' he₂ g.no_slack)
      · exact absurd heq (h.slack_ne hd he₁ g.no_slack)
      · exact h.slack_unique j d e₁ j' d' e₂ hd he₁ hd' he₂ heq
    rigid := by
      intro j d hj hdrole hsoft' _
      obtain ⟨rfl, rfl⟩ | ⟨hjk, hj'⟩ := g.user_cases hj hdrole
      · rfl
      · exact h.rigid j d hj' hdrole hsoft' (by grind)
    pending_rigid := by simp
    resumed := by
      intro j d hj
      obtain ⟨rfl, rfl⟩ | ⟨rfl, -, hd⟩ | ⟨rfl, -, hd⟩ | ⟨hjk, hj'⟩ := g.constraint_cases hj
      · exact h.resumed j c g.before
      · exact hd
      · exact hd
      · exact h.resumed j d hj' }

/-- **An elastic constraint gives its slack back.** -/
theorem detach [RangeScalar α] (h : t.Owned none) (g : r.SlackGiven t k c e b)
    (hleft : ∀ term ∈ c.left, term.var ≠ e.slack) (hc : c.elastic = none) :
    r.Owned (some k) := by
  have hk := h.owns k _ e g.after rfl
  have hrole : c.role = .user := hk.role
  -- No other elastic constraint has this slack.
  have hslack_ne : ∀ {j d e'}, r.constraint? j = some d → d.elastic = some e' → j ≠ k ∧
      e'.slack ≠ e.slack := by
    intro j d e' hj he'
    have hjk : j ≠ k := by grind [g.before]
    exact ⟨hjk, fun heq =>
      hjk (h.slack_unique j d e' k _ e (g.constraint_of_before hj hjk) he' g.after rfl heq)⟩
  exact {
    range := by
      intro w x hx
      have hw : w ≠ e.slack := by grind [g.no_slack]
      exact (h.range w x (g.extent_of_before hx)).mono fun j d _ _ hd hbound =>
        ⟨d, g.internal_of_after hrole hd (by simp [hbound.role]) (by simpa [hbound.role] using hw)
          (by simp [hbound.role]), hbound⟩
    bound := by
      intro j d w hj hdrole
      obtain ⟨x, hx, hmem⟩ := h.bound j d w
        (g.internal_of_before hrole hj (by simp [hdrole])) hdrole
      refine ⟨x, g.extent_of_after hx ?_, hmem⟩
      rintro rfl
      obtain rfl := Option.some.inj (g.slack.symm.trans hx)
      grind [g.no_bound]
    owns := by
      intro j d e' hj he'
      obtain ⟨hjk, hne⟩ := hslack_ne hj he'
      exact (h.owns j d e' (g.elastic_of_before hc hj he') he').mono
        (fun x hx _ => g.extent_of_after hx hne)
        fun q hq hq' => g.internal_of_after hrole hq (by simp [hq']) (by simp [hq'])
          (by simpa [hq'] using hjk)
    own := by
      intro j d hj hdrole term hterm
      obtain ⟨x, hx, hx'⟩ : ∃ x, t.extent? term.var = some x ∧ x.isSlack = false := by
        by_cases hjk : j = k
        · obtain rfl : d = c := by grind [g.before]
          refine h.own k _ g.after hrole term ?_
          have hterm' : term ∈ d.left := by grind [Constraint.ownTerms]
          show term ∈ (d.left ++ [_]).filter _
          simpa using ⟨hterm', hleft term hterm'⟩
        · exact h.own j d (g.constraint_of_before hj hjk) hdrole term hterm
      refine ⟨x, g.extent_of_after hx ?_, hx'⟩
      rintro heq
      grind [g.slack]
    penalty_owner := by
      intro i q j hi hq
      obtain ⟨d, e', hj, he', hp⟩ := h.penalty_owner i q j
        (g.internal_of_before hrole hi (by simp [hq])) hq
      obtain ⟨rfl, rfl⟩ | ⟨-, hd⟩ := g.elastic_cases hj he'
      · grind [g.no_penalty]
      · exact ⟨d, e', hd, he', hp⟩
    slack_owner := by
      intro w x hx hslack
      obtain ⟨j, d, e', hj, he', hw⟩ := h.slack_owner w x (g.extent_of_before hx) hslack
      obtain ⟨rfl, rfl⟩ | ⟨-, hd⟩ := g.elastic_cases hj he'
      · grind [g.no_slack]
      · exact ⟨j, d, e', hd, he', hw⟩
    slack_unique := by
      intro j d e₁ j' d' e₂ hj he₁ hj' he₂ heq
      exact h.slack_unique j d e₁ j' d' e₂ (g.elastic_of_before hc hj he₁) he₁
        (g.elastic_of_before hc hj' he₂) he₂ heq
    rigid := by
      intro j d hj hdrole hsoft hne
      exact h.rigid j d (g.constraint_of_before hj (by grind)) hdrole hsoft (by simp)
    pending_rigid := by
      intro j d hj hjk
      grind [g.before]
    resumed := by
      intro j d hj
      by_cases hjk : j = k
      · obtain rfl : d = c := by grind [g.before]
        show (d.withSlack e).isSuspended = false
        exact h.resumed k _ g.after
      · exact h.resumed j d (g.constraint_of_before hj hjk) }

end Owned

/-! ### Ranges -/

/-- Two registries that differ by one end of a range. -/
structure EndSynced (r t : Registry α) (v : VariableId) (old new : Option ConstraintId)
    (relation : Relation) (limit : α) (needed : Prop) : Prop where
  extents : t.extent? = r.extent?
  kept : t.EndKept v new relation limit needed
  resumed : ∀ k c, new = some k → t.constraint? k = some c → c.isSuspended = false
  gone : ∀ k, old = some k → new ≠ some k → t.constraint? k = none
  fresh : ∀ k, new = some k → old = some k ∨ r.constraint? k = none
  others : ∀ k, old ≠ some k → new ≠ some k → t.constraint? k = r.constraint? k

namespace EndSynced

variable {r : Registry α} {v : VariableId} {old : Option ConstraintId} {k : ConstraintId}
  {relation : Relation} {limit : α} {needed : Prop}

/-- The end is narrowed: a bound constraint is made, or the one that is there is changed. -/
theorem put {c : Constraint α} (hold : old = some k ∨ old = none ∧ r.constraint? k = none)
    (hbound : c.IsBound v relation limit) (hresumed : c.isSuspended = false) (hneeded : needed) :
    r.EndSynced (r.putConstraint k (some c)) v old (some k) relation limit needed where
  extents := rfl
  kept := by
    refine ⟨iff_of_true rfl hneeded, ?_⟩
    rintro j ⟨⟩
    exact ⟨c, by simp, hbound⟩
  resumed := by grind
  gone := by grind
  fresh := by grind
  others := by grind

/-- The end is not narrowed any more. -/
theorem erased (hneeded : ¬needed) :
    r.EndSynced (r.putConstraint k none) v (some k) none relation limit needed where
  extents := rfl
  kept := ⟨iff_of_false (by simp) hneeded, by simp⟩
  resumed := by simp
  gone := by grind
  fresh := by simp
  others := by grind

/-- The end has not been narrowed, and is not now. -/
theorem unbound (hneeded : ¬needed) : r.EndSynced r v none none relation limit needed where
  extents := rfl
  kept := ⟨iff_of_false (by simp) hneeded, by simp⟩
  resumed := by simp
  gone := by simp
  fresh := by simp
  others := fun _ _ _ => rfl

end EndSynced

/-- Two registries that differ by the range of one variable. -/
structure RangeSynced (r t : Registry α) (v : VariableId) (x y : Extent α) : Prop where
  extents : ∀ w, t.extent? w = if w = v then some y else r.extent? w
  kept : t.RangeKept v y
  resumed : ∀ k ∈ y.bounds, ∀ c, t.constraint? k = some c → c.isSuspended = false
  gone : ∀ k ∈ x.bounds, k ∉ y.bounds → t.constraint? k = none
  fresh : ∀ k ∈ y.bounds, k ∈ x.bounds ∨ r.constraint? k = none
  others : ∀ k, k ∉ x.bounds → k ∉ y.bounds → t.constraint? k = r.constraint? k

/-- It does not matter which extent the variable had in between. -/
theorem RangeSynced.of_putExtent {r t : Registry α} {v : VariableId} {x y : Extent α}
    {z : Option (Extent α)} (g : (r.putExtent v z).RangeSynced t v x y) :
    r.RangeSynced t v x y where
  extents := by
    intro w
    rw [g.extents, extent?_putExtent]
    split <;> rfl
  kept := g.kept
  resumed := g.resumed
  gone := g.gone
  fresh := g.fresh
  others := g.others

theorem RangeSynced.of_ends {r s t : Registry α} {v : VariableId} {x y : Extent α}
    (hx : r.RangeKept v x)
    (hlower : r.EndSynced s v x.lowerBound y.lowerBound .ge y.lower
      (Variable.defaultLower < y.lower))
    (hupper : s.EndSynced t v x.upperBound y.upperBound .le y.upper
      (y.upper < Variable.defaultUpper)) :
    r.RangeSynced (t.putExtent v (some y)) v x y := by
  -- The handle of the lower end is not one of the upper end: they compare in opposite ways.
  have hne : ∀ k, y.lowerBound = some k → x.upperBound ≠ some k ∧ y.upperBound ≠ some k := by
    intro k hk
    have hxl := hx.lower.2 k
    have hxu := hx.upper.2 k
    have hyl := hlower.kept.2 k hk
    have hfresh := hlower.fresh k hk
    have hfresh' := hupper.fresh k
    grind [Constraint.IsBound]
  exact {
    extents := by
      intro w
      rw [extent?_putExtent, hupper.extents, hlower.extents]
    kept := by
      refine ⟨⟨hlower.kept.1, fun k hk => ?_⟩, hupper.kept⟩
      obtain ⟨c, hc, hbound⟩ := hlower.kept.2 k hk
      have hother := hupper.others k (hne k hk).1 (hne k hk).2
      exact ⟨c, hother.trans hc, hbound⟩
    resumed := by
      intro k hk c hc
      have h1 := hlower.resumed k c
      have h2 := hupper.resumed k c
      have h3 := hupper.others k
      have h4 := hne k
      grind
    gone := by
      intro k hk hk'
      have h1 := hlower.gone k
      have h2 := hupper.gone k
      have h3 := hupper.others k
      grind
    fresh := by
      intro k hk
      have h1 := hlower.fresh k
      have h2 := hupper.fresh k
      have h3 := hlower.others k
      have h4 := hlower.kept.2 k
      grind
    others := by
      intro k hk hk'
      have h1 := hlower.others k
      have h2 := hupper.others k
      grind }

/-- What is live after the change is a bound constraint of the new range, or was live before. -/
theorem RangeSynced.constraint_cases {r t : Registry α} {v : VariableId} {x y : Extent α}
    (g : r.RangeSynced t v x y) {k : ConstraintId} {c : Constraint α}
    (hk : t.constraint? k = some c) : k ∈ y.bounds ∨ k ∉ x.bounds ∧ r.constraint? k = some c := by
  by_cases hy : k ∈ y.bounds
  · exact .inl hy
  · have hx : k ∉ x.bounds := fun hx => absurd ((g.gone k hx hy).symm.trans hk) (by simp)
    exact .inr ⟨hx, (g.others k hx hy).symm.trans hk⟩

/-! ### Variables of the caller -/

/-- Two registries that differ by a variable of the caller and by its bound constraints. -/
structure RangeChanged (r t : Registry α) (v : VariableId) : Prop where
  extents : ∀ w, w ≠ v → t.extent? w = r.extent? w
  constraints : ∀ k c, c.role ≠ .bound v →
    (t.constraint? k = some c ↔ r.constraint? k = some c)
  before : ∀ x, r.extent? v = some x → x.isSlack = false
  after : ∀ y, t.extent? v = some y → y.isSlack = false ∧ t.RangeKept v y
  bound : ∀ k c, t.constraint? k = some c → c.role = .bound v →
    c.isSuspended = false ∧ ∃ y, t.extent? v = some y ∧ k ∈ y.bounds

namespace RangeChanged

variable {r t : Registry α} {v : VariableId}

/-- Slacks stay. -/
theorem slack_iff (g : r.RangeChanged t v) {w : VariableId} {x : Extent α}
    (hx : x.isSlack = true) : t.extent? w = some x ↔ r.extent? w = some x := by
  by_cases hw : w = v
  · rw [hw]
    exact iff_of_false (fun h => by simp [(g.after x h).1] at hx)
      fun h => by simp [g.before x h] at hx
  · rw [g.extents w hw]

/-- An elastic constraint was there before. -/
theorem elastic_of_after (g : r.RangeChanged t v) {k : ConstraintId} {c : Constraint α}
    {e : Elastic α} (hk : t.constraint? k = some c) (he : c.elastic = some e) :
    r.constraint? k = some c := by
  refine (g.constraints k c fun hrole => ?_).1 hk
  obtain ⟨-, y, hy, hmem⟩ := g.bound k c hk hrole
  obtain ⟨_, _, hbound⟩ := (g.after y hy).2.isBound hmem hk
  exact absurd (hbound.elastic.symm.trans he) (by simp)

end RangeChanged

namespace Owned

variable {r t : Registry α}

/-- An elastic constraint stays when the range of a variable is changed. -/
theorem elastic_of_before (h : r.Owned none) {v : VariableId} (g : r.RangeChanged t v)
    {k : ConstraintId} {c : Constraint α} {e : Elastic α} (hk : r.constraint? k = some c)
    (he : c.elastic = some e) : t.constraint? k = some c :=
  (g.constraints k c (by simp [(h.owns k c e hk he).role])).2 hk

/-- **A variable of the caller changes with its bound constraints.**  If it goes, nobody may
mention it. -/
theorem changeRange (h : r.Owned none) {v : VariableId} (g : r.RangeChanged t v)
    (hown : ∀ k c, r.constraint? k = some c → c.role = .user → ∀ term ∈ c.ownTerms,
      term.var = v → ∃ y, t.extent? v = some y) : t.Owned none where
  range := by
    intro w z hz
    by_cases hw : w = v
    · subst hw
      exact (g.after z hz).2
    · exact (h.range w z ((g.extents w hw).symm.trans hz)).mono fun j d _ _ hd hbound =>
        ⟨d, (g.constraints j d (by simpa [hbound.role] using hw)).2 hd, hbound⟩
  bound := by
    intro k c w hk hrole
    by_cases hw : w = v
    · subst hw
      obtain ⟨-, y, hy, hmem⟩ := g.bound k c hk hrole
      exact ⟨y, hy, Extent.mem_bounds.1 hmem⟩
    · have hk' := (g.constraints k c (by simpa [hrole] using hw)).1 hk
      obtain ⟨z, hz, hmem⟩ := h.bound k c w hk' hrole
      exact ⟨z, (g.extents w hw).trans hz, hmem⟩
  owns := by
    intro k c e hk he
    exact (h.owns k c e (g.elastic_of_after hk he) he).mono
      (fun x hx hslack => (g.slack_iff hslack).2 hx)
      fun q hq hrole => (g.constraints _ q (by simp [hrole])).2 hq
  own := by
    intro k c hk hrole term hterm
    have hk' := (g.constraints k c (by simp [hrole])).1 hk
    by_cases hw : term.var = v
    · obtain ⟨y, hy⟩ := hown k c hk' hrole term hterm hw
      exact ⟨y, by rw [hw]; exact hy, (g.after y hy).1⟩
    · obtain ⟨z, hz, hz'⟩ := h.own k c hk' hrole term hterm
      exact ⟨z, (g.extents _ hw).trans hz, hz'⟩
  penalty_owner := by
    intro i q k hi hq
    have hi' := (g.constraints i q (by simp [hq])).1 hi
    obtain ⟨c, e, hk, he, hp⟩ := h.penalty_owner i q k hi' hq
    exact ⟨c, e, h.elastic_of_before g hk he, he, hp⟩
  slack_owner := by
    intro w z hz hslack
    obtain ⟨k, c, e, hk, he, hw⟩ := h.slack_owner w z ((g.slack_iff hslack).1 hz) hslack
    exact ⟨k, c, e, h.elastic_of_before g hk he, he, hw⟩
  slack_unique := by
    intro k c e k' c' e' hk he hk' he' heq
    exact h.slack_unique k c e k' c' e' (g.elastic_of_after hk he) he
      (g.elastic_of_after hk' he') he' heq
  rigid := by
    intro k c hk hrole
    exact h.rigid k c ((g.constraints k c (by simp [hrole])).1 hk) hrole
  pending_rigid := by simp
  resumed := by
    intro k c hk
    by_cases hrole : c.role = .bound v
    · exact (g.bound k c hk hrole).1
    · exact h.resumed k c ((g.constraints k c hrole).1 hk)

/-- A new variable of the caller owns nothing, and nobody owns it. -/
theorem putFresh [RangeScalar α] (h : r.Owned none) {v : VariableId} (hv : r.extent? v = none)
    (label : Option String) :
    (r.putExtent v (some (Variable.fresh label false : Variable α).extent)).Owned none := by
  refine h.changeRange (v := v) {
    extents := fun w hw => by rw [extent?_putExtent, if_neg hw]
    constraints := fun k c _ => Iff.rfl
    before := by simp [hv]
    after := by
      intro y hy
      rw [extent?_putExtent, if_pos rfl] at hy
      obtain rfl := Option.some.inj hy
      exact ⟨rfl, RangeKept.fresh _ v label false⟩
    bound := by
      intro k c hk hrole
      obtain ⟨x, hx, -⟩ := h.bound k c v hk hrole
      exact absurd (hv.symm.trans hx) (by simp) } fun k c hk hrole term hterm heq => ?_
  obtain ⟨x, hx, -⟩ := h.own k c hk hrole term hterm
  rw [heq] at hx
  exact absurd (hv.symm.trans hx) (by simp)

/-- **The range of a variable of the caller is set.** -/
theorem setRange (h : r.Owned none) {v : VariableId} {x y : Extent α} (hv : r.extent? v = some x)
    (hslack : x.isSlack = false) (hy : y.isSlack = false) (g : r.RangeSynced t v x y) :
    t.Owned none := by
  have hext : t.extent? v = some y := by rw [g.extents, if_pos rfl]
  refine h.changeRange (v := v) {
    extents := fun w hw => by rw [g.extents, if_neg hw]
    constraints := ?_
    before := by
      intro z hz
      obtain rfl := Option.some.inj (hv.symm.trans hz)
      exact hslack
    after := by
      intro z hz
      obtain rfl := Option.some.inj (hext.symm.trans hz)
      exact ⟨hy, g.kept⟩
    bound := ?_ } fun _ _ _ _ _ _ _ => ⟨y, hext⟩
  · intro k c hrole
    constructor
    · intro hk
      obtain hmem | ⟨-, hk'⟩ := g.constraint_cases hk
      · obtain ⟨_, _, hbound⟩ := g.kept.isBound hmem hk
        exact absurd hbound.role hrole
      · exact hk'
    · intro hk
      have hx : k ∉ x.bounds := by
        intro hmem
        obtain ⟨_, _, hbound⟩ := (h.range v x hv).isBound hmem hk
        exact hrole hbound.role
      have hy' : k ∉ y.bounds := fun hmem => by
        obtain hx' | hnone := g.fresh k hmem
        · exact hx hx'
        · exact absurd (hnone.symm.trans hk) (by simp)
      exact (g.others k hx hy').trans hk
  · intro k c hk hrole
    obtain hmem | ⟨hx, hk'⟩ := g.constraint_cases hk
    · exact ⟨g.resumed k hmem c hk, y, hext, hmem⟩
    · obtain ⟨z, hz, hmem⟩ := h.bound k c v hk' hrole
      obtain rfl := Option.some.inj (hv.symm.trans hz)
      exact absurd (Extent.mem_bounds.2 hmem) hx

/-- **A variable that nobody mentions is removed with its bound constraints.** -/
theorem removeVariable (h : r.Owned none) {v : VariableId} {x : Extent α}
    (hv : r.extent? v = some x) (hslack : x.isSlack = false)
    (hunused : ∀ k c, r.constraint? k = some c → c.role = .user → ∀ term ∈ c.ownTerms,
      term.var ≠ v) :
    ((r.erase x.bounds).putExtent v none).Owned none := by
  refine h.changeRange (v := v) {
    extents := fun w hw => by rw [extent?_putExtent, if_neg hw, extent?_erase]
    constraints := ?_
    before := by
      intro z hz
      obtain rfl := Option.some.inj (hv.symm.trans hz)
      exact hslack
    after := by simp
    bound := ?_ } fun k c hk hrole term hterm heq => absurd heq (hunused k c hk hrole term hterm)
  · intro k c hrole
    rw [constraint?_putExtent, constraint?_erase]
    split
    next hmem =>
      refine iff_of_false (by simp) fun hk => ?_
      obtain ⟨_, _, hbound⟩ := (h.range v x hv).isBound hmem hk
      exact hrole hbound.role
    next => exact Iff.rfl
  · intro k c hk hrole
    rw [constraint?_putExtent, constraint?_erase] at hk
    split at hk
    next => exact absurd hk (by simp)
    next hmem =>
      obtain ⟨z, hz, hmem'⟩ := h.bound k c v hk hrole
      obtain rfl := Option.some.inj (hv.symm.trans hz)
      exact absurd (Extent.mem_bounds.2 hmem') hmem

/-- **A constraint is named.** -/
theorem relabel (h : r.Owned none) {k : ConstraintId} {c : Constraint α}
    (hk : r.constraint? k = some c) (label : Option String) :
    (r.putConstraint k (some { c with label })).Owned none := by
  -- Nothing but the label of one constraint differs.
  have hto : ∀ {j d}, r.constraint? j = some d →
      ∃ l, (r.putConstraint k (some { c with label })).constraint? j
        = some { d with label := l } := by
    intro j d hj
    rw [constraint?_putConstraint]
    by_cases hjk : j = k
    · obtain rfl : c = d := by grind
      exact ⟨label, if_pos hjk⟩
    · exact ⟨d.label, (if_neg hjk).trans hj⟩
  have hof : ∀ {j d}, (r.putConstraint k (some { c with label })).constraint? j = some d →
      ∃ l, r.constraint? j = some { d with label := l } := by
    intro j d hj
    rw [constraint?_putConstraint] at hj
    by_cases hjk : j = k
    · rw [if_pos hjk] at hj
      obtain rfl := Option.some.inj hj
      exact ⟨c.label, hjk ▸ hk⟩
    · exact ⟨d.label, (if_neg hjk).symm.trans hj⟩
  exact {
    range := by
      intro w z hz
      refine (h.range w z hz).mono fun j d _ _ hd hbound => ?_
      obtain ⟨l, hl⟩ := hto hd
      exact ⟨_, hl, { hbound with }⟩
    bound := by
      intro j d w hj hrole
      obtain ⟨l, hl⟩ := hof hj
      exact h.bound j _ w hl hrole
    owns := by
      intro j d e hj he
      obtain ⟨l, hl⟩ := hof hj
      have hd := h.owns j _ e hl he
      obtain ⟨q, hq, hpenalty⟩ := hd.penalty
      obtain ⟨l', hl'⟩ := hto hq
      exact { hd with penalty := ⟨_, hl', { hpenalty with }⟩ }
    own := by
      intro j d hj hrole
      obtain ⟨l, hl⟩ := hof hj
      have hd := h.own j _ hl hrole
      exact hd
    penalty_owner := by
      intro i q j hi hq
      obtain ⟨l, hl⟩ := hof hi
      obtain ⟨d, e, hj, he, hp⟩ := h.penalty_owner i _ j hl hq
      obtain ⟨l', hl'⟩ := hto hj
      exact ⟨_, e, hl', he, hp⟩
    slack_owner := by
      intro w z hz hz'
      obtain ⟨j, d, e, hj, he, hw⟩ := h.slack_owner w z hz hz'
      obtain ⟨l, hl⟩ := hto hj
      exact ⟨j, _, e, hl, he, hw⟩
    slack_unique := by
      intro j d e j' d' e' hj he hj' he' heq
      obtain ⟨l, hl⟩ := hof hj
      obtain ⟨l', hl'⟩ := hof hj'
      exact h.slack_unique j _ e j' _ e' hl he hl' he' heq
    rigid := by
      intro j d hj hrole hsoft hp
      obtain ⟨l, hl⟩ := hof hj
      have hd := h.rigid j _ hl hrole hsoft hp
      exact hd
    pending_rigid := by simp
    resumed := by
      intro j d hj
      obtain ⟨l, hl⟩ := hof hj
      have hd := h.resumed j _ hl
      exact hd }

end Owned
end Registry

end ElasticLayout
