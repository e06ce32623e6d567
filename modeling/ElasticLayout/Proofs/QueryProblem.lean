import ElasticLayout.Proofs.Doubling
import ElasticLayout.Proofs.ProblemRows
import ElasticLayout.Proofs.QueryTrace

/-!
# The problem of a size query

A size query leaves the hard constraints of the caller and the ranges of his variables, and takes
everything else out of the problem: the soft constraints, and the slacks with their bounds and
penalties.  The objective is what the two pins ask for.  The pins weigh what the options say, as
long as twice that does not overflow: the penalty counts for both directions, and the sum is halved.

* `Spec.binds`, `Spec.bindingConstraints` -- what a size query obeys;
* `Spec.mem_suspended_iff` -- everything else is suspended;
* `Spec.QueryStages.participates_iff` -- what takes part while the query solves;
* `Spec.PosesQuery`, `Spec.PullsSquarely` -- what the problem says, and what its objective measures;
* `Spec.Reachable.query_problem` -- the main result;
* `Spec.pins_may_weigh_more` -- a penalty whose double overflows.
-/

namespace ElasticLayout

open Linear

variable {α : Type}

/-- A soft row that pulls one variable towards a target. -/
structure IsPinRow [Scalar α] (columns : List VariableId) (id : VariableId) (target weight : α)
    (row : SoftRow α) : Prop where
  coefficients : IsRowOf columns [⟨1, id⟩] row.coefficients
  rhs : row.rhs = target
  weight : row.weight = weight

/-- Two equal penalties weigh as much as one. -/
theorem weightFor_self {penalty : ℝ} (h : 0 < penalty) : weightFor penalty penalty = penalty := by
  rw [weightFor_of_pos h h]
  exact add_self_div_two penalty

namespace Spec

variable [Scalar α]

/-! ### What binds a query -/

/-- The constraint binds a size query: it is a hard one of the caller, or bounds a variable that is
no slack. -/
def binds (s : Spec α) (c : Constraint α) : Bool :=
  match c.role with
  | .user => !c.isSoft
  | .bound id => s.isUserVariable id
  | .slackPenalty _ => false

/-- The live constraints that bind a size query, in the order of their handles. -/
def bindingConstraints (s : Spec α) : List (ConstraintId × Constraint α) :=
  s.constraintList.filter (s.binds ·.2)

theorem mem_bindingConstraints {s : Spec α} (hs : s.Addressable) {k : ConstraintId}
    {c : Constraint α} :
    (k, c) ∈ s.bindingConstraints ↔ s.getConstraint? k = some c ∧ s.binds c = true := by
  unfold bindingConstraints
  rw [List.mem_filter, mem_constraintList hs, registry_constraint?]

theorem bindingConstraints_pairwise {s : Spec α} (hs : s.Addressable) :
    s.bindingConstraints.Pairwise fun a b => a.1.slot.precedes b.1.slot = true := by
  unfold bindingConstraints constraintList
  refine List.Pairwise.filter _ ?_
  rw [List.pairwise_map]
  exact (SlotStore.toList_pairwise hs.2).imp fun {a b} hlt => Slot.precedes_iff.2 (.inl hlt)

/-- What binds a query is not soft. -/
theorem isSoft_of_binds [RangeScalar α] {s : Spec α} (h : s.registry.Owned none)
    {k : ConstraintId} {c : Constraint α} (hc : s.getConstraint? k = some c)
    (hbinds : s.binds c = true) : c.isSoft = false := by
  unfold binds at hbinds
  cases hrole : c.role with
  | user => simpa [hrole] using hbinds
  | bound id =>
    obtain ⟨relation, limit, hbound⟩ := h.isBound_of_role hc hrole
    exact hbound.isSoft
  | slackPenalty j => simp [hrole] at hbinds

/-- What binds a query mentions no slack. -/
theorem isUserVariable_of_binds {s : Spec α} (h : s.registry.Owned none) {k : ConstraintId}
    {c : Constraint α} (hc : s.getConstraint? k = some c) (hbinds : s.binds c = true)
    {term : Summand α} (hterm : term ∈ c.left) : s.isUserVariable term.var = true := by
  unfold binds at hbinds
  cases hrole : c.role with
  | user =>
    have hhard : c.isSoft = false := by simpa [hrole] using hbinds
    have helastic : c.elastic = none := by
      refine Option.eq_none_iff_forall_ne_some.2 fun e he => ?_
      have hsoft := Constraint.isSoftInequality_iff.1 (h.owns k c e hc he).isSoftInequality
      rw [hhard] at hsoft
      exact absurd hsoft.1 (by simp)
    rw [isUserVariable_iff_extent?]
    exact h.own k c hc hrole term (by rwa [Constraint.ownTerms_of_rigid helastic])
  | bound id =>
    obtain ⟨relation, limit, hbound⟩ := h.isBound_of_role hc hrole
    rw [hbound.left, List.mem_singleton] at hterm
    rw [hterm]
    simpa [hrole] using hbinds
  | slackPenalty j => simp [hrole] at hbinds

/-! ### What is suspended -/

/-- The bound constraints of a slack do not bind a query. -/
theorem binds_of_mem_slack_bounds {s : Spec α} (h : s.registry.Owned none) {id : VariableId}
    {x : Extent α} (hx : s.registry.extent? id = some x) (hslack : x.isSlack = true)
    {k : ConstraintId} {c : Constraint α} (hc : s.getConstraint? k = some c) (hk : k ∈ x.bounds) :
    s.binds c = false := by
  obtain ⟨d, _, _, hd, hbound⟩ := (h.range id x hx).isBound_of_mem hk
  obtain rfl := Option.some.inj (hc.symm.trans hd)
  have huser : s.isUserVariable id ≠ true := by
    rw [ne_eq, isUserVariable_iff_extent?]
    rintro ⟨y, hy, hy'⟩
    rw [Option.some.inj (hx.symm.trans hy), hy'] at hslack
    exact absurd hslack (by simp)
  simpa [binds, hbound.role] using huser

/-- What belongs to an elastic constraint does not bind a query. -/
theorem binds_of_mem_family {s : Spec α} (h : s.registry.Owned none) {j k : ConstraintId}
    {c d : Constraint α} (hd : s.getConstraint? j = some d) (hrole : d.role = .user)
    (hsoft : d.isSoft = true) (hc : s.getConstraint? k = some c)
    (hk : k ∈ s.registry.family j) : s.binds c = false := by
  have hself : k = j → s.binds c = false := by
    rintro rfl
    obtain rfl := Option.some.inj (hd.symm.trans hc)
    simp [binds, hrole, hsoft]
  unfold Registry.family at hk
  rw [registry_constraint?, hd, Option.map_some] at hk
  cases he : d.elastic with
  | none =>
    rw [he, List.mem_singleton] at hk
    exact hself hk
  | some e =>
    have howns := h.owns j d e hd he
    rw [he] at hk
    simp only [List.mem_cons] at hk
    rcases hk with hk | rfl | hk
    · exact hself hk
    · obtain ⟨q, hq, hpenalty⟩ := howns.penalty
      obtain rfl := Option.some.inj (hc.symm.trans hq)
      simp [binds, hpenalty.role]
    · obtain ⟨x, hx, hslack, -⟩ := howns.slack
      rw [hx, Option.map_some, Option.getD_some] at hk
      exact binds_of_mem_slack_bounds h hx hslack hc hk

/-- What does not bind a query belongs to a soft constraint of the caller. -/
theorem exists_family_of_not_binds {s : Spec α} (h : s.registry.Owned none) {k : ConstraintId}
    {c : Constraint α} (hc : s.getConstraint? k = some c) (hbinds : s.binds c = false) :
    ∃ j d, s.getConstraint? j = some d ∧ d.role = .user ∧ d.isSoft = true ∧
      k ∈ s.registry.family j := by
  have helastic : ∀ {j : ConstraintId} {d : Constraint α} {e : Elastic α},
      s.getConstraint? j = some d → d.elastic = some e →
      (k = e.penalty ∨ k ∈ ((s.registry.extent? e.slack).map Extent.bounds).getD []) →
      ∃ j d, s.getConstraint? j = some d ∧ d.role = .user ∧ d.isSoft = true ∧
        k ∈ s.registry.family j := by
    intro j d e hd he hk
    have howns := h.owns j d e hd he
    refine ⟨j, d, hd, howns.role,
      (Constraint.isSoftInequality_iff.1 howns.isSoftInequality).1, ?_⟩
    unfold Registry.family
    rw [registry_constraint?, hd, Option.map_some, he]
    exact List.mem_cons_of_mem _ (List.mem_cons.2 hk)
  unfold binds at hbinds
  cases hrole : c.role with
  | user =>
    refine ⟨k, c, hc, hrole, by simpa [hrole] using hbinds, ?_⟩
    unfold Registry.family
    rw [registry_constraint?, hc, Option.map_some]
    cases c.elastic <;> simp
  | bound v =>
    obtain ⟨x, hx, hmem⟩ := h.bound k c v hc hrole
    have hslack : x.isSlack = true := by
      rw [← Bool.not_eq_false]
      intro hslack
      have huser := (s.isUserVariable_iff_extent? v).2 ⟨x, hx, hslack⟩
      simp [hrole, huser] at hbinds
    obtain ⟨j, d, e, hd, he, rfl⟩ := h.slack_owner v x hx hslack
    exact helastic hd he (.inr (by rw [hx]; exact Extent.mem_bounds.2 hmem))
  | slackPenalty j =>
    obtain ⟨d, e, hd, he, hpenalty⟩ := h.penalty_owner k c j hc hrole
    exact helastic hd he (.inl hpenalty.symm)

/-- **A query suspends everything that does not bind it.** -/
theorem mem_suspended_iff {s : Spec α} (hs : s.Addressable) (h : s.registry.Owned none)
    {k : ConstraintId} {c : Constraint α} (hc : s.getConstraint? k = some c) :
    k ∈ s.suspendable.flatMap s.registry.family ↔ s.binds c = false := by
  rw [List.mem_flatMap]
  constructor
  · rintro ⟨j, hj, hk⟩
    obtain ⟨d, hd, hsoft⟩ := (mem_suspendable hs).1 hj
    simp only [Bool.and_eq_true, beq_iff_eq] at hsoft
    exact binds_of_mem_family h hd hsoft.1.1 hsoft.1.2 hc hk
  · intro hbinds
    obtain ⟨j, d, hd, hrole, hsoft, hk⟩ := exists_family_of_not_binds h hc hbinds
    refine ⟨j, (mem_suspendable hs).2 ⟨d, hd, ?_⟩, hk⟩
    simp [hrole, hsoft, h.resumed j d hd]

/-! ### What takes part in a query -/

namespace QueryStages

variable {s t s₀ s₁ s₂ : Spec α} {width height : VariableId} {target : α} {k₁ k₂ : ConstraintId}

/-- The stages are those of what the query solves. -/
theorem pinned_eq (h : s.QueryStages t width height target s₀ s₁ s₂ k₁ k₂) :
    s.pinned width height target = ((k₁, k₂), s₂) := by
  have hfirst : s₀.pin height target = (k₁, s₁) := by
    have hroom : (s₀.place (s₀.pinConstraint height target)).2.Addressable := by
      rw [h.heightPin]
      exact h.room₁
    rw [pin_eq_place h.tidy₀ hroom]
    exact h.heightPin
  have hsecond : s₁.pin width target = (k₂, s₂) := by
    rw [pin_eq_place h.tidy₁ (by rw [h.widthPin]; exact h.room₂)]
    exact h.widthPin
  rw [Spec.pinned_eq h.suspended, hfirst, hsecond]

/-- The pins are as strong as the options say. -/
theorem pinConstraint_eq (h : s.QueryStages t width height target s₀ s₁ s₂ k₁ k₂) :
    s₀.pinConstraint = s.pinConstraint ∧ s₁.pinConstraint = s.pinConstraint := by
  obtain ⟨hsuspended, hfirst, -⟩ := h.options_stages
  unfold pinConstraint
  rw [hfirst, hsuspended]
  exact ⟨rfl, rfl⟩

/-- **What takes part in a query**: the two pins, and what binds it. -/
theorem participates_iff (h : s.QueryStages t width height target s₀ s₁ s₂ k₁ k₂)
    (hs : s.Addressable) (howned : s.registry.Owned none) {k : ConstraintId}
    {c : Constraint α} : s₂.getConstraint? k = some c ∧ c.isSuspended = false ↔
      (k, c) = (k₁, s.pinConstraint height target) ∨ (k, c) = (k₂, s.pinConstraint width target) ∨
        s.getConstraint? k = some c ∧ s.binds c = true := by
  obtain ⟨hfresh, hfresh', hne, hregistry⟩ := h.registry₂
  rw [h.pinConstraint_eq.1, h.pinConstraint_eq.2] at hregistry
  have hsuspended : s₀.registry = s.registry.mark true (s.suspendable.flatMap s.registry.family) :=
    h.suspended ▸ registry_foldl_setSuspended true s.suspendable s
  -- Before the pins come, what takes part is what binds the query.
  have hbinding : ∀ {k : ConstraintId} {c : Constraint α},
      s₀.registry.constraint? k = some c ∧ c.isSuspended = false ↔
        s.getConstraint? k = some c ∧ s.binds c = true := by
    intro k c
    rw [hsuspended, Registry.constraint?_mark]
    split
    · rename_i hk
      constructor
      · rintro ⟨hc, hresumed⟩
        obtain ⟨d, -, rfl⟩ := Option.map_eq_some_iff.1 hc
        exact absurd hresumed (by simp)
      · rintro ⟨hc, hbinds⟩
        rw [mem_suspended_iff hs howned hc, hbinds] at hk
        exact absurd hk (by simp)
    · rename_i hk
      constructor
      · rintro ⟨hc, -⟩
        exact ⟨hc, by rwa [mem_suspended_iff hs howned hc, Bool.not_eq_false] at hk⟩
      · rintro ⟨hc, -⟩
        exact ⟨hc, howned.resumed k c hc⟩
  have hpin : ∀ id, (s.pinConstraint id target).isSuspended = false := fun _ => rfl
  rw [← registry_constraint?, hregistry, Registry.constraint?_putConstraint,
    Registry.constraint?_putConstraint, ← hbinding]
  have hkept : ∀ {d : Constraint α}, d.isSuspended = false →
      (d = c ∧ c.isSuspended = false ↔ c = d) := fun hd =>
    ⟨fun hc => hc.1.symm, fun hc => ⟨hc.symm, hc ▸ hd⟩⟩
  by_cases hsecond : k = k₂
  · simp [hsecond, hne.symm, hfresh', hkept (hpin width)]
  · by_cases hfirst : k = k₁
    · simp [hfirst, hne, hfresh, hkept (hpin height)]
    · simp [hsecond, hfirst]

/-- The columns of a query are its variables and those of the constraints that bind it. -/
theorem mem_columns_iff (h : s.QueryStages t width height target s₀ s₁ s₂ k₁ k₂)
    (hs : s.Addressable) (howned : s.registry.Owned none) (id : VariableId) :
    id ∈ s₂.columns ↔ id = width ∨ id = height ∨
      ∃ kc ∈ s.bindingConstraints, ∃ term ∈ kc.2.left, term.var = id := by
  have hparticipates := fun k c => h.participates_iff (k := k) (c := c) hs howned
  have hpin : ∀ {id : VariableId} {term : Summand α}, term ∈ (s.pinConstraint id target).left →
      term.var = id := fun hterm => congrArg Summand.var (List.mem_singleton.1 hterm)
  rw [mem_columns_iff_mentioned h.room₂]
  simp only [← and_assoc, hparticipates]
  constructor
  · rintro ⟨k, c, hc | hc | hc, term, hterm, rfl⟩
    · rw [(Prod.mk.inj hc).2] at hterm
      exact .inr (.inl (hpin hterm))
    · rw [(Prod.mk.inj hc).2] at hterm
      exact .inl (hpin hterm)
    · exact .inr (.inr ⟨(k, c), (mem_bindingConstraints hs).2 hc, term, hterm, rfl⟩)
  · rintro (rfl | rfl | ⟨⟨k, c⟩, hc, hterm⟩)
    · exact ⟨k₂, _, .inr (.inl rfl), _, List.mem_singleton_self _, rfl⟩
    · exact ⟨k₁, _, .inl rfl, _, List.mem_singleton_self _, rfl⟩
    · exact ⟨k, c, .inr (.inr ((mem_bindingConstraints hs).1 hc)), hterm⟩

theorem isObjectiveTerm_pinConstraint (hpenalty : 0 < s.options.sizePenalty) (id : VariableId) :
    (s.pinConstraint id target).isObjectiveTerm = true :=
  isObjectiveTerm_iff_penalties.2 ⟨rfl, .inl hpenalty⟩

/-- The hard rows of a query come from what binds it. -/
theorem hardConstraints_eq [RangeScalar α]
    (h : s.QueryStages t width height target s₀ s₁ s₂ k₁ k₂) (hs : s.Addressable)
    (howned : s.registry.Owned none) (hpenalty : 0 < s.options.sizePenalty) :
    s₂.hardConstraints = s.bindingConstraints := by
  refine eq_of_pairwise_precedes (fun p => p.1.slot) (participantsWhere_pairwise h.room₂ _)
    (bindingConstraints_pairwise hs) fun ⟨k, c⟩ => ?_
  unfold hardConstraints
  rw [mem_participantsWhere h.room₂, ← and_assoc, h.participates_iff hs howned,
    mem_bindingConstraints hs]
  constructor
  · rintro ⟨hc | hc | hc, hterm⟩
    · rw [(Prod.mk.inj hc).2, isObjectiveTerm_pinConstraint hpenalty] at hterm
      exact absurd hterm (by simp)
    · rw [(Prod.mk.inj hc).2, isObjectiveTerm_pinConstraint hpenalty] at hterm
      exact absurd hterm (by simp)
    · exact hc
  · intro hc
    have hhard := isSoft_of_binds howned hc.1 hc.2
    exact ⟨.inr (.inr hc), by simp [Constraint.isObjectiveTerm, hhard]⟩

/-- The soft rows of a query come from its pins. -/
theorem softEqualities_perm [RangeScalar α]
    (h : s.QueryStages t width height target s₀ s₁ s₂ k₁ k₂) (hs : s.Addressable)
    (howned : s.registry.Owned none) (hpenalty : 0 < s.options.sizePenalty) :
    s₂.softEqualities.Perm
      [(k₁, s.pinConstraint height target), (k₂, s.pinConstraint width target)] := by
  obtain ⟨-, -, hne, -⟩ := h.registry₂
  have hnodup : s₂.softEqualities.Nodup := by
    refine (participantsWhere_pairwise h.room₂ _).imp fun {a b} hlt heq => ?_
    rw [heq] at hlt
    exact Slot.precedes_irrefl b.1.slot hlt
  have hpins : [(k₁, s.pinConstraint height target), (k₂, s.pinConstraint width target)].Nodup := by
    simp [hne]
  refine (List.perm_ext_iff_of_nodup hnodup hpins).2 fun ⟨k, c⟩ => ?_
  unfold softEqualities
  rw [mem_participantsWhere h.room₂, ← and_assoc, h.participates_iff hs howned, List.mem_cons,
    List.mem_singleton]
  constructor
  · rintro ⟨hc | hc | hc, hterm⟩
    · exact .inl hc
    · exact .inr hc
    · have hhard := isSoft_of_binds howned hc.1 hc.2
      simp [Constraint.isObjectiveTerm, hhard] at hterm
  · rintro (hc | hc)
    · exact ⟨.inl hc, (Prod.mk.inj hc).2 ▸ isObjectiveTerm_pinConstraint hpenalty height⟩
    · exact ⟨.inr (.inl hc), (Prod.mk.inj hc).2 ▸ isObjectiveTerm_pinConstraint hpenalty width⟩

end QueryStages

/-! ### What the problem says -/

/-- What a specification asks of the problem of a size query: a column for each variable of the
query or of a constraint that binds it, a hard row for each of those constraints, and the two pins
as soft rows of some weight. -/
structure PosesQuery (s u : Spec α) (width height : VariableId) (target weight : α) : Prop where
  columns_ascending : u.columns.Pairwise fun a b => a.slot.precedes b.slot = true
  columns_user : ∀ id ∈ u.columns, s.isUserVariable id = true
  mem_columns : ∀ id, id ∈ u.columns ↔ id = width ∨ id = height ∨
    ∃ kc ∈ s.bindingConstraints, ∃ term ∈ kc.2.left, term.var = id
  variableCount : u.problem.variableCount = u.columns.length
  hard : List.Forall₂ (fun kc row => row.relation = kc.2.relation ∧ row.rhs = kc.2.right ∧
    IsRowOf u.columns kc.2.left row.coefficients) s.bindingConstraints u.problem.hard
  soft : ∃ a b, u.problem.soft.Perm [a, b] ∧
    IsPinRow u.columns height target weight a ∧ IsPinRow u.columns width target weight b

variable {s t s₀ s₁ s₂ : Spec α} {width height : VariableId} {target : α} {k₁ k₂ : ConstraintId}

/-- **A query solves what binds it, with the pins as the objective.** -/
theorem QueryStages.posesQuery [RangeScalar α]
    (h : s.QueryStages t width height target s₀ s₁ s₂ k₁ k₂) (hs : s.Reachable)
    (hpenalty : 0 < s.options.sizePenalty) (hwidth : s.isUserVariable width = true)
    (hheight : s.isUserVariable height = true) : s.PosesQuery s₂ width height target
      (weightFor s.options.sizePenalty s.options.sizePenalty) := by
  obtain ⟨-, howned⟩ := hs.tidy_owned
  have hnodup : ∀ p ∈ s.bindingConstraints, (p.2.left.map (·.var)).Nodup := fun p hp =>
    left_nodup howned hs.merged ((mem_bindingConstraints hs.1).1 hp).1
  have hcolumns := h.mem_columns_iff hs.1 howned
  have hpin : ∀ id, IsPinRow s₂.columns id target
      (weightFor s.options.sizePenalty s.options.sizePenalty)
      ⟨s₂.columns.map (s.pinConstraint id target).coefficientOf, target,
        weightFor s.options.sizePenalty s.options.sizePenalty⟩ := fun id =>
    ⟨(s.pinConstraint id target).isRowOf_map_coefficientOf _ (List.nodup_singleton _), rfl, rfl⟩
  refine {
    columns_ascending := s₂.columns_pairwise
    columns_user := fun id hid => ?_
    mem_columns := hcolumns
    variableCount := rfl
    hard := ?_
    soft := ⟨_, _, ?_, hpin height, hpin width⟩ }
  · rcases (hcolumns id).1 hid with rfl | rfl | ⟨⟨k, c⟩, hc, term, hterm, rfl⟩
    · exact hwidth
    · exact hheight
    · obtain ⟨hc, hbinds⟩ := (mem_bindingConstraints hs.1).1 hc
      exact isUserVariable_of_binds howned hc hbinds hterm
  · rw [← h.hardConstraints_eq hs.1 howned hpenalty] at hnodup ⊢
    exact s₂.forall₂_participantsWhere _ _ fun p hp =>
      ⟨rfl, rfl, Constraint.isRowOf_map_coefficientOf _ (hnodup p hp)⟩
  · have hsoft := (h.softEqualities_perm hs.1 howned hpenalty).map fun p => (⟨
      s₂.columns.map p.2.coefficientOf, p.2.right,
      weightFor p.2.penaltyAbove p.2.penaltyBelow⟩ : SoftRow α)
    unfold softEqualities at hsoft
    rw [show s₂.problem.soft = (s₂.participants.filter (·.isObjectiveTerm)).map _ from rfl,
      filter_participants, List.map_map]
    exact hsoft

/-! ### What the objective measures -/

/-- In exact arithmetic the pins have the weight of the penalty, and the objective is half the
squared distance to the target times the squared penalty, less a constant: what it would be at zero.
-/
structure PullsSquarely (u : Spec ℝ) (width height : VariableId) (target penalty : ℝ) : Prop where
  weight : ∀ row ∈ u.problem.soft, row.weight = penalty
  objective : ∃ f, u.problem.objective? = some f ∧ ∀ x : u.problem.Point,
    f.value x = 1 / 2 * penalty ^ 2 *
      ((u.valuation x width - target) ^ 2 + (u.valuation x height - target) ^ 2)
        - penalty ^ 2 * target ^ 2

/-- **The objective of a query is the squared distance to its target.** -/
theorem QueryStages.pullsSquarely {s t s₀ s₁ s₂ : Spec ℝ} {target : ℝ}
    (h : s.QueryStages t width height target s₀ s₁ s₂ k₁ k₂) (hs : s.Addressable)
    (howned : s.registry.Owned none) (hpenalty : 0 < s.options.sizePenalty) :
    s₂.PullsSquarely width height target s.options.sizePenalty := by
  have hsoft := (h.softEqualities_perm hs howned hpenalty).map (·.2)
  unfold softEqualities at hsoft
  rw [← filter_participants] at hsoft
  have hweight := weightFor_self hpenalty
  constructor
  · intro row hrow
    obtain ⟨c, hc, rfl⟩ := List.mem_map.1 hrow
    rw [hsoft.mem_iff] at hc
    simp only [List.map_cons, List.map_nil, List.mem_cons, List.not_mem_nil, or_false] at hc
    rcases hc with rfl | rfl <;> exact hweight
  · obtain ⟨f, hf, hvalue⟩ := Problem.objective?_value s₂.problem_isFull.rowsFit
    refine ⟨f, hf, fun x => ?_⟩
    have hpin : ∀ (id : VariableId) (point : VariableId → ℝ),
        evaluate (s.pinConstraint id target).left point = point id := fun id point => by
      show evaluate [⟨1, id⟩] point = point id
      rw [evaluate_cons, evaluate_nil, one_mul, add_zero]
    have hright : ∀ id, (s.pinConstraint id target).right = target := fun _ => rfl
    have hweight' : ∀ id, weightFor (s.pinConstraint id target).penaltyAbove
        (s.pinConstraint id target).penaltyBelow = s.options.sizePenalty := fun _ => hweight
    have hmeasure : s₂.problem.penalty x = 1 / 2 * s.options.sizePenalty ^ 2 *
        ((s₂.valuation x width - target) ^ 2 + (s₂.valuation x height - target) ^ 2) := by
      rw [← s₂.pointOf_valuation x, penalty_pointOf, (hsoft.map _).sum_eq, pointOf_valuation]
      simp only [List.map_cons, List.map_nil, List.sum_cons, List.sum_nil, hpin, hright, hweight']
      ring
    have hconstant : (s₂.problem.weightedTargets.map (· ^ 2)).sum
        = 2 * (target * s.options.sizePenalty) ^ 2 := by
      unfold Problem.weightedTargets problem
      dsimp only
      rw [List.map_map, List.map_map, (hsoft.map _).sum_eq]
      simp only [List.map_cons, List.map_nil, List.sum_cons, List.sum_nil, Function.comp_apply,
        hright, hweight']
      ring
    rw [hvalue, hmeasure, hconstant]
    ring

/-! ### Main result -/

/-- A call is answered with a size after solving a specification of which something holds, as long
as there are handles for the pins. -/
def AnswersBySolving (s : Spec α) (op : Operation α) (holds : Spec α → Prop) : Prop :=
  ∃ u size t, s.solvedBy? op = some u ∧ s.perform op = (t, .size size) ∧
    t.result = u.solve.result ∧ (t.Addressable → holds u)

theorem answersBySolving (hs : s.Tidy) (hwidth : (s.getVariable? width).isSome = true)
    (hheight : (s.getVariable? height).isSome = true) {op : Operation α} {unbounded : Size α}
    (hop : s.perform op = s.afterQuery (s.sizeQuery width height target unbounded))
    (hsolved : s.solvedBy? op = s.queried? width height target) {holds : Spec α → Prop}
    (h : ∀ t s₀ s₁ s₂ k₁ k₂, s.QueryStages t width height target s₀ s₁ s₂ k₁ k₂ → holds s₂) :
    s.AnswersBySolving op holds := by
  obtain ⟨size, t, hquery⟩ := s.exists_sizeQuery hwidth hheight target unbounded
  have hu : s.solvedBy? op = some (s.pinned width height target).2 := by
    rw [hsolved]
    unfold queried?
    rw [if_pos (by rw [hwidth, hheight]; rfl)]
  rw [hquery] at hop
  refine ⟨_, size, t, hu, hop, ?_, fun hroom => ?_⟩
  · have hresult := result_perform hu
    rwa [hop] at hresult
  · obtain ⟨s₀, s₁, s₂, k₁, k₂, hstages⟩ := exists_queryStages hs hquery hroom
    rw [hstages.pinned_eq]
    exact h t s₀ s₁ s₂ k₁ k₂ hstages

omit [Scalar α] in
theorem isSome_of_isUserVariable {s : Spec α} {id : VariableId}
    (h : s.isUserVariable id = true) : (s.getVariable? id).isSome = true := by
  obtain ⟨v, hv, -⟩ := (s.isUserVariable_iff id).1 h
  exact Option.isSome_iff_exists.2 ⟨v, hv⟩

/-- Both size queries solve the problem that they should, with pins of some weight. -/
def PosesQueries (s : Spec α) (width height : VariableId) (weight : α) : Prop :=
  s.AnswersBySolving (.minSize width height) (s.PosesQuery · width height 0 weight) ∧
    s.AnswersBySolving (.maxSize width height)
      (s.PosesQuery · width height s.options.largestSize weight)

/-- The two pins weigh half the sum of two equal penalties. -/
theorem Reachable.posesQueries [RangeScalar α] {s : Spec α} (hs : s.Reachable)
    (hpenalty : 0 < s.options.sizePenalty) (hwidth : s.isUserVariable width = true)
    (hheight : s.isUserVariable height = true) :
    s.PosesQueries width height (weightFor s.options.sizePenalty s.options.sizePenalty) := by
  obtain ⟨htidy, -⟩ := hs.tidy_owned
  have hlive := isSome_of_isUserVariable hwidth
  have hlive' := isSome_of_isUserVariable hheight
  exact ⟨answersBySolving htidy hlive hlive' rfl rfl fun _ _ _ _ _ _ hstages =>
      hstages.posesQuery hs hpenalty hwidth hheight,
    answersBySolving htidy hlive hlive' rfl rfl fun _ _ _ _ _ _ hstages =>
      hstages.posesQuery hs hpenalty hwidth hheight⟩

/-- **The problem of a size query**, after every history of calls: its hard rows are those of the
hard constraints of the caller and of the bound constraints of his variables, its columns are the
variables of those constraints and of the query, and its soft rows are the two pins.  They weigh
what the options say, in double precision as long as that is at most half the largest number; and in
exact arithmetic the objective is the squared distance to the target. -/
theorem Reachable.query_problem :
    (∀ {α : Type} [Scalar α] [RangeScalar α] {s : Spec α} {width height : VariableId},
      s.Reachable → 0 < s.options.sizePenalty →
      s.isUserVariable width = true → s.isUserVariable height = true →
      s.PosesQueries width height
        (weightFor s.options.sizePenalty s.options.sizePenalty)) ∧
    (∀ {s : Spec Float} {width height : VariableId}, s.Reachable → 0 < s.options.sizePenalty →
      s.options.sizePenalty ≤ Scalar.huge / 2.0 →
      s.isUserVariable width = true → s.isUserVariable height = true →
      s.PosesQueries width height s.options.sizePenalty) ∧
    (∀ {s : Spec ℝ} {width height : VariableId}, s.Reachable → 0 < s.options.sizePenalty →
      s.isUserVariable width = true → s.isUserVariable height = true →
      s.PosesQueries width height s.options.sizePenalty ∧
      s.AnswersBySolving (.minSize width height)
        (PullsSquarely · width height 0 s.options.sizePenalty) ∧
      s.AnswersBySolving (.maxSize width height)
        (PullsSquarely · width height s.options.largestSize s.options.sizePenalty)) := by
  refine ⟨fun hs hpenalty hwidth hheight => hs.posesQueries hpenalty hwidth hheight, ?_, ?_⟩
  · intro s width height hs hpenalty hhalf hwidth hheight
    have hposes := hs.posesQueries hpenalty hwidth hheight
    rwa [weightFor_self_of_le_half hpenalty hhalf] at hposes
  · intro s width height hs hpenalty hwidth hheight
    have hposes := hs.posesQueries hpenalty hwidth hheight
    rw [weightFor_self hpenalty] at hposes
    obtain ⟨htidy, howned⟩ := hs.tidy_owned
    have hlive := isSome_of_isUserVariable hwidth
    have hlive' := isSome_of_isUserVariable hheight
    exact ⟨hposes, answersBySolving htidy hlive hlive' rfl rfl fun _ _ _ _ _ _ hstages =>
        hstages.pullsSquarely hs.1 howned hpenalty,
      answersBySolving htidy hlive hlive' rfl rfl fun _ _ _ _ _ _ hstages =>
        hstages.pullsSquarely hs.1 howned hpenalty⟩

/-- A variable from five on, with a hard limit and a soft one, is asked for its size: its lower
bound and the hard limit stay, in two rows over one column, and the pins weigh five; and without any
constraint the objective measures how far the variable is from zero. -/
theorem query_problem_of_limits :
    (let s : Spec Float := ({ options := .default } : Spec Float).run [.addVariable none,
        .setLower ⟨⟨0, 0⟩⟩ 5, .addConstraint [1] [⟨⟨0, 0⟩⟩] .le 100 0 0,
        .addConstraint [1] [⟨⟨0, 0⟩⟩] .le 50 4 0]
     s.Reachable ∧ 0 < s.options.sizePenalty ∧ s.options.sizePenalty ≤ Scalar.huge / 2.0 ∧
        s.isUserVariable ⟨⟨0, 0⟩⟩ = true ∧
        s.bindingConstraints.map (·.1) = [⟨⟨0, 0⟩⟩, ⟨⟨1, 0⟩⟩] ∧
        s.PosesQueries ⟨⟨0, 0⟩⟩ ⟨⟨0, 0⟩⟩
          (weightFor s.options.sizePenalty s.options.sizePenalty) ∧
        ∃ u, s.solvedBy? (.minSize ⟨⟨0, 0⟩⟩ ⟨⟨0, 0⟩⟩) = some u ∧
          s.PosesQuery u ⟨⟨0, 0⟩⟩ ⟨⟨0, 0⟩⟩ 0 5.0 ∧ u.columns = [⟨⟨0, 0⟩⟩] ∧
          u.problem.hard.length = 2 ∧ u.problem.soft.length = 2) ∧
    (let s : Spec ℝ := ({ options := .default } : Spec ℝ).run [.addVariable none]
     s.Reachable ∧ ∃ u, s.solvedBy? (.maxSize ⟨⟨0, 0⟩⟩ ⟨⟨0, 0⟩⟩) = some u ∧
        u.PullsSquarely ⟨⟨0, 0⟩⟩ ⟨⟨0, 0⟩⟩ 32000 5) := by
  constructor
  · intro s
    have hs : s.Reachable := reachable_run _ (by decide)
    have hpenalty : 0 < s.options.sizePenalty := by decide +kernel
    have hhalf : s.options.sizePenalty ≤ Scalar.huge / 2.0 := by decide +kernel
    have huser : s.isUserVariable ⟨⟨0, 0⟩⟩ = true := by decide +kernel
    have hany := Reachable.query_problem.1 hs hpenalty huser huser
    obtain ⟨⟨u, size, t, hu, hanswer, -, hposes⟩, -⟩ :=
      Reachable.query_problem.2.1 hs hpenalty hhalf huser huser
    have hroom : (s.perform (.minSize ⟨⟨0, 0⟩⟩ ⟨⟨0, 0⟩⟩)).1.Addressable :=
      addressable_perform_run _ _ (by decide)
    rw [hanswer] at hroom
    have hpinned : u = (s.pinned ⟨⟨0, 0⟩⟩ ⟨⟨0, 0⟩⟩ 0).2 :=
      (sizeQuery_of_queried?_eq_some hu Size.zero).1
    have hproblem : u.columns = [⟨⟨0, 0⟩⟩] ∧ u.problem.hard.length = 2 ∧
        u.problem.soft.length = 2 := by
      rw [hpinned]
      decide +kernel
    exact ⟨hs, hpenalty, hhalf, huser, by decide +kernel, hany, u, hu, hposes hroom, hproblem⟩
  · intro s
    have hs : s.Reachable := reachable_run _ (by decide)
    have hpenalty : s.options.sizePenalty = 5 := by
      show (5.0 : ℝ) = 5
      norm_num
    have hlargest : s.options.largestSize = 32000 := by
      show (32000.0 : ℝ) = 32000
      norm_num
    have hpositive : 0 < s.options.sizePenalty := by
      rw [hpenalty]
      norm_num
    have huser : s.isUserVariable ⟨⟨0, 0⟩⟩ = true := rfl
    obtain ⟨-, -, u, size, t, hu, hanswer, -, hpulls⟩ :=
      Reachable.query_problem.2.2 hs hpositive huser huser
    have hroom : (s.perform (.maxSize ⟨⟨0, 0⟩⟩ ⟨⟨0, 0⟩⟩)).1.Addressable :=
      addressable_perform_run _ _ (by decide)
    rw [hanswer] at hroom
    rw [hpenalty, hlargest] at hpulls
    exact ⟨hs, u, hu, hpulls hroom⟩

/-- A penalty whose double overflows: the pins of a size query weigh more than the options say. -/
theorem pins_may_weigh_more :
    ¬ ∀ (s : Spec Float) (width height : VariableId), s.Reachable →
      Scalar.isFinite s.options.sizePenalty = true → 0 < s.options.sizePenalty →
      s.isUserVariable width = true → s.isUserVariable height = true →
      s.AnswersBySolving (.minSize width height)
        (s.PosesQuery · width height 0 s.options.sizePenalty) := by
  intro hall
  let s : Spec Float := ({ options := ⟨3, 1e308, 32000⟩ } : Spec Float).run
    [.addVariable none, .addConstraint [1] [⟨⟨0, 0⟩⟩] .le 5 0 0]
  obtain ⟨u, size, t, hu, hanswer, -, hposes⟩ := hall s ⟨⟨0, 0⟩⟩ ⟨⟨0, 0⟩⟩
    (reachable_run _ (by decide)) (by decide +kernel) (by decide +kernel) (by decide +kernel)
    (by decide +kernel)
  have hroom : (s.perform (.minSize ⟨⟨0, 0⟩⟩ ⟨⟨0, 0⟩⟩)).1.Addressable :=
    addressable_perform_run _ _ (by decide)
  rw [hanswer] at hroom
  have hpinned : u = (s.pinned ⟨⟨0, 0⟩⟩ ⟨⟨0, 0⟩⟩ 0).2 :=
    (sizeQuery_of_queried?_eq_some hu Size.zero).1
  have hheavy : ∀ row ∈ u.problem.soft, s.options.sizePenalty < row.weight := by
    rw [hpinned]
    decide +kernel
  obtain ⟨a, b, hperm, ha, -⟩ := (hposes hroom).soft
  have hweight := hheavy a (hperm.mem_iff.2 (List.mem_cons_self ..))
  rw [ha.weight] at hweight
  exact absurd hweight (by decide +kernel)

end Spec

end ElasticLayout
