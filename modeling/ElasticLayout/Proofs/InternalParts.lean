import ElasticLayout.Proofs.Refinement

/-!
# What works behind the tables

The tables ask for internal constraints: for one bound constraint per narrowed end of a range, and
for a slack with its bound and its penalty per soft inequality.  Whatever history led to the tables,
each part that they ask for has exactly one internal constraint that serves as it, and each internal
constraint serves as exactly one part.

* `InternalPart`, `PlainModel.AsksFor` -- the parts, and which of them the tables ask for;
* `Spec.Serves` -- a constraint serves as a part;
* `Spec.existsUnique_serves`, `Spec.existsUnique_part` -- one constraint per part, and back;
* `Spec.constraint_count`, `Spec.variable_count` -- how many entries there are;
* `Spec.Reachable.plain_model` -- the main result.
-/

namespace ElasticLayout

variable {α : Type}

/-- Two sets are of one size if each element of either has one partner in the other. -/
theorem encard_eq_of_partners {β γ : Type} {A : Set β} {B : Set γ} {R : β → γ → Prop}
    (hA : ∀ a ∈ A, ∃ b ∈ B, R a b) (hB : ∀ b ∈ B, ∃ a ∈ A, R a b)
    (left : ∀ a ∈ A, ∀ b b', R a b → R a b' → b = b')
    (right : ∀ b ∈ B, ∀ a a', R a b → R a' b → a = a') : A.encard = B.encard := by
  choose f hfB hf using hA
  refine Set.encard_congr (Equiv.ofBijective (fun a : A => (⟨f a a.2, hfB a a.2⟩ : B)) ⟨?_, ?_⟩)
  · rintro ⟨a, ha⟩ ⟨a', ha'⟩ heq
    have hvalue : f a ha = f a' ha' := congrArg Subtype.val heq
    exact Subtype.ext (right _ (hfB a ha) a a' (hf a ha) (hvalue ▸ hf a' ha'))
  · rintro ⟨b, hb⟩
    obtain ⟨a, ha, hab⟩ := hB b hb
    exact ⟨⟨a, ha⟩, Subtype.ext (left a ha _ _ (hf a ha) hab)⟩

/-! ### Parts -/

/-- Something that an internal constraint is needed for. -/
inductive InternalPart where
  /-- The narrowed lower end of a variable. -/
  | lowerEnd (id : VariableId)
  /-- The narrowed upper end of a variable. -/
  | upperEnd (id : VariableId)
  /-- The lower end of the slack of a soft inequality. -/
  | slackEnd (id : ConstraintId)
  /-- The penalty of the slack of a soft inequality. -/
  | slackPenalty (id : ConstraintId)

namespace PlainModel

variable [Scalar α]

/-- The lower end of a variable is narrowed. -/
def LowerNarrowed (m : PlainModel α) (id : VariableId) : Prop :=
  ∃ x, m.variableAt? id = some x ∧ Variable.defaultLower < x.lower

/-- The upper end of a variable is narrowed. -/
def UpperNarrowed (m : PlainModel α) (id : VariableId) : Prop :=
  ∃ x, m.variableAt? id = some x ∧ x.upper < Variable.defaultUpper

/-- A constraint is a soft inequality. -/
def SoftInequality (m : PlainModel α) (id : ConstraintId) : Prop :=
  ∃ c, m.constraintAt? id = some c ∧ c.isSoftInequality = true

/-- The tables ask for a part. -/
def AsksFor (m : PlainModel α) : InternalPart → Prop
  | .lowerEnd id => m.LowerNarrowed id
  | .upperEnd id => m.UpperNarrowed id
  | .slackEnd id => m.SoftInequality id
  | .slackPenalty id => m.SoftInequality id

end PlainModel

namespace Spec

variable [Scalar α]

/-- A live constraint serves as a part: it has the shape that the tables ask for. -/
def Serves (s : Spec α) (k : ConstraintId) : InternalPart → Prop
  | .lowerEnd id => ∃ c x, s.getConstraint? k = some c ∧ s.plain.variableAt? id = some x ∧
      c.IsBound id .ge x.lower
  | .upperEnd id => ∃ c x, s.getConstraint? k = some c ∧ s.plain.variableAt? id = some x ∧
      c.IsBound id .le x.upper
  | .slackEnd id => ∃ c d e, s.getConstraint? k = some c ∧ s.getConstraint? id = some d ∧
      d.elastic = some e ∧ c.IsBound e.slack .ge 0
  | .slackPenalty id => ∃ c d e, s.getConstraint? k = some c ∧ s.getConstraint? id = some d ∧
      d.elastic = some e ∧ e.penalty = k ∧ c.IsPenaltyOf id d e.slack

/-! ### Owners -/

variable {s : Spec α}

/-- A soft inequality of the table is elastic, and there are no other elastic constraints. -/
theorem softInequality_iff (h : s.registry.Owned none) (id : ConstraintId) :
    s.plain.SoftInequality id ↔ ∃ c e, s.getConstraint? id = some c ∧ c.elastic = some e := by
  constructor
  · rintro ⟨p, hp, hsoft⟩
    obtain ⟨c, hc, hrole, rfl⟩ := constraintAt?_eq_some.1 hp
    obtain ⟨e, he⟩ := Option.isSome_iff_exists.1 (h.rigid id c hc hrole hsoft (by simp))
    exact ⟨c, e, hc, he⟩
  · rintro ⟨c, e, hc, he⟩
    have howns := h.owns id c e hc he
    exact ⟨c.plain, constraintAt?_eq_some.2 ⟨c, hc, howns.role, rfl⟩, howns.isSoftInequality⟩

omit [Scalar α] in
theorem variableAt?_extent {id : VariableId} {x : PlainVariable α}
    (hx : s.plain.variableAt? id = some x) : ∃ y, s.registry.extent? id = some y ∧
      y.isSlack = false ∧ y.lower = x.lower ∧ y.upper = x.upper := by
  obtain ⟨v, hv, hslack, rfl⟩ := plainVariable?_eq_some.1 hx
  exact ⟨v.extent, registry_extent?_eq_some hv, hslack, rfl, rfl⟩

omit [Scalar α] in
theorem exists_variableAt? {id : VariableId} {y : Extent α}
    (hy : s.registry.extent? id = some y) (hslack : y.isSlack = false) :
    ∃ x, s.plain.variableAt? id = some x ∧ x.lower = y.lower ∧ x.upper = y.upper := by
  obtain ⟨v, hv, rfl⟩ := getVariable?_of_extent? hy
  exact ⟨⟨v.lower, v.upper, v.label⟩, plainVariable?_eq_some.2 ⟨v, hv, hslack, rfl⟩, rfl, rfl⟩

/-- A bound constraint is that of the end of the range that it is to enforce. -/
theorem end_of_isBound (h : s.registry.Owned none) {k : ConstraintId} {c : Constraint α}
    {id : VariableId} {y : Extent α} {relation : Relation} {limit : α}
    (hy : s.registry.extent? id = some y) (hc : s.registry.constraint? k = some c)
    (hbound : c.IsBound id relation limit) :
    relation = .ge ∧ y.lowerBound = some k ∨ relation = .le ∧ y.upperBound = some k := by
  obtain ⟨y', hy', hmem⟩ := h.bound k c id hc hbound.role
  obtain rfl := Option.some.inj (hy.symm.trans hy')
  rcases hmem with hlower | hupper
  · obtain ⟨d, hd, hd'⟩ := (h.range id y hy).lower.2 k hlower
    obtain rfl := Option.some.inj (hc.symm.trans hd)
    exact .inl ⟨hbound.relation.symm.trans hd'.relation, hlower⟩
  · obtain ⟨d, hd, hd'⟩ := (h.range id y hy).upper.2 k hupper
    obtain rfl := Option.some.inj (hc.symm.trans hd)
    exact .inr ⟨hbound.relation.symm.trans hd'.relation, hupper⟩

theorem lowerBound_of_isBound (h : s.registry.Owned none) {k : ConstraintId} {c : Constraint α}
    {id : VariableId} {y : Extent α} {limit : α} (hy : s.registry.extent? id = some y)
    (hc : s.registry.constraint? k = some c) (hbound : c.IsBound id .ge limit) :
    y.lowerBound = some k :=
  ((end_of_isBound h hy hc hbound).resolve_right (by simp)).2

theorem upperBound_of_isBound (h : s.registry.Owned none) {k : ConstraintId} {c : Constraint α}
    {id : VariableId} {y : Extent α} {limit : α} (hy : s.registry.extent? id = some y)
    (hc : s.registry.constraint? k = some c) (hbound : c.IsBound id .le limit) :
    y.upperBound = some k :=
  ((end_of_isBound h hy hc hbound).resolve_left (by simp)).2

variable [RangeScalar α]

/-- **One constraint per part.** -/
theorem existsUnique_serves (h : s.registry.Owned none) {part : InternalPart}
    (hpart : s.plain.AsksFor part) : ∃! k, s.Serves k part := by
  cases part with
  | lowerEnd id =>
    obtain ⟨x, hx, hnarrow⟩ := hpart
    obtain ⟨y, hy, -, hlower, -⟩ := variableAt?_extent hx
    have hkept := (h.range id y hy).lower
    obtain ⟨k, hk⟩ := Option.isSome_iff_exists.1 (hkept.1.2 (hlower.symm ▸ hnarrow))
    obtain ⟨c, hc, hbound⟩ := hkept.2 k hk
    refine ⟨k, ⟨c, x, hc, hx, hlower ▸ hbound⟩, ?_⟩
    rintro j ⟨d, _, hd, -, hd'⟩
    exact Option.some.inj ((lowerBound_of_isBound h hy hd hd').symm.trans hk)
  | upperEnd id =>
    obtain ⟨x, hx, hnarrow⟩ := hpart
    obtain ⟨y, hy, -, -, hupper⟩ := variableAt?_extent hx
    have hkept := (h.range id y hy).upper
    obtain ⟨k, hk⟩ := Option.isSome_iff_exists.1 (hkept.1.2 (hupper.symm ▸ hnarrow))
    obtain ⟨c, hc, hbound⟩ := hkept.2 k hk
    refine ⟨k, ⟨c, x, hc, hx, hupper ▸ hbound⟩, ?_⟩
    rintro j ⟨d, _, hd, -, hd'⟩
    exact Option.some.inj ((upperBound_of_isBound h hy hd hd').symm.trans hk)
  | slackEnd id =>
    obtain ⟨d, e, hd, he⟩ := (softInequality_iff h id).1 hpart
    obtain ⟨y, hy, -, hlower, hupper⟩ := (h.owns id d e hd he).slack
    have hkept := h.range e.slack y hy
    obtain ⟨k, hk, -⟩ := hkept.slack_bounds hlower hupper
    obtain ⟨c, hc, hbound⟩ := hkept.lower.2 k hk
    refine ⟨k, ⟨c, d, e, hc, hd, he, hlower ▸ hbound⟩, ?_⟩
    rintro j ⟨c', d', e', hc', hd', he', hbound'⟩
    obtain rfl := Option.some.inj (hd.symm.trans hd')
    obtain rfl := Option.some.inj (he.symm.trans he')
    exact Option.some.inj ((lowerBound_of_isBound h hy hc' hbound').symm.trans hk)
  | slackPenalty id =>
    obtain ⟨d, e, hd, he⟩ := (softInequality_iff h id).1 hpart
    obtain ⟨q, hq, hpenalty⟩ := (h.owns id d e hd he).penalty
    refine ⟨e.penalty, ⟨q, d, e, hq, hd, he, rfl, hpenalty⟩, ?_⟩
    rintro j ⟨c', d', e', hc', hd', he', rfl, -⟩
    obtain rfl := Option.some.inj (hd.symm.trans hd')
    obtain rfl := Option.some.inj (he.symm.trans he')
    rfl

omit [RangeScalar α] in
theorem Serves.role_ne_user {k : ConstraintId} {part : InternalPart} (h : s.Serves k part) :
    ∃ c, s.getConstraint? k = some c ∧ c.role ≠ .user := by
  cases part with
  | lowerEnd id =>
    obtain ⟨c, x, hc, -, hbound⟩ := h
    exact ⟨c, hc, by simp [hbound.role]⟩
  | upperEnd id =>
    obtain ⟨c, x, hc, -, hbound⟩ := h
    exact ⟨c, hc, by simp [hbound.role]⟩
  | slackEnd id =>
    obtain ⟨c, d, e, hc, -, -, hbound⟩ := h
    exact ⟨c, hc, by simp [hbound.role]⟩
  | slackPenalty id =>
    obtain ⟨c, d, e, hc, -, -, -, hpenalty⟩ := h
    exact ⟨c, hc, by simp [hpenalty.role]⟩

omit [RangeScalar α] in
/-- A constraint serves as one part at most: its role and its comparison tell the part. -/
theorem part_unique (h : s.registry.Owned none) {k : ConstraintId} {p q : InternalPart}
    (hp : s.Serves k p) (hq : s.Serves k q) : p = q := by
  have hslack : ∀ id x j d e, s.plain.variableAt? id = some x → s.getConstraint? j = some d →
      d.elastic = some e → e.slack ≠ id := by
    rintro _ x j d e hx hd he rfl
    obtain ⟨y, hy, hisSlack, -⟩ := variableAt?_extent hx
    obtain ⟨y', hy', hisSlack', -⟩ := (h.owns j d e hd he).slack
    grind
  have hunique : ∀ j d e j' d' e', s.getConstraint? j = some d → d.elastic = some e →
      s.getConstraint? j' = some d' → d'.elastic = some e' → e.slack = e'.slack → j = j' :=
    h.slack_unique
  cases p <;> cases q <;> unfold Serves at hp hq
  all_goals grind [Constraint.IsBound, Constraint.IsPenaltyOf]

/-- **One part per internal constraint.** -/
theorem existsUnique_part (h : s.registry.Owned none) {k : ConstraintId} {c : Constraint α}
    (hc : s.getConstraint? k = some c) (hrole : c.role ≠ .user) :
    ∃! part, s.plain.AsksFor part ∧ s.Serves k part := by
  suffices hpart : ∃ part, s.plain.AsksFor part ∧ s.Serves k part by
    obtain ⟨part, hasks, hserves⟩ := hpart
    exact ⟨part, ⟨hasks, hserves⟩, fun other hother => part_unique h hother.2 hserves⟩
  cases hc' : c.role with
  | user => exact absurd hc' hrole
  | slackPenalty j =>
    obtain ⟨d, e, hd, he, hp, -, hpenalty⟩ := h.isPenaltyOf_of_role hc hc'
    exact ⟨.slackPenalty j, (softInequality_iff h j).2 ⟨d, e, hd, he⟩,
      c, d, e, hc, hd, he, hp, hpenalty⟩
  | bound v =>
    obtain ⟨y, hy, hmem⟩ := h.bound k c v hc hc'
    have hkept := h.range v y hy
    cases hslack : y.isSlack with
    | true =>
      -- A slack has no bound constraint but that for its lower end.
      obtain ⟨j, d, e, hd, he, rfl⟩ := h.slack_owner v y hy hslack
      obtain ⟨y', hy', -, hlower, hupper⟩ := (h.owns j d e hd he).slack
      obtain rfl := Option.some.inj (hy.symm.trans hy')
      obtain ⟨b, hb, hnone⟩ := hkept.slack_bounds hlower hupper
      have hk : y.lowerBound = some k := hmem.resolve_right (by simp [hnone])
      obtain ⟨c', hc'', hbound⟩ := hkept.lower.2 k hk
      obtain rfl := Option.some.inj (hc''.symm.trans hc)
      exact ⟨.slackEnd j, (softInequality_iff h j).2 ⟨d, e, hd, he⟩,
        c', d, e, hc, hd, he, hlower ▸ hbound⟩
    | false =>
      obtain ⟨x, hx, hlower, hupper⟩ := exists_variableAt? hy hslack
      rcases hmem with hk | hk
      · obtain ⟨c', hc'', hbound⟩ := hkept.lower.2 k hk
        obtain rfl := Option.some.inj (hc''.symm.trans hc)
        refine ⟨.lowerEnd v, ⟨x, hx, ?_⟩, c', x, hc, hx, hlower.symm ▸ hbound⟩
        rw [hlower]
        exact hkept.lower.1.1 (by simp [hk])
      · obtain ⟨c', hc'', hbound⟩ := hkept.upper.2 k hk
        obtain rfl := Option.some.inj (hc''.symm.trans hc)
        refine ⟨.upperEnd v, ⟨x, hx, ?_⟩, c', x, hc, hx, hupper.symm ▸ hbound⟩
        rw [hupper]
        exact hkept.upper.1.1 (by simp [hk])

/-! ### Counting -/

omit [Scalar α] [RangeScalar α] in
theorem constraintStore_size_eq (htidy : s.Tidy) (hs : s.Addressable) :
    (s.constraintStore.size : ℕ∞) = {k | (s.getConstraint? k).isSome = true}.encard := by
  have hinj : Function.Injective ConstraintId.mk := fun a b h => congrArg ConstraintId.slot h
  rw [SlotStore.size_eq_encard htidy.2 hs.2, ← hinj.encard_image]
  congr 1
  ext k
  exact ⟨fun ⟨_, hslot, hk⟩ => hk ▸ hslot, fun hk => ⟨k.slot, hk, rfl⟩⟩

omit [Scalar α] [RangeScalar α] in
theorem variableStore_size_eq (htidy : s.Tidy) (hs : s.Addressable) :
    (s.variableStore.size : ℕ∞) = {v | (s.getVariable? v).isSome = true}.encard := by
  have hinj : Function.Injective VariableId.mk := fun a b h => congrArg VariableId.slot h
  rw [SlotStore.size_eq_encard htidy.1 hs.1, ← hinj.encard_image]
  congr 1
  ext v
  exact ⟨fun ⟨_, hslot, hv⟩ => hv ▸ hslot, fun hv => ⟨v.slot, hv, rfl⟩⟩

omit [RangeScalar α] in
/-- The parts that the tables ask for, by kind. -/
theorem encard_asksFor (m : PlainModel α) : {part | m.AsksFor part}.encard
    = {v | m.LowerNarrowed v}.encard + {v | m.UpperNarrowed v}.encard
      + 2 * {k | m.SoftInequality k}.encard := by
  have hparts : {part | m.AsksFor part}
      = InternalPart.lowerEnd '' {v | m.LowerNarrowed v}
        ∪ InternalPart.upperEnd '' {v | m.UpperNarrowed v}
        ∪ (InternalPart.slackEnd '' {k | m.SoftInequality k}
          ∪ InternalPart.slackPenalty '' {k | m.SoftInequality k}) := by
    ext part
    constructor
    · intro hpart
      cases part with
      | lowerEnd v => exact .inl (.inl ⟨v, hpart, rfl⟩)
      | upperEnd v => exact .inl (.inr ⟨v, hpart, rfl⟩)
      | slackEnd k => exact .inr (.inl ⟨k, hpart, rfl⟩)
      | slackPenalty k => exact .inr (.inr ⟨k, hpart, rfl⟩)
    · rintro ((⟨_, h, rfl⟩ | ⟨_, h, rfl⟩) | ⟨_, h, rfl⟩ | ⟨_, h, rfl⟩) <;> exact h
  have hlower : Function.Injective InternalPart.lowerEnd := fun _ _ => InternalPart.lowerEnd.inj
  have hupper : Function.Injective InternalPart.upperEnd := fun _ _ => InternalPart.upperEnd.inj
  have hslack : Function.Injective InternalPart.slackEnd := fun _ _ => InternalPart.slackEnd.inj
  have hpenalty : Function.Injective InternalPart.slackPenalty := fun _ _ =>
    InternalPart.slackPenalty.inj
  rw [hparts, Set.encard_union_eq, Set.encard_union_eq, Set.encard_union_eq, hlower.encard_image,
    hupper.encard_image, hslack.encard_image, hpenalty.encard_image, two_mul]
  · refine Set.disjoint_left.2 ?_
    rintro _ ⟨_, -, rfl⟩ ⟨_, -, h⟩
    cases h
  · refine Set.disjoint_left.2 ?_
    rintro _ ⟨_, -, rfl⟩ ⟨_, -, h⟩
    cases h
  · refine Set.disjoint_left.2 ?_
    rintro _ (⟨_, -, rfl⟩ | ⟨_, -, rfl⟩) (⟨_, -, h⟩ | ⟨_, -, h⟩) <;> cases h

/-- **How many constraints there are**, internal ones included. -/
theorem constraint_count (htidy : s.Tidy) (hs : s.Addressable) (h : s.registry.Owned none) :
    (s.constraintStore.size : ℕ∞) = {k | (s.plain.constraintAt? k).isSome = true}.encard
      + ({v | s.plain.LowerNarrowed v}.encard + {v | s.plain.UpperNarrowed v}.encard)
      + 2 * {k | s.plain.SoftInequality k}.encard := by
  have hlive : {k | (s.getConstraint? k).isSome = true}
      = {k | (s.plain.constraintAt? k).isSome = true}
        ∪ {k | ∃ c, s.getConstraint? k = some c ∧ c.role ≠ .user} := by
    ext k
    show (s.getConstraint? k).isSome = true ↔ (s.plain.constraintAt? k).isSome = true
      ∨ ∃ c, s.getConstraint? k = some c ∧ c.role ≠ .user
    rw [← isUserConstraint_eq, isUserConstraint_iff, Option.isSome_iff_exists, ← exists_or]
    refine exists_congr fun c => ?_
    rw [← and_or_left, and_iff_left (em _)]
  have hdisjoint : Disjoint {k | (s.plain.constraintAt? k).isSome = true}
      {k | ∃ c, s.getConstraint? k = some c ∧ c.role ≠ .user} := by
    refine Set.disjoint_left.2 fun k huser => ?_
    rintro ⟨c, hc, hrole⟩
    obtain ⟨p, hp⟩ := Option.isSome_iff_exists.1 huser
    obtain ⟨d, hd, hrole', -⟩ := constraintAt?_eq_some.1 hp
    exact hrole (Option.some.inj (hc.symm.trans hd) ▸ hrole')
  have hinternal : {part | s.plain.AsksFor part}.encard
      = {k | ∃ c, s.getConstraint? k = some c ∧ c.role ≠ .user}.encard := by
    refine encard_eq_of_partners (R := fun part k => s.plain.AsksFor part ∧ s.Serves k part)
      (fun part hpart => ?_) (fun k hk => ?_) (fun part hpart k k' hk hk' => ?_)
      (fun k _ part part' hpart hpart' => part_unique h hpart.2 hpart'.2)
    · obtain ⟨k, hk, -⟩ := existsUnique_serves h hpart
      exact ⟨k, hk.role_ne_user, hpart, hk⟩
    · obtain ⟨c, hc, hrole⟩ := hk
      obtain ⟨part, hpart, -⟩ := existsUnique_part h hc hrole
      exact ⟨part, hpart.1, hpart⟩
    · exact (existsUnique_serves h hpart).unique hk.2 hk'.2
  rw [constraintStore_size_eq htidy hs, hlive, Set.encard_union_eq hdisjoint, ← hinternal,
    encard_asksFor, ← add_assoc]

omit [RangeScalar α] in
/-- **How many variables there are**, slacks included. -/
theorem variable_count (htidy : s.Tidy) (hs : s.Addressable) (h : s.registry.Owned none) :
    (s.variableStore.size : ℕ∞) = {v | (s.plain.variableAt? v).isSome = true}.encard
      + {k | s.plain.SoftInequality k}.encard := by
  have hlive : {v | (s.getVariable? v).isSome = true}
      = {v | (s.plain.variableAt? v).isSome = true}
        ∪ {v | ∃ x, s.getVariable? v = some x ∧ x.isSlack = true} := by
    ext v
    show (s.getVariable? v).isSome = true ↔ (s.plain.variableAt? v).isSome = true
      ∨ ∃ x, s.getVariable? v = some x ∧ x.isSlack = true
    rw [← isUserVariable_eq, isUserVariable_iff, Option.isSome_iff_exists, ← exists_or]
    refine exists_congr fun x => ?_
    rw [← and_or_left]
    cases x.isSlack <;> simp
  have hdisjoint : Disjoint {v | (s.plain.variableAt? v).isSome = true}
      {v | ∃ x, s.getVariable? v = some x ∧ x.isSlack = true} := by
    refine Set.disjoint_left.2 fun v huser => ?_
    rintro ⟨x, hx, hslack⟩
    obtain ⟨p, hp⟩ := Option.isSome_iff_exists.1 huser
    obtain ⟨y, hy, hslack', -⟩ := plainVariable?_eq_some.1 hp
    obtain rfl := Option.some.inj (hx.symm.trans hy)
    exact absurd (hslack.symm.trans hslack') (by simp)
  have hslacks : {k | s.plain.SoftInequality k}.encard
      = {v | ∃ x, s.getVariable? v = some x ∧ x.isSlack = true}.encard := by
    refine encard_eq_of_partners (R := fun k v => ∃ c e, s.getConstraint? k = some c ∧
      c.elastic = some e ∧ e.slack = v) (fun k hk => ?_) (fun v hv => ?_)
      (fun k _ v v' hv hv' => ?_) (fun v _ k k' hk hk' => ?_)
    · obtain ⟨c, e, hc, he⟩ := (softInequality_iff h k).1 hk
      obtain ⟨y, hy, hslack, -⟩ := (h.owns k c e hc he).slack
      obtain ⟨x, hx, rfl⟩ := getVariable?_of_extent? hy
      exact ⟨e.slack, ⟨x, hx, hslack⟩, c, e, hc, he, rfl⟩
    · obtain ⟨x, hx, hslack⟩ := hv
      obtain ⟨k, c, e, hc, he, hev⟩ := h.slack_owner v _ (registry_extent?_eq_some hx) hslack
      exact ⟨k, (softInequality_iff h k).2 ⟨c, e, hc, he⟩, c, e, hc, he, hev⟩
    · obtain ⟨c, e, hc, he, rfl⟩ := hv
      obtain ⟨c', e', hc', he', rfl⟩ := hv'
      obtain rfl := Option.some.inj (hc.symm.trans hc')
      obtain rfl := Option.some.inj (he.symm.trans he')
      rfl
    · obtain ⟨c, e, hc, he, rfl⟩ := hk
      obtain ⟨c', e', hc', he', heq⟩ := hk'
      exact h.slack_unique k c e k' c' e' hc he hc' he' heq.symm
  rw [variableStore_size_eq htidy hs, hlive, Set.encard_union_eq hdisjoint, hslacks]

/-! ### The main result -/

/-- **A specification behaves like its tables**, after every history of calls.  A call does to the
tables what the call on the tables says, and gives the same answer.  What works behind the tables is
told by the tables alone: each part they ask for has one internal constraint, each internal
constraint serves as one such part, and so the numbers of constraints and variables are told too. -/
theorem Reachable.plain_model (hs : s.Reachable) :
    (∀ op : Operation α, ¬s.NamesInternal op → (s.perform op).1.Addressable →
      ∃ v k, s.Refines op v k) ∧
    (∀ part, s.plain.AsksFor part → ∃! k, s.Serves k part) ∧
    (∀ k c, s.getConstraint? k = some c → c.role ≠ .user →
      ∃! part, s.plain.AsksFor part ∧ s.Serves k part) ∧
    (s.constraintStore.size : ℕ∞) = {k | (s.plain.constraintAt? k).isSome = true}.encard
      + ({v | s.plain.LowerNarrowed v}.encard + {v | s.plain.UpperNarrowed v}.encard)
      + 2 * {k | s.plain.SoftInequality k}.encard ∧
    (s.variableStore.size : ℕ∞) = {v | (s.plain.variableAt? v).isSome = true}.encard
      + {k | s.plain.SoftInequality k}.encard := by
  obtain ⟨htidy, h⟩ := hs.tidy_owned
  exact ⟨fun op hop hroom => refines_perform htidy h hop hroom,
    fun part hpart => existsUnique_serves h hpart, fun k c hc hrole => existsUnique_part h hc hrole,
    constraint_count htidy hs.1 h, variable_count htidy hs.1 h⟩

/-- A variable between 0 and 50 and a soft `x <= 100`: five constraints and two variables, a penalty
for the slack, and a removal that takes the constraint along. -/
theorem plain_model_of_soft_le :
    let s : Spec Float := ({ options := .default } : Spec Float).run [.addVariable none,
      .setRange ⟨⟨0, 0⟩⟩ 0 50, .addConstraint [1] [⟨⟨0, 0⟩⟩] .le 100 4 0]
    s.Reachable ∧ (∃ v k, s.Refines (.removeVariable ⟨⟨0, 0⟩⟩) v k) ∧
      (∃! k, s.Serves k (.slackPenalty ⟨⟨2, 0⟩⟩)) ∧
      (∃! part, s.plain.AsksFor part ∧ s.Serves ⟨⟨0, 0⟩⟩ part) ∧
      s.constraintStore.size = 5 ∧ s.variableStore.size = 2 ∧
      (s.constraintStore.size : ℕ∞) = {k | (s.plain.constraintAt? k).isSome = true}.encard
        + ({v | s.plain.LowerNarrowed v}.encard + {v | s.plain.UpperNarrowed v}.encard)
        + 2 * {k | s.plain.SoftInequality k}.encard ∧
      (s.variableStore.size : ℕ∞) = {v | (s.plain.variableAt? v).isSome = true}.encard
        + {k | s.plain.SoftInequality k}.encard := by
  intro s
  have hs : s.Reachable := reachable_run _ (by decide)
  obtain ⟨hrefines, hserves, hpart, hconstraints, hvariables⟩ := hs.plain_model
  have hremoved : (({ options := .default } : Spec Float).run [.addVariable none,
      .setRange ⟨⟨0, 0⟩⟩ 0 50, .addConstraint [1] [⟨⟨0, 0⟩⟩] .le 100 4 0,
      .removeVariable ⟨⟨0, 0⟩⟩]).Reachable := reachable_run _ (by decide)
  have hroom : (s.perform (.removeVariable ⟨⟨0, 0⟩⟩)).1.Addressable := hremoved.1
  have hsoft : ∃ c, s.plain.constraintAt? ⟨⟨2, 0⟩⟩ = some c ∧ c.isSoftInequality = true :=
    (Option.any_eq_true _ _).1 (by decide)
  have hbound : ∃ c, s.getConstraint? ⟨⟨0, 0⟩⟩ = some c ∧ decide (c.role ≠ .user) = true :=
    (Option.any_eq_true _ _).1 (by decide)
  obtain ⟨c, hc, hrole⟩ := hbound
  exact ⟨hs, hrefines _ (by simp [NamesInternal]) hroom, hserves _ hsoft,
    hpart _ c hc (of_decide_eq_true hrole), by decide, by decide,
    hconstraints, hvariables⟩

end Spec

end ElasticLayout
