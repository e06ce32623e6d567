import ElasticLayout.Proofs.References

/-!
# What the removal of a variable takes along

A variable leaves with its bound constraints and with every constraint of the caller that mentions
it; an elastic constraint leaves with its slack, and the slack with its penalty and its bound
constraint.  The removal meets these one after the other.  Here it is told at once: what leaves is
said of the specification before, everything else stays under its handle, and only references
change.

* `Spec.VariableLeaves`, `Spec.ConstraintLeaves` -- what leaves with a variable;
* `Spec.uncounted?` -- a variable but for its references, which no removal of others changes;
* `Spec.Removal`, `Spec.removal_removeVariable` -- what is left comes from before, and the caller's
  part of it is known;
* `Spec.Removal.variable_iff`, `Spec.Removal.constraint_iff` -- the owners tell the rest;
* `Spec.Reachable.removal_cascades` -- the main result.
-/

namespace ElasticLayout

variable {α : Type}

namespace Spec

/-! ### What leaves -/

/-- The variables that leave with a variable: itself, and the slacks of the elastic constraints that
mention it. -/
inductive VariableLeaves (s : Spec α) (id : VariableId) : VariableId → Prop where
  /-- The variable itself. -/
  | itself : VariableLeaves s id id
  /-- The slack of an elastic constraint of the caller that mentions the variable. -/
  | slack {k : ConstraintId} {c : Constraint α} {e : Elastic α} (live : s.getConstraint? k = some c)
      (user : c.role = .user) (mentions : c.mentions id = true) (elastic : c.elastic = some e) :
      VariableLeaves s id e.slack

/-- The constraints that leave with a variable. -/
inductive ConstraintLeaves (s : Spec α) (id : VariableId) : ConstraintId → Prop where
  /-- A constraint of the caller that mentions the variable. -/
  | mention {k : ConstraintId} {c : Constraint α} (live : s.getConstraint? k = some c)
      (user : c.role = .user) (mentions : c.mentions id = true) : ConstraintLeaves s id k
  /-- The penalty of the slack of such a constraint. -/
  | penalty {k : ConstraintId} {c : Constraint α} {e : Elastic α}
      (live : s.getConstraint? k = some c) (user : c.role = .user)
      (mentions : c.mentions id = true) (elastic : c.elastic = some e) :
      ConstraintLeaves s id e.penalty
  /-- A bound constraint of a variable that leaves. -/
  | bound {k : ConstraintId} {c : Constraint α} {v : VariableId}
      (live : s.getConstraint? k = some c) (bounds : c.role = .bound v)
      (leaves : VariableLeaves s id v) : ConstraintLeaves s id k

end Spec

/-! ### Variables but for their references -/

/-- A variable but for its references. -/
def Variable.uncounted (v : Variable α) : Variable α := { v with references := 0 }

theorem Variable.eq_of_uncounted {v w : Variable α} (h : v.uncounted = w.uncounted) :
    w = { v with references := w.references } := by
  cases v
  cases w
  simp only [Variable.uncounted, Variable.mk.injEq] at h ⊢
  simp [h]

namespace Spec

/-- A live variable but for its references. -/
def uncounted? (s : Spec α) (id : VariableId) : Option (Variable α) :=
  (s.getVariable? id).map Variable.uncounted

theorem uncounted?_eq_some {s : Spec α} {id : VariableId} {v : Variable α}
    (h : s.getVariable? id = some v) : s.uncounted? id = some v.uncounted :=
  congrArg (Option.map Variable.uncounted) h

theorem extent?_of_uncounted? {s : Spec α} {id : VariableId} {x : Variable α}
    (h : s.uncounted? id = some x) : s.registry.extent? id = some x.extent := by
  obtain ⟨v, hv, rfl⟩ := Option.map_eq_some_iff.1 h
  have hextent := registry_extent?_eq_some hv
  exact hextent

theorem uncounted?_release (s : Spec α) (left : List (Summand α)) :
    (s.release left).uncounted? = s.uncounted? := by
  refine foldl_keeps uncounted? (fun s term => funext fun w => ?_) left s
  unfold uncounted?
  rw [getVariable?_modifyVariable]
  split
  · rename_i hw
    rw [Option.map_map, hw]
    rfl
  · rfl

theorem uncounted?_withdraw (s : Spec α) (k : ConstraintId) :
    (s.withdraw k).uncounted? = s.uncounted? :=
  withdraw_keeps uncounted? (fun _ _ => rfl) uncounted?_release s k

theorem uncounted?_of_dropVariable {s : Spec α} {id w : VariableId} {x : Variable α}
    (h : (s.dropVariable id).uncounted? w = some x) : s.uncounted? w = some x := by
  unfold dropVariable at h
  split at h
  · exact h
  · rename_i v _
    obtain ⟨y, hy, rfl⟩ := Option.map_eq_some_iff.1 h
    have hy : ((v.bounds.foldl withdraw s).variableStore.erase id.slot).get? w.slot = some y := hy
    rw [SlotStore.erase_get?, Function.update_apply] at hy
    split at hy
    · exact absurd hy (by simp)
    · rw [← foldl_keeps uncounted? uncounted?_withdraw v.bounds s]
      exact uncounted?_eq_some hy

theorem uncounted?_of_drop {s : Spec α} {k : ConstraintId} {w : VariableId} {x : Variable α}
    (h : (s.drop k).uncounted? w = some x) : s.uncounted? w = some x := by
  rw [drop, uncounted?_withdraw] at h
  obtain hrigid | ⟨c, e, hc, he⟩ := s.rigid_or_elastic k
  · rwa [detach_of_rigid hrigid] at h
  · rw [detach_eq hc he] at h
    have hwithdrawn := uncounted?_of_dropVariable h
    rwa [uncounted?_withdraw, uncounted?_release] at hwithdrawn

/-! ### Who leaves, by role -/

section Roles

variable [Scalar α] {s : Spec α} {id : VariableId} {k : ConstraintId} {c : Constraint α}

theorem constraintLeaves_iff_of_user (h : s.registry.Owned none)
    (hc : s.registry.constraint? k = some c) (hrole : c.role = .user) :
    s.ConstraintLeaves id k ↔ c.mentions id = true := by
  refine ⟨fun hleaves => ?_, .mention hc hrole⟩
  cases hleaves with
  | mention live user mentions => rwa [Option.some.inj (hc.symm.trans live)]
  | penalty live user mentions elastic =>
    obtain ⟨q, hq, hpenalty⟩ := (h.owns _ _ _ live elastic).penalty
    obtain rfl := Option.some.inj (hc.symm.trans hq)
    exact absurd (hrole.symm.trans hpenalty.role) (by simp)
  | bound live bounds leaves =>
    obtain rfl := Option.some.inj (hc.symm.trans live)
    exact absurd (hrole.symm.trans bounds) (by simp)

/-- The penalty of a slack names the owner of the slack. -/
theorem constraintLeaves_iff_of_penalty (h : s.registry.Owned none)
    (hc : s.registry.constraint? k = some c) {e : Elastic α} (he : c.elastic = some e) :
    s.ConstraintLeaves id e.penalty ↔ c.mentions id = true := by
  have howns := h.owns k c e hc he
  obtain ⟨q, hq, hpenalty⟩ := howns.penalty
  refine ⟨fun hleaves => ?_, fun hmentions => .penalty hc howns.role hmentions he⟩
  generalize hp : e.penalty = p at hleaves hq
  cases hleaves with
  | mention live user mentions =>
    obtain rfl := Option.some.inj (hq.symm.trans live)
    exact absurd (user.symm.trans hpenalty.role) (by simp)
  | penalty live user mentions elastic =>
    obtain ⟨q', hq', hpenalty'⟩ := (h.owns _ _ _ live elastic).penalty
    obtain rfl := Option.some.inj (hq.symm.trans hq')
    obtain rfl := Role.slackPenalty.inj (hpenalty.role.symm.trans hpenalty'.role)
    rwa [Option.some.inj (hc.symm.trans live)]
  | bound live bounds leaves =>
    obtain rfl := Option.some.inj (hq.symm.trans live)
    exact absurd (bounds.symm.trans hpenalty.role) (by simp)

theorem constraintLeaves_iff_of_bound (h : s.registry.Owned none)
    (hc : s.registry.constraint? k = some c) {v : VariableId} (hrole : c.role = .bound v) :
    s.ConstraintLeaves id k ↔ s.VariableLeaves id v := by
  refine ⟨fun hleaves => ?_, .bound hc hrole⟩
  cases hleaves with
  | mention live user mentions =>
    obtain rfl := Option.some.inj (hc.symm.trans live)
    exact absurd (user.symm.trans hrole) (by simp)
  | penalty live user mentions elastic =>
    obtain ⟨q, hq, hpenalty⟩ := (h.owns _ _ _ live elastic).penalty
    obtain rfl := Option.some.inj (hc.symm.trans hq)
    exact absurd (hrole.symm.trans hpenalty.role) (by simp)
  | bound live bounds leaves =>
    obtain rfl := Option.some.inj (hc.symm.trans live)
    rwa [Role.bound.inj (hrole.symm.trans bounds)]

end Roles

/-! ### What is left -/

section Removal

variable [Scalar α]

/-- What a removal leaves: nothing new, the constraints of the caller that do not mention the
variable, and his other variables. -/
structure Removal (s t : Spec α) (id : VariableId) : Prop where
  /-- Before, all internal parts had their owners. -/
  owned_before : s.registry.Owned none
  /-- They still have. -/
  owned : t.registry.Owned none
  /-- A constraint that is left is what it was. -/
  of_constraint : ∀ k c, t.registry.constraint? k = some c → s.registry.constraint? k = some c
  /-- A variable that is left is what it was, but for its references. -/
  of_variable : ∀ w x, t.uncounted? w = some x → s.uncounted? w = some x
  /-- A constraint of the caller is left if it does not mention the variable. -/
  user_constraint : ∀ k c, s.registry.constraint? k = some c → c.role = .user →
    ((∃ d, t.registry.constraint? k = some d) ↔ c.mentions id = false)
  /-- The variable itself is not left, and all others of the caller are. -/
  user_variable : ∀ w v, s.getVariable? w = some v → v.isSlack = false →
    ((∃ y, t.getVariable? w = some y) ↔ w ≠ id)

/-- Of the constraints of the caller, those are left that do not mention the variable. -/
theorem userConstraint_left_iff {s t : Spec α} (h : s.registry.Owned none) {id : VariableId}
    (hid : s.isUserVariable id = true) (hplain : t.plain = s.plain.removeVariable id)
    (hof : ∀ k c, t.registry.constraint? k = some c → s.registry.constraint? k = some c)
    {k : ConstraintId} {c : Constraint α} (hc : s.registry.constraint? k = some c)
    (hrole : c.role = .user) :
    (∃ d, t.registry.constraint? k = some d) ↔ c.mentions id = false := by
  -- The caller sees the constraint before and after, or before only.
  have hbefore : s.plain.constraintAt? k = some c.plain :=
    constraintAt?_eq_some.2 ⟨c, hc, hrole, rfl⟩
  have hafter : t.plain.constraintAt? k = (some c.plain).filter (!·.mentions id) := by
    rw [hplain, ← hbefore]
    rfl
  have hmentions := mentions_plain h hid hc
  constructor
  · rintro ⟨d, hd⟩
    obtain rfl := Option.some.inj (hc.symm.trans (hof k d hd))
    rw [constraintAt?_eq_some.2 ⟨c, hd, hrole, rfl⟩, Option.filter_some] at hafter
    rw [← hmentions]
    by_contra hmention
    simp [hmention] at hafter
  · intro hmention
    rw [Option.filter_some, if_pos (by rw [hmentions, hmention]; rfl)] at hafter
    obtain ⟨d, hd, -⟩ := constraintAt?_eq_some.1 hafter
    exact ⟨d, hd⟩

omit [Scalar α] in
/-- Of the variables of the caller, all others are left. -/
theorem userVariable_left_iff {s t : Spec α} {id : VariableId}
    (hplain : t.plain = s.plain.removeVariable id)
    (hof : ∀ w y, t.uncounted? w = some y → s.uncounted? w = some y) {w : VariableId}
    {v : Variable α} (hv : s.getVariable? w = some v) (huser : v.isSlack = false) :
    (∃ y, t.getVariable? w = some y) ↔ w ≠ id := by
  have hbefore : s.plain.variableAt? w = some ⟨v.lower, v.upper, v.label⟩ :=
    plainVariable?_eq_some.2 ⟨v, hv, huser, rfl⟩
  have hafter : t.plainVariable? w
      = if w = id then none else some ⟨v.lower, v.upper, v.label⟩ := by
    rw [← hbefore, ← Function.update_apply]
    exact congrFun (congrArg PlainModel.variableAt? hplain) w
  constructor
  · rintro ⟨y, hy⟩ rfl
    rw [if_pos rfl] at hafter
    have hextents := extent?_of_uncounted? (hof w _ (uncounted?_eq_some hy))
    have hyslack : y.isSlack = false := by
      rw [registry_extent?_eq_some hv, Option.some.injEq] at hextents
      exact (congrArg Extent.isSlack hextents).symm.trans huser
    have hsome := plainVariable?_eq_some.2 ⟨y, hy, hyslack, rfl⟩
    rw [hafter] at hsome
    exact absurd hsome (by simp)
  · intro hne
    rw [if_neg hne] at hafter
    obtain ⟨y, hy, -⟩ := plainVariable?_eq_some.1 hafter
    exact ⟨y, hy⟩

theorem removal_removeVariable [RangeScalar α] {s : Spec α} (haddressable : s.Addressable)
    (h : s.registry.Owned none) {id : VariableId} (hid : s.isUserVariable id = true) :
    s.Removal (((s.mentioning id).foldl drop s).dropVariable id) id := by
  obtain ⟨x, hx, hslack⟩ := (s.isUserVariable_iff_extent? id).1 hid
  -- What dropping the constraints leaves comes from before, and the variable is left by then.
  obtain ⟨-, hextent, hconstraints, hvariables⟩ := foldl_drop_induction h
    (P := fun _ t => t.registry.extent? id = some x ∧
      (∀ k c, t.registry.constraint? k = some c → s.registry.constraint? k = some c) ∧
      ∀ w y, t.uncounted? w = some y → s.uncounted? w = some y)
    ⟨hx, fun _ _ hk => hk, fun _ _ hw => hw⟩
    (fun _ t k ht howned hrole => by
      have hdropped := dropped_drop_of_role howned hrole
      exact ⟨hdropped.extents id x ht.1 hslack, fun j c hj => ht.2.1 j c (hdropped.others j c hj).2,
        fun w y hw => ht.2.2 w y (uncounted?_of_drop hw)⟩)
    (s.mentioning id) fun k hk => role_of_mem_mentioning haddressable hk
  have hplain := plain_removeVariable haddressable h hid
  have hconstraint : ∀ k c,
      (((s.mentioning id).foldl drop s).dropVariable id).registry.constraint? k = some c →
        s.registry.constraint? k = some c := by
    intro k c hk
    rw [registry_dropVariable hextent] at hk
    exact hconstraints k c (by grind)
  have hvariable : ∀ w y,
      (((s.mentioning id).foldl drop s).dropVariable id).uncounted? w = some y →
        s.uncounted? w = some y :=
    fun w y hw => hvariables w y (uncounted?_of_dropVariable hw)
  exact {
    owned_before := h
    owned := owned_removeVariable haddressable h hid
    of_constraint := hconstraint
    of_variable := hvariable
    user_constraint := fun _ _ hc hrole => userConstraint_left_iff h hid hplain hconstraint hc hrole
    user_variable := fun _ _ hv huser => userVariable_left_iff hplain hvariable hv huser }

namespace Removal

variable {s t : Spec α} {id : VariableId}

/-- A variable that is left is what it was, but for its references. -/
theorem eq_of_live (h : s.Removal t id) {w : VariableId} {x y : Variable α}
    (hx : s.getVariable? w = some x) (hy : t.getVariable? w = some y) :
    y = { x with references := y.references } := by
  have hsame := h.of_variable w _ (uncounted?_eq_some hy)
  rw [uncounted?_eq_some hx] at hsame
  exact Variable.eq_of_uncounted (Option.some.inj hsame)

theorem extent?_of_live (h : s.Removal t id) {w : VariableId} {x : Extent α}
    (hx : t.registry.extent? w = some x) : s.registry.extent? w = some x := by
  obtain ⟨y, hy, rfl⟩ := getVariable?_of_extent? hx
  have hextent := extent?_of_uncounted? (h.of_variable w _ (uncounted?_eq_some hy))
  exact hextent

/-- A constraint of the caller that does not mention the variable is left as it was. -/
theorem constraint_of_unmentioned (h : s.Removal t id) {k : ConstraintId} {c : Constraint α}
    (hc : s.registry.constraint? k = some c) (hrole : c.role = .user)
    (hmentions : c.mentions id = false) : t.registry.constraint? k = some c := by
  obtain ⟨d, hd⟩ := (h.user_constraint k c hc hrole).2 hmentions
  rwa [Option.some.inj (hc.symm.trans (h.of_constraint k d hd))]

/-- A constraint of the caller that is left does not mention the variable. -/
theorem unmentioned (h : s.Removal t id) {k : ConstraintId} {c : Constraint α}
    (hc : t.registry.constraint? k = some c) (hrole : c.role = .user) : c.mentions id = false :=
  (h.user_constraint k c (h.of_constraint k c hc) hrole).1 ⟨c, hc⟩

/-- **Which variables are left**: a slack is left with its owner. -/
theorem variable_iff (h : s.Removal t id) (hid : s.isUserVariable id = true) (w : VariableId) :
    (∃ y, t.getVariable? w = some y) ↔
      (∃ x, s.getVariable? w = some x) ∧ ¬s.VariableLeaves id w := by
  obtain ⟨v, hv, huser⟩ := (s.isUserVariable_iff id).1 hid
  constructor
  · rintro ⟨y, hy⟩
    obtain ⟨x, hx, -⟩ := Option.map_eq_some_iff.1 (h.of_variable w _ (uncounted?_eq_some hy))
    refine ⟨⟨x, hx⟩, fun hleaves => ?_⟩
    cases hleaves with
    | itself => exact (h.user_variable id v hv huser).1 ⟨y, hy⟩ rfl
    | slack live user mentions elastic =>
      rename_i k c e
      -- The slack has an owner that is left, and before it had no other.
      have hslack : y.extent.isSlack = true := by
        obtain ⟨z, hz, hisSlack, -⟩ := (h.owned_before.owns k c e live elastic).slack
        rw [← Option.some.inj (hz.symm.trans (h.extent?_of_live (registry_extent?_eq_some hy)))]
        exact hisSlack
      obtain ⟨k', c', e', hc', he', heq⟩ :=
        h.owned.slack_owner _ _ (registry_extent?_eq_some hy) hslack
      have hbefore := h.of_constraint k' c' hc'
      obtain rfl := h.owned_before.slack_unique k' c' e' k c e hbefore he' live elastic heq
      obtain rfl := Option.some.inj (hbefore.symm.trans live)
      have hunmentioned := h.unmentioned hc' user
      simp [mentions] at hunmentioned
  · rintro ⟨⟨x, hx⟩, hstays⟩
    cases hslack : x.isSlack with
    | false =>
      refine (h.user_variable w x hx hslack).2 ?_
      rintro rfl
      exact hstays .itself
    | true =>
      obtain ⟨k, c, e, hc, he, rfl⟩ :=
        h.owned_before.slack_owner w _ (registry_extent?_eq_some hx) hslack
      have hrole := (h.owned_before.owns k c e hc he).role
      have hunmentioned : c.mentions id = false := by
        by_contra hmentions
        exact hstays (.slack hc hrole (by simpa using hmentions) he)
      obtain ⟨y, hy, -⟩ :=
        (h.owned.owns k c e (h.constraint_of_unmentioned hc hrole hunmentioned) he).slack
      obtain ⟨v, hv, -⟩ := getVariable?_of_extent? hy
      exact ⟨v, hv⟩

/-- **Which constraints are left**: internal ones are left with their owners. -/
theorem constraint_iff (h : s.Removal t id) (hid : s.isUserVariable id = true) (k : ConstraintId)
    (c : Constraint α) : t.registry.constraint? k = some c ↔
      s.registry.constraint? k = some c ∧ ¬s.ConstraintLeaves id k := by
  suffices hleft : ∀ c, s.registry.constraint? k = some c →
      (t.registry.constraint? k = some c ↔ ¬s.ConstraintLeaves id k) from
    ⟨fun hc => ⟨h.of_constraint k c hc, (hleft c (h.of_constraint k c hc)).1 hc⟩,
      fun hc => (hleft c hc.1).2 hc.2⟩
  intro c hc
  cases hrole : c.role with
  | user =>
    rw [constraintLeaves_iff_of_user h.owned_before hc hrole, Bool.not_eq_true]
    exact ⟨fun hleft => h.unmentioned hleft hrole, h.constraint_of_unmentioned hc hrole⟩
  | slackPenalty j =>
    obtain ⟨d, e, hd, he, rfl, howns, -⟩ := h.owned_before.isPenaltyOf_of_role hc hrole
    rw [constraintLeaves_iff_of_penalty h.owned_before hd he, Bool.not_eq_true]
    constructor
    · intro hleft
      obtain ⟨d', e', hd', -⟩ := h.owned.penalty_owner _ c j hleft hrole
      obtain rfl := Option.some.inj (hd.symm.trans (h.of_constraint j d' hd'))
      exact h.unmentioned hd' howns.role
    · intro hunmentioned
      have hleft := h.constraint_of_unmentioned hd howns.role hunmentioned
      obtain ⟨q, hq, -⟩ := (h.owned.owns j d e hleft he).penalty
      rwa [Option.some.inj (hc.symm.trans (h.of_constraint _ q hq))]
  | bound v =>
    rw [constraintLeaves_iff_of_bound h.owned_before hc hrole]
    have hvariable := h.variable_iff hid v
    constructor
    · intro hleft
      obtain ⟨x, hx, -⟩ := h.owned.bound k c v hleft hrole
      obtain ⟨y, hy, -⟩ := getVariable?_of_extent? hx
      exact (hvariable.1 ⟨y, hy⟩).2
    · intro hstays
      obtain ⟨x, hx, hends⟩ := h.owned_before.bound k c v hc hrole
      obtain ⟨w, hw, -⟩ := getVariable?_of_extent? hx
      obtain ⟨y, hy⟩ := hvariable.2 ⟨⟨w, hw⟩, hstays⟩
      have hextent := registry_extent?_eq_some hy
      obtain rfl := Option.some.inj (hx.symm.trans (h.extent?_of_live hextent))
      obtain ⟨q, -, -, hq, -⟩ :=
        (h.owned.range v _ hextent).isBound_of_mem (Extent.mem_bounds.2 hends)
      rwa [Option.some.inj (hc.symm.trans (h.of_constraint _ q hq))]

/-- **References of what is left**: each constraint that is gone took its own back. -/
theorem references_eq [RangeScalar α] (h : s.Removal t id) (hs : s.Reachable) (ht : t.Reachable)
    {w : VariableId} {x y : Variable α} (hx : s.getVariable? w = some x)
    (hy : t.getVariable? w = some y) : x.references = y.references
      + s.constraintList.countP fun p => (t.getConstraint? p.1).isNone && p.2.mentions w := by
  have hleft : (s.constraintList.filter fun p => (t.getConstraint? p.1).isSome).Perm
      t.constraintList := by
    refine (List.perm_ext_iff_of_nodup ((List.Nodup.of_map _ (constraintList_nodup hs.1)).filter _)
      (List.Nodup.of_map _ (constraintList_nodup ht.1))).2 ?_
    rintro ⟨k, c⟩
    rw [List.mem_filter, mem_constraintList hs.1, mem_constraintList ht.1]
    constructor
    · rintro ⟨hc, hlive⟩
      obtain ⟨d, hd⟩ := Option.isSome_iff_exists.1 hlive
      rwa [Option.some.inj (hc.symm.trans (h.of_constraint k d hd))]
    · exact fun hc => ⟨h.of_constraint k c hc, Option.isSome_iff_exists.2 ⟨c, hc⟩⟩
  rw [hs.references.2.1 w x hx, ht.references.2.1 w y hy, ← hleft.countP_eq, List.countP_filter,
    List.countP_eq_countP_filter_add s.constraintList _ fun p => (t.getConstraint? p.1).isSome,
    List.countP_filter, List.countP_filter]
  refine congrArg _ (List.countP_congr fun p _ => ?_)
  cases t.getConstraint? p.1 <;> simp

end Removal

end Removal

/-! ### The cascade -/

variable [Scalar α]

/-- **What the removal of a variable takes along**, after every history of calls.  A live variable
that is no slack is removed, and then exactly those constraints and variables are live that were
live and do not leave with it.  A constraint that is left is what it was.  A variable that is left
is what it was, but that each removed constraint that mentioned it counts as a reference less.  No
constraint that is left mentions the removed variable. -/
theorem Reachable.removal_cascades [RangeScalar α] {s : Spec α} (hs : s.Reachable)
    {id : VariableId} {v : Variable α} (hv : s.getVariable? id = some v)
    (huser : v.isSlack = false) :
    ∃ t, s.removeVariable id = (true, t) ∧
      (∀ k c, t.getConstraint? k = some c ↔
        s.getConstraint? k = some c ∧ ¬s.ConstraintLeaves id k) ∧
      (∀ w, (∃ y, t.getVariable? w = some y) ↔
        (∃ x, s.getVariable? w = some x) ∧ ¬s.VariableLeaves id w) ∧
      (∀ w x y, s.getVariable? w = some x → t.getVariable? w = some y →
        y = { x with references := y.references } ∧
        x.references = y.references
          + s.constraintList.countP fun p => (t.getConstraint? p.1).isNone && p.2.mentions w) ∧
      ∀ k c, t.getConstraint? k = some c → c.mentions id = false := by
  have hid : s.isUserVariable id = true := (s.isUserVariable_iff id).2 ⟨v, hv, huser⟩
  have hremove : s.removeVariable id
      = (true, ((s.mentioning id).foldl drop s).dropVariable id) := if_pos hid
  have hremoval := removal_removeVariable hs.1 hs.tidy_owned.2 hid
  have hreachable : (((s.mentioning id).foldl drop s).dropVariable id).Reachable := by
    have hperform : (s.run [.removeVariable id])
        = ((s.mentioning id).foldl drop s).dropVariable id := congrArg Prod.snd hremove
    rw [← hperform]
    refine hs.run _ ?_
    rw [hperform]
    exact ((Evolves.foldl_zero evolves_drop _ s).trans
      (evolves_dropVariable _ id)).addressable_of_zero hs.1
  refine ⟨_, hremove, hremoval.constraint_iff hid, hremoval.variable_iff hid,
    fun w x y hx hy => ⟨hremoval.eq_of_live hx hy, hremoval.references_eq hs hreachable hx hy⟩,
    fun k c hc => ?_⟩
  -- What a constraint mentions is live, and the variable is not.
  by_contra hmentions
  obtain ⟨term, hterm, heq⟩ := List.any_eq_true.1 ((Bool.not_eq_false _).mp hmentions)
  obtain ⟨y, hy⟩ := Option.isSome_iff_exists.1 (isSome_of_mentioned hremoval.owned hc hterm)
  rw [beq_iff_eq.1 heq] at hy
  exact ((hremoval.variable_iff hid id).1 ⟨y, hy⟩).2 .itself

/-- Two variables, the first between 0 and 100 and below the second by a soft constraint, the second
at least 3.  The first takes both its bound constraints along, the soft constraint, and the slack
with its penalty and its bound constraint; the second stays with the one constraint it is left. -/
theorem removal_cascades_of_soft_le :
    let s : Spec Float := ({ options := .default } : Spec Float).run [.addVariable none,
      .addVariable none, .setRange ⟨⟨0, 0⟩⟩ 0 100, .relate .le ⟨⟨0, 0⟩⟩ ⟨⟨1, 0⟩⟩ 1 0,
      .addConstraint [1] [⟨⟨1, 0⟩⟩] .ge 3 0 0]
    s.Reachable ∧ (∃ v, s.getVariable? ⟨⟨0, 0⟩⟩ = some v ∧ v.isSlack = false) ∧
    s.constraintList.length = 6 ∧ s.variableList.length = 3 ∧
    ∃ t, s.removeVariable ⟨⟨0, 0⟩⟩ = (true, t) ∧
      t.constraintList.map (·.1) = [⟨⟨5, 0⟩⟩] ∧ t.variableList.map (·.1) = [⟨⟨1, 0⟩⟩] ∧
      (∀ k c, t.getConstraint? k = some c ↔
        s.getConstraint? k = some c ∧ ¬s.ConstraintLeaves ⟨⟨0, 0⟩⟩ k) ∧
      ∃ x y, s.getVariable? ⟨⟨1, 0⟩⟩ = some x ∧ t.getVariable? ⟨⟨1, 0⟩⟩ = some y ∧
        x.references = 2 ∧ y.references = 1 ∧ y = { x with references := y.references } := by
  intro s
  have hs : s.Reachable := reachable_run _ (by decide +kernel)
  have hlive : ∃ v, s.getVariable? ⟨⟨0, 0⟩⟩ = some v ∧ (!v.isSlack) = true :=
    (Option.any_eq_true _ _).1 (by decide +kernel)
  obtain ⟨v, hv, huser⟩ := hlive
  rw [Bool.not_eq_true'] at huser
  have hbefore : ∃ x, s.getVariable? ⟨⟨1, 0⟩⟩ = some x ∧ decide (x.references = 2) = true :=
    (Option.any_eq_true _ _).1 (by decide +kernel)
  have hafter : ∃ y, (s.removeVariable ⟨⟨0, 0⟩⟩).2.getVariable? ⟨⟨1, 0⟩⟩ = some y ∧
      decide (y.references = 1) = true := (Option.any_eq_true _ _).1 (by decide +kernel)
  obtain ⟨t, hremove, hconstraints, -, hleft, -⟩ := hs.removal_cascades hv huser
  obtain ⟨x, hx, htwo⟩ := hbefore
  obtain ⟨y, hy, hone⟩ := hafter
  obtain rfl : (s.removeVariable ⟨⟨0, 0⟩⟩).2 = t := congrArg Prod.snd hremove
  exact ⟨hs, ⟨v, hv, huser⟩, by decide +kernel, by decide +kernel, _, hremove, by decide +kernel,
    by decide +kernel, hconstraints, x, y, hx, hy, of_decide_eq_true htwo, of_decide_eq_true hone,
    (hleft _ x y hx hy).1⟩

end Spec

end ElasticLayout
