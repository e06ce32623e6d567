import ElasticLayout.Proofs.ElasticOwnership

/-!
# What the caller sees

The constraints of the caller without their slacks, and the ranges of his variables.  Giving and
taking back slacks changes nothing of it, and every other change is seen as what it is.

* `Constraint.shown` -- a constraint without its slack;
* `UserView`, `Registry.view` -- the view;
* `Registry.SlackGiven.view_eq` -- slacks are not seen;
* `Spec.view_attach`, `Spec.view_detach` -- nor is giving them and taking them back;
* `Spec.view_addVariable`, `Spec.view_register`, `Spec.view_mutate`, `Spec.view_drop` -- what is
  seen of a change.
-/

namespace ElasticLayout

variable {α : Type}

@[simp] theorem Constraint.ownTerms_shown (c : Constraint α) : c.shown.ownTerms = c.ownTerms := rfl

/-- What the caller sees of a specification. -/
@[ext] structure UserView (α : Type) where
  /-- The constraints of the caller. -/
  constraint? : ConstraintId → Option (Constraint α)
  /-- The ranges of the variables of the caller. -/
  range? : VariableId → Option (α × α)

namespace Registry

/-- A constraint of the caller. -/
def shown? (c : Constraint α) : Option (Constraint α) :=
  if c.role = .user then some c.shown else none

/-- The range of a variable of the caller. -/
def range? (x : Extent α) : Option (α × α) :=
  if x.isSlack then none else some (x.lower, x.upper)

/-- What the caller sees. -/
def view (r : Registry α) : UserView α where
  constraint? k := (r.constraint? k).bind shown?
  range? v := (r.extent? v).bind range?

theorem view_constraint? (r : Registry α) (k : ConstraintId) :
    r.view.constraint? k = (r.constraint? k).bind shown? := rfl

theorem view_range? (r : Registry α) (v : VariableId) :
    r.view.range? v = (r.extent? v).bind range? := rfl

theorem view_constraint?_eq_some {r : Registry α} {k : ConstraintId} {c : Constraint α}
    (hk : r.constraint? k = some c) (hrole : c.role = .user) :
    r.view.constraint? k = some c.shown := by
  rw [view_constraint?, hk, Option.bind_some]
  exact if_pos hrole

theorem exists_of_view_constraint? {r : Registry α} {k : ConstraintId} {c : Constraint α}
    (h : r.view.constraint? k = some c) :
    ∃ d, r.constraint? k = some d ∧ d.role = .user ∧ d.shown = c := by
  obtain ⟨d, hd, hshown⟩ := Option.bind_eq_some_iff.1 h
  unfold shown? at hshown
  split at hshown
  · exact ⟨d, hd, ‹_›, Option.some.inj hshown⟩
  · exact absurd hshown (by simp)

theorem view_putConstraint (r : Registry α) (k : ConstraintId) (c : Option (Constraint α)) :
    (r.putConstraint k c).view
      = { r.view with constraint? := Function.update r.view.constraint? k (c.bind shown?) } := by
  refine UserView.ext (funext fun j => ?_) rfl
  rw [view_constraint?, constraint?_putConstraint]
  show _ = Function.update r.view.constraint? k (c.bind shown?) j
  rw [Function.update_apply, apply_ite (Option.bind · shown?)]
  rfl

theorem view_putConstraint_user {r : Registry α} {k : ConstraintId} {c : Constraint α}
    (hrole : c.role = .user) : (r.putConstraint k (some c)).view
      = { r.view with constraint? := Function.update r.view.constraint? k (some c.shown) } := by
  rw [view_putConstraint, Option.bind_some]
  unfold shown?
  rw [if_pos hrole]

variable [Scalar α] {r t : Registry α} {k b : ConstraintId} {c : Constraint α} {e : Elastic α}

/-- **Slacks are not seen.** -/
theorem SlackGiven.view_eq (g : r.SlackGiven t k c e b) (hrigid : c.elastic = none)
    (hleft : ∀ term ∈ c.left, term.var ≠ e.slack) : t.view = r.view := by
  refine UserView.ext (funext fun j => ?_) (funext fun w => ?_)
  · rw [view_constraint?, view_constraint?]
    by_cases hjk : j = k
    · have hshown : (c.withSlack e).shown = c.shown := by
        have hown : (c.withSlack e).ownTerms = c.left := by
          show (c.left ++ [_]).filter _ = c.left
          rw [List.filter_append, List.filter_eq_self.2 (by simpa using hleft)]
          simp
        unfold Constraint.shown
        rw [hown, Constraint.ownTerms_of_rigid hrigid]
        rfl
      rw [hjk, g.before, g.after, Option.bind_some, Option.bind_some]
      unfold shown?
      rw [hshown]
      rfl
    by_cases hjb : j = b
    · obtain ⟨q, hq, hbound, -⟩ := g.bound
      rw [hjb, g.no_bound, hq, Option.bind_some, Option.bind_none]
      exact if_neg (by simp [hbound.role])
    by_cases hjp : j = e.penalty
    · obtain ⟨q, hq, hpenalty, -⟩ := g.penalty
      rw [hjp, g.no_penalty, hq, Option.bind_some, Option.bind_none]
      exact if_neg (by simp [hpenalty.role])
    · rw [g.constraints j hjk hjb hjp]
  · rw [view_range?, view_range?]
    by_cases hw : w = e.slack
    · rw [hw, g.no_slack, g.slack]
      rfl
    · rw [g.extents w hw]

end Registry

namespace Spec

variable [Scalar α] [RangeScalar α]

/-- Giving a slack is not seen. -/
theorem view_attach {s : Spec α} (hs : s.Tidy) {id : ConstraintId}
    (h : s.registry.Owned (some id)) (hroom : (s.attach id).Addressable) :
    (s.attach id).registry.view = s.registry.view := by
  obtain hsettled | ⟨c, a, hc, hrigid, hsoft, ha⟩ := s.settled_or_pending id
  · rw [attach_of_settled hsettled]
  · rw [attach_of_softInequality hc hrigid hsoft ha] at hroom ⊢
    obtain ⟨e, b, -, g⟩ := slackGiven_attachSlack hs hc a hroom
    refine g.view_eq hrigid fun term hterm heq => ?_
    obtain ⟨hrole, -⟩ := h.pending_rigid id c hc rfl
    obtain ⟨x, hx, -⟩ := h.own id c hc hrole term
      (by rw [Constraint.ownTerms_of_rigid hrigid]; exact hterm)
    rw [heq, g.no_slack] at hx
    exact absurd hx (by simp)

/-- Taking a slack back is not seen. -/
theorem view_detach {s : Spec α} (h : s.registry.Owned none) (id : ConstraintId) :
    (s.detach id).registry.view = s.registry.view := by
  obtain hrigid | ⟨c, e, hc, he⟩ := s.rigid_or_elastic id
  · rw [detach_of_rigid hrigid]
  · obtain ⟨b, g⟩ := slackGiven_detach h hc he
    exact (g.view_eq rfl fun term hterm => Constraint.ne_slack_of_mem_ownTerms he hterm).symm

omit [RangeScalar α] in
/-- A new variable is seen with the default range. -/
theorem view_addVariable {s : Spec α} (hs : s.Tidy) (label : Option String)
    (hroom : (s.addVariable label).2.Addressable) :
    (s.addVariable label).2.registry.view = { s.registry.view with
      range? := Function.update s.registry.view.range? (s.addVariable label).1
        (some (Variable.defaultLower, Variable.defaultUpper)) } := by
  have hregistry := (s.registry_insertVariable hs
    (v := (Variable.fresh label false : Variable α)) hroom.1).2
  have hadd : (s.addVariable label).2.registry = _ := hregistry
  rw [hadd]
  refine UserView.ext rfl (funext fun w => ?_)
  show (Registry.extent? _ w).bind Registry.range? = Function.update s.registry.view.range?
    (s.addVariable label).1 (some (Variable.defaultLower, Variable.defaultUpper)) w
  rw [Registry.extent?_putExtent, Function.update_apply,
    apply_ite (fun x : Option (Extent α) => x.bind Registry.range?)]
  rfl

/-- A new constraint of the caller is seen as it is. -/
theorem view_register {s : Spec α} (hs : s.Tidy) (h : s.registry.Owned none) {c : Constraint α}
    (hrole : c.role = .user) (hrigid : c.elastic = none) (hresumed : c.isSuspended = false)
    (hleft : ∀ term ∈ c.left, s.isUserVariable term.var = true)
    (hroom : (s.register c).2.Addressable) :
    (s.register c).2.registry.view = { s.registry.view with
      constraint? := Function.update s.registry.view.constraint? (s.register c).1 (some c) } := by
  have hplace : (s.place c).2.Addressable := (evolves_attach _ _).addressable hroom
  obtain ⟨-, hregistry⟩ := registry_place hs hplace
  have hpending := owned_place hs h hrole hrigid hresumed hleft hplace
  have hattach := view_attach ((s.evolves_place c).tidy hs) hpending hroom
  show ((s.place c).2.attach (s.place c).1).registry.view = _
  rw [hattach, hregistry, Registry.view_putConstraint_user hrole, Constraint.shown_of_rigid hrigid]
  rfl

/-- A changed constraint of the caller is seen as changed. -/
theorem view_mutate {s : Spec α} (hs : s.Tidy) (h : s.registry.Owned none) {id : ConstraintId}
    {c : Constraint α} (hc : s.registry.constraint? id = some c) (hrole : c.role = .user)
    {change : Constraint α → Constraint α} (hchange : s.IsUserChange change)
    (hroom : (s.mutate id change).Addressable) :
    (s.mutate id change).registry.view = { s.registry.view with
      constraint? := Function.update s.registry.view.constraint? id (some (change c.shown)) } := by
  obtain ⟨t, ht, -, htidy, howned, hregistry⟩ := mutate_eq_attach hs h hc hrole hchange
  have hrole' : (change c.shown).role = .user := (hchange.role _).trans hrole
  have hrigid : (change c.shown).elastic = none := hchange.elastic _
  rw [ht] at hroom ⊢
  rw [view_attach htidy howned hroom, hregistry, Registry.view_putConstraint_user hrole',
    Constraint.shown_of_rigid hrigid, view_detach h]

/-- A dropped constraint is not seen any more. -/
theorem view_drop {s : Spec α} (h : s.registry.Owned none) (id : ConstraintId) :
    (s.drop id).registry.view = { s.registry.view with
      constraint? := Function.update s.registry.view.constraint? id none } := by
  unfold drop
  rw [registry_withdraw, Registry.view_putConstraint, view_detach h]
  rfl

end Spec

end ElasticLayout
