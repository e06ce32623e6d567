import ElasticLayout.Proofs.HandleQueue
import ElasticLayout.Proofs.Imprint

/-!
# Removing a constraint and adding it again

A constraint of the caller that is removed and added again, as the caller wrote it, comes back to
its cell, and so do its slack, the bound constraint of the slack and the penalty.  Only generations
change, and a problem does not see them.

* `Constraint.readded` -- the constraint that is added;
* `Spec.imprintedIn_of_slackGiven` -- a slack leaves the same imprints wherever it was given;
* `Spec.addConstraint_ownTerms` -- the addition passes its checks;
* `Spec.SamePlaces` -- two elastic constraints have their parts at the same indices;
* `Spec.Reachable.readd` -- the main result.
-/

namespace ElasticLayout

variable {α : Type}

/-! ### Imprints of internal constraints -/

section Imprints

variable [Scalar α]

theorem Constraint.IsBound.imprint_eq {c : Constraint α} {id : VariableId} {relation : Relation}
    {limit : α} (h : c.IsBound id relation limit) :
    c.imprint = ⟨[(1, id.slot.index)], relation, limit, 0, 0⟩ := by
  unfold Constraint.imprint
  rw [h.left, h.relation, h.right, h.penaltyAbove, h.penaltyBelow]
  rfl

theorem Constraint.IsPenaltyOf.imprint_eq {q c : Constraint α} {id : ConstraintId}
    {slack : VariableId} (h : q.IsPenaltyOf id c slack) :
    q.imprint = ⟨[(1, slack.slot.index)], .eq, 0, c.penaltyAbove, c.penaltyBelow⟩ := by
  unfold Constraint.imprint
  rw [h.left, h.relation, h.right, h.penaltyAbove, h.penaltyBelow]
  rfl

omit [Scalar α] in
/-- The imprint with a slack is made from that without. -/
theorem Constraint.imprint_withSlack (c : Constraint α) (e : Elastic α) :
    (c.withSlack e).imprint = { c.imprint with
      left := c.imprint.left ++ [(e.coefficient, e.slack.slot.index)] } := by
  unfold imprint withSlack
  dsimp only
  rw [List.map_append, List.map_singleton]

omit [Scalar α] in
/-- A caller does not see a slack that he has not mentioned. -/
theorem Constraint.shown_withSlack {c : Constraint α} {e : Elastic α}
    (h : ∀ term ∈ c.left, term.var ≠ e.slack) :
    (c.withSlack e).shown = { c with elastic := none } := by
  have hown : (c.withSlack e).ownTerms = c.left := by
    show (c.left ++ [_]).filter _ = c.left
    rw [List.filter_append, List.filter_eq_self.2 (by simpa using h)]
    simp
  unfold shown
  rw [hown]
  rfl

/-- The constraint that a caller adds to get this one, with its name forgotten. -/
def Constraint.readded (c : Constraint α) : Constraint α :=
  .fresh c.ownTerms c.relation c.right c.penaltyAbove c.penaltyBelow .user

end Imprints

namespace Spec

variable [Scalar α]

/-- **A slack leaves the same imprints wherever it was given**, if the cells are the same. -/
theorem imprintedIn_of_slackGiven {s u : Spec α} {r r' : Registry α} {id id' b b' : ConstraintId}
    {c c' : Constraint α} {e e' : Elastic α} (g : r.SlackGiven s.registry id c e b)
    (g' : r'.SlackGiven u.registry id' c' e' b') (himprint : c'.imprint = c.imprint)
    (hid : id'.slot.index = id.slot.index) (hcoefficient : e'.coefficient = e.coefficient)
    (hslack : e'.slack.slot.index = e.slack.slot.index)
    (hpenalty : e'.penalty.slot.index = e.penalty.slot.index)
    (hb : b'.slot.index = b.slot.index)
    (hothers : ∀ k d, k ≠ id → r.constraint? k = some d → k ≠ id' ∧ r'.constraint? k = some d) :
    s.ImprintedIn u := by
  intro k d hk
  obtain ⟨rfl, rfl⟩ | ⟨rfl, hbound, -⟩ | ⟨rfl, hisPenalty, -⟩ | ⟨hne, hbefore⟩ :=
    g.constraint_cases hk
  · refine ⟨id', _, g'.after, hid, ?_⟩
    rw [Constraint.imprint_withSlack, Constraint.imprint_withSlack, himprint, hcoefficient, hslack]
  · obtain ⟨q, hq, hbound', -⟩ := g'.bound
    refine ⟨b', q, hq, hb, ?_⟩
    rw [hbound'.imprint_eq, hbound.imprint_eq, hslack]
  · obtain ⟨q, hq, hisPenalty', -⟩ := g'.penalty
    refine ⟨e'.penalty, q, hq, hpenalty, ?_⟩
    have habove : c'.penaltyAbove = c.penaltyAbove := congrArg Imprint.penaltyAbove himprint
    have hbelow : c'.penaltyBelow = c.penaltyBelow := congrArg Imprint.penaltyBelow himprint
    rw [hisPenalty'.imprint_eq, hisPenalty.imprint_eq, hslack, habove, hbelow]
  · obtain ⟨hne', hafter⟩ := hothers k d hne hbefore
    exact ⟨k, d, g'.constraint_of_before hafter hne', rfl, rfl⟩

/-! ### The constraint that is added -/

variable [RangeScalar α] {s : Spec α} {id : ConstraintId} {c : Constraint α}

/-- The left side that the caller wrote is merged. -/
theorem left_readded (hs : s.Reachable) (hc : s.getConstraint? id = some c)
    (hrole : c.role = .user) : c.readded.left = c.ownTerms :=
  mergeSummands_of_nodup (hs.merged id c.plain (constraintAt?_eq_some.2 ⟨c, hc, hrole, rfl⟩))

/-- What is added is what the caller sees of the removed constraint, but for the name. -/
theorem readded_eq (hs : s.Reachable) (hc : s.getConstraint? id = some c)
    (hrole : c.role = .user) : c.readded = { c.shown with label := none } := by
  have hresumed : c.isSuspended = false := hs.tidy_owned.2.resumed id c hc
  have hleft := left_readded hs hc hrole
  unfold Constraint.shown
  rw [← hleft, hrole, hresumed]
  rfl

/-- The variables of the removed constraint stay those of the caller. -/
theorem isUserVariable_drop (hs : s.Reachable) (hc : s.getConstraint? id = some c)
    (hrole : c.role = .user) :
    ∀ term ∈ c.ownTerms, (s.drop id).isUserVariable term.var = true := by
  intro term hterm
  have howned := hs.tidy_owned.2
  obtain ⟨x, hx, hslack⟩ := howned.own id c hc hrole term hterm
  exact ((s.drop id).isUserVariable_iff_extent? term.var).2
    ⟨x, (dropped_drop howned hc hrole).extents _ x hx hslack, hslack⟩

/-- **The addition passes its checks.** -/
theorem addConstraint_ownTerms (hs : s.Reachable) (hc : s.getConstraint? id = some c)
    (hrole : c.role = .user) :
    (s.drop id).addConstraint (c.ownTerms.map (·.coefficient)) (c.ownTerms.map (·.var)) c.relation
      c.right c.penaltyAbove c.penaltyBelow = .ok ((s.drop id).register c.readded) := by
  have hadmits : (s.drop id).Admits (c.ownTerms.map (·.coefficient)) (c.ownTerms.map (·.var)) := by
    refine ⟨by rw [List.length_map, List.length_map], fun v hv => ?_⟩
    obtain ⟨term, hterm, rfl⟩ := List.mem_map.1 hv
    exact isUserVariable_drop hs hc hrole term hterm
  refine addConstraint_eq_ok_iff.2
    ⟨⟨hadmits, hs.isFinite_right hc hrole, hs.isPenalty hc hrole⟩, ?_⟩
  rw [zipWith_map_summand]
  rfl

/-- The steps of removing and adding lead to a reachable specification. -/
theorem owned_readd (hs : s.Reachable) (hc : s.getConstraint? id = some c) (hrole : c.role = .user)
    (hroom : ((s.drop id).register c.readded).2.Addressable) :
    ((s.drop id).register c.readded).2.registry.Owned none := by
  obtain ⟨htidy, howned⟩ := hs.tidy_owned
  have hdropped := dropped_drop howned hc hrole
  refine owned_register ((s.evolves_drop id).tidy htidy) hdropped.owned rfl rfl rfl ?_ hroom
  rw [left_readded hs hc hrole]
  exact isUserVariable_drop hs hc hrole

/-! ### Coming back to the same cells -/

omit [Scalar α] [RangeScalar α] in
/-- Two elastic constraints have their slacks, the only bound constraints of the slacks and the
penalties at the same indices; or neither is elastic. -/
def SamePlaces (s u : Spec α) : Option (Elastic α) → Option (Elastic α) → Prop
  | some e, some e' => e'.slack.index = e.slack.index ∧ e'.penalty.index = e.penalty.index ∧
      ∃ x x' b b', s.getVariable? e.slack = some x ∧ x.bounds = [b] ∧
        u.getVariable? e'.slack = some x' ∧ x'.bounds = [b'] ∧ b'.index = b.index
  | none, none => True
  | _, _ => False

omit [RangeScalar α] in
/-- Slacks that are given at the same indices have their parts at the same places. -/
theorem samePlaces_of_slackGiven {u : Spec α} {r r' : Registry α} {id' b b' : ConstraintId}
    {d d' : Constraint α} {e e' : Elastic α} (g : r.SlackGiven s.registry id d e b)
    (g' : r'.SlackGiven u.registry id' d' e' b') (hslack : e'.slack.slot.index = e.slack.slot.index)
    (hpenalty : e'.penalty.slot.index = e.penalty.slot.index)
    (hb : b'.slot.index = b.slot.index) : s.SamePlaces u (some e) (some e') := by
  obtain ⟨x, hx, hextent⟩ := getVariable?_of_extent? g.slack
  obtain ⟨x', hx', hextent'⟩ := getVariable?_of_extent? g'.slack
  have hbounds : x.extent.bounds = [b] := by rw [hextent]; rfl
  have hbounds' : x'.extent.bounds = [b'] := by rw [hextent']; rfl
  exact ⟨congrArg UInt32.toNat hslack, congrArg UInt32.toNat hpenalty, x, x', b, b', hx, hbounds,
    hx', hbounds', congrArg UInt32.toNat hb⟩

omit [Scalar α] [RangeScalar α] in
/-- Where one constraint gives way to another, the others stay. -/
theorem constraint?_replaced_iff {r : Registry α} {id id' k : ConstraintId} {c' d : Constraint α}
    (hfresh : (r.putConstraint id none).constraint? id' = none) :
    (k ≠ id' ∧ ((r.putConstraint id none).putConstraint id' (some c')).constraint? k = some d) ↔
      k ≠ id ∧ r.constraint? k = some d := by
  rw [Registry.constraint?_putConstraint] at hfresh
  rw [Registry.constraint?_putConstraint, Registry.constraint?_putConstraint]
  constructor
  · rintro ⟨hne, hk⟩
    rw [if_neg hne] at hk
    split at hk
    · exact absurd hk (by simp)
    · exact ⟨‹_›, hk⟩
  · rintro ⟨hne, hk⟩
    have hnew : k ≠ id' := by
      rintro rfl
      rw [if_neg hne, hk] at hfresh
      exact absurd hfresh (by simp)
    exact ⟨hnew, by rw [if_neg hnew, if_neg hne, hk]⟩

/-- What it means that a constraint came back. -/
structure ComesBack (s u : Spec α) (id id' : ConstraintId) (c : Constraint α) : Prop where
  addressable : u.Addressable
  index : id'.slot.index = id.slot.index
  constraint : ∃ c', u.getConstraint? id' = some c' ∧ c'.shown = { c.shown with label := none } ∧
    s.SamePlaces u c.elastic c'.elastic
  imprinted : s.ImprintedIn u
  imprinted_back : u.ImprintedIn s

omit [Scalar α] [RangeScalar α] in
/-- The queues of a specification, for as many cells as it has. -/
theorem due_self {s : Spec α} (hs : s.Tidy) : s.Due s.variableStore.cells.size
    s.constraintStore.cells.size (s.variableStore.upcoming s.variableStore.cells.size)
    (s.constraintStore.upcoming s.constraintStore.cells.size) :=
  ⟨hs, le_rfl, le_rfl, rfl, rfl⟩

/-- **A constraint without slack comes back.** -/
theorem comesBack_of_rigid (hs : s.Reachable) (hc : s.getConstraint? id = some c)
    (hrole : c.role = .user) (hrigid : c.elastic = none) :
    s.ComesBack ((s.drop id).register c.readded).2 id ((s.drop id).register c.readded).1 c := by
  obtain ⟨htidy, howned⟩ := hs.tidy_owned
  have hreadded := readded_eq hs hc hrole
  rw [Constraint.shown_of_rigid hrigid] at hreadded
  have hhard : c.isSoftInequality = false := by
    have hiff := elastic_isSome_iff howned hc
    rw [hrigid] at hiff
    simpa using hiff
  obtain ⟨hfront, hdue⟩ := ((due_self htidy).drop_of_rigid hc hrigid).place c.readded
  have hroom := hdue.addressable hs.1.1 hs.1.2
  obtain ⟨hfresh, hregistry⟩ := registry_place ((s.evolves_drop id).tidy htidy) hroom
  have hdropped : (s.drop id).registry = s.registry.putConstraint id none := by
    refine registry_drop_of_rigid fun d hd => ?_
    rw [← Option.some.inj (hc.symm.trans hd)]
    exact hrigid
  have hothers : ∀ k d, k ≠ ((s.drop id).place c.readded).1 ∧
      ((s.drop id).place c.readded).2.registry.constraint? k = some d ↔
        k ≠ id ∧ s.registry.constraint? k = some d := by
    intro k d
    rw [hdropped] at hfresh
    rw [hregistry, hdropped]
    exact constraint?_replaced_iff hfresh
  have hlive : ((s.drop id).place c.readded).2.getConstraint? ((s.drop id).place c.readded).1
      = some c.readded := by
    rw [← registry_constraint?, hregistry, Registry.constraint?_putConstraint, if_pos rfl]
  have hregister : (s.drop id).register c.readded = (s.drop id).place c.readded :=
    register_eq_place ((s.evolves_drop id).tidy htidy) hhard hroom
  have hindex : ((s.drop id).place c.readded).1.slot.index = id.slot.index := by
    rw [hfront]
    rfl
  have himprint : c.readded.imprint = c.imprint := by
    rw [hreadded]
    rfl
  rw [hregister]
  refine ⟨hroom, hindex, ⟨c.readded, hlive, ?_, ?_⟩, fun k d hk => ?_, fun k d hk => ?_⟩
  · rw [Constraint.shown_of_rigid hrigid, ← hreadded]
    exact Constraint.shown_of_rigid rfl
  · rw [hrigid]
    trivial
  · by_cases hkid : k = id
    · subst hkid
      rw [← Option.some.inj (hc.symm.trans hk)]
      exact ⟨_, _, hlive, hindex, himprint⟩
    · exact ⟨k, d, ((hothers k d).2 ⟨hkid, hk⟩).2, rfl, rfl⟩
  · by_cases hknew : k = ((s.drop id).place c.readded).1
    · subst hknew
      rw [← Option.some.inj (hlive.symm.trans hk)]
      exact ⟨id, c, hc, hindex.symm, himprint.symm⟩
    · exact ⟨k, d, ((hothers k d).1 ⟨hknew, hk⟩).2, rfl, rfl⟩

/-- **An elastic constraint comes back with all it owns.** -/
theorem comesBack_of_elastic (hs : s.Reachable) (hc : s.getConstraint? id = some c)
    (hrole : c.role = .user) {e : Elastic α} (he : c.elastic = some e) :
    s.ComesBack ((s.drop id).register c.readded).2 id ((s.drop id).register c.readded).1 c := by
  obtain ⟨htidy, howned⟩ := hs.tidy_owned
  have howns := howned.owns id c e hc he
  have hreadded := readded_eq hs hc hrole
  obtain ⟨b, g⟩ := slackGiven_detach howned hc he
  -- The cells come back in the order in which they were left.
  obtain ⟨hfront, hdue⟩ := ((due_self htidy).drop hc he g).place c.readded
  obtain ⟨hfresh, hregistry⟩ := registry_place ((s.evolves_drop id).tidy htidy)
    (hdue.addressable hs.1.1 hs.1.2)
  obtain ⟨⟨id', t⟩, hplace⟩ : ∃ p, (s.drop id).place c.readded = p := ⟨_, rfl⟩
  rw [hplace] at hfront hdue hfresh hregistry
  dsimp only at hfront hdue hfresh hregistry
  have hlive : t.registry.constraint? id' = some c.readded := by
    rw [hregistry, Registry.constraint?_putConstraint, if_pos rfl]
  obtain ⟨g', hdue'⟩ := hdue.attachSlack hs.1.1 hs.1.2 hlive e.coefficient
  -- The new slack is none of the variables that the caller mentions.
  have hreaddedLeft : ∀ term ∈ c.readded.left, term.var ≠ ⟨e.slack.slot.next⟩ := by
    intro term hterm heq
    rw [left_readded hs hc hrole] at hterm
    obtain ⟨x, hx, hslack⟩ := howned.own id c hc hrole term hterm
    have hx' := (dropped_drop howned hc hrole).extents _ x hx hslack
    have hplaced : t = ((s.drop id).place c.readded).2 := by rw [hplace]
    rw [← extent?_place (s.drop id) c.readded, ← hplaced, heq, g'.no_slack] at hx'
    exact absurd hx' (by simp)
  have hregister : (s.drop id).register c.readded
      = (id', t.attachSlack id' c.readded e.coefficient) := by
    unfold register
    rw [hplace]
    dsimp only
    rw [attach_of_softInequality hlive rfl howns.isSoftInequality howns.coefficient]
  have hindex : id'.slot.index = id.slot.index := by
    rw [hfront]
    rfl
  have himprint : c.readded.imprint = c.shown.imprint := by
    rw [hreadded]
    rfl
  -- What the removal leaves is what the addition finds.
  have hdropped : (s.drop id).registry = (s.detach id).registry.putConstraint id none :=
    registry_withdraw _ id
  have hothers : ∀ k d, k ≠ id' ∧ t.registry.constraint? k = some d ↔
      k ≠ id ∧ (s.detach id).registry.constraint? k = some d := by
    intro k d
    rw [hdropped] at hfresh
    rw [hregistry, hdropped]
    exact constraint?_replaced_iff hfresh
  rw [hregister]
  refine ⟨hdue'.addressable hs.1.1 hs.1.2, hindex, ⟨_, g'.after, ?_, ?_⟩, ?_, ?_⟩
  · rw [Constraint.shown_withSlack hreaddedLeft, ← hreadded]
    rfl
  · rw [he]
    exact samePlaces_of_slackGiven g g' rfl rfl rfl
  · exact imprintedIn_of_slackGiven g g' himprint hindex rfl rfl rfl rfl
      fun k d hk hd => (hothers k d).2 ⟨hk, hd⟩
  · exact imprintedIn_of_slackGiven g' g himprint.symm hindex.symm rfl rfl rfl rfl
      fun k d hk hd => (hothers k d).1 ⟨hk, hd⟩

/-- **Removing a constraint and adding it again changes nothing that a problem sees**, after every
history of calls.  The problem is the same, row by row; its columns have the same indices; and the
constraint is what it was, with its slack, the bound constraint of the slack and the penalty, all at
the same indices. -/
theorem Reachable.readd (hs : s.Reachable) (hc : s.getConstraint? id = some c)
    (hrole : c.role = .user) :
    ∃ t id' u c', s.removeConstraint id = (true, t) ∧
      t.addConstraint (c.ownTerms.map (·.coefficient)) (c.ownTerms.map (·.var)) c.relation c.right
        c.penaltyAbove c.penaltyBelow = .ok (id', u) ∧
      u.problem = s.problem ∧ u.columns.map (·.index) = s.columns.map (·.index) ∧
      id'.index = id.index ∧ u.getConstraint? id' = some c' ∧
      c'.shown = { c.shown with label := none } ∧ s.SamePlaces u c.elastic c'.elastic := by
  have hback : s.ComesBack ((s.drop id).register c.readded).2 id
      ((s.drop id).register c.readded).1 c := by
    cases he : c.elastic with
    | none => exact comesBack_of_rigid hs hc hrole he
    | some e => exact comesBack_of_elastic hs hc hrole he
  obtain ⟨c', hc', hshown, hplaces⟩ := hback.constraint
  have hremove : s.removeConstraint id = (true, s.drop id) :=
    if_pos ((s.isUserConstraint_iff id).2 ⟨c, hc, hrole⟩)
  obtain ⟨hproblem, hcolumns⟩ := problem_congr hs.1 hback.addressable hs.tidy_owned.2
    (owned_readd hs hc hrole hback.addressable) hback.imprinted hback.imprinted_back
  have hindices := congrArg (List.map UInt32.toNat) hcolumns
  rw [List.map_map, List.map_map] at hindices
  exact ⟨s.drop id, ((s.drop id).register c.readded).1, ((s.drop id).register c.readded).2, c',
    hremove, addConstraint_ownTerms hs hc hrole, hproblem, hindices,
    congrArg UInt32.toNat hback.index, hc', hshown, hplaces⟩

/-- After another soft constraint was removed, a soft `2x >= 30` has its parts in scattered cells.
It comes back to them under the next generation. -/
theorem readd_of_scattered_soft_ge :
    let s : Spec Float := ({ options := .default } : Spec Float).run [.addVariable none,
      .addConstraint [1] [⟨⟨0, 0⟩⟩] .le 100 4 0, .addConstraint [1] [⟨⟨0, 0⟩⟩] .ge 10 0 0,
      .removeConstraint ⟨⟨0, 0⟩⟩, .addConstraint [1] [⟨⟨0, 0⟩⟩] .eq 7 0 0,
      .addConstraint [2] [⟨⟨0, 0⟩⟩] .ge 30 1 2]
    s.Reachable ∧ ∃ c e, s.getConstraint? ⟨⟨1, 1⟩⟩ = some c ∧ c.role = .user ∧
      c.elastic = some e ∧ e.slack = ⟨⟨1, 1⟩⟩ ∧ e.penalty = ⟨⟨4, 0⟩⟩ ∧
      ∃ t id' u c', s.removeConstraint ⟨⟨1, 1⟩⟩ = (true, t) ∧
        t.addConstraint (c.ownTerms.map (·.coefficient)) (c.ownTerms.map (·.var)) c.relation
          c.right c.penaltyAbove c.penaltyBelow = .ok (id', u) ∧
        u.problem = s.problem ∧ u.columns.map (·.index) = s.columns.map (·.index) ∧
        id'.index = 1 ∧ u.getConstraint? id' = some c' ∧
        c'.shown = { c.shown with label := none } ∧ s.SamePlaces u c.elastic c'.elastic := by
  intro s
  have hs : s.Reachable := reachable_run _ (by decide +kernel)
  have hlive : ∃ c, s.getConstraint? ⟨⟨1, 1⟩⟩ = some c ∧
      decide (c.role = .user ∧ c.elastic.any (fun e =>
        e.slack = ⟨⟨1, 1⟩⟩ ∧ e.penalty = ⟨⟨4, 0⟩⟩) = true) = true :=
    (Option.any_eq_true _ _).1 (by decide +kernel)
  obtain ⟨c, hc, hfacts⟩ := hlive
  obtain ⟨hrole, helastic⟩ := of_decide_eq_true hfacts
  obtain ⟨e, he, hplaces⟩ := (Option.any_eq_true _ _).1 helastic
  obtain ⟨hslack, hpenalty⟩ := of_decide_eq_true hplaces
  exact ⟨hs, c, e, hc, hrole, he, hslack, hpenalty, hs.readd hc hrole⟩

end Spec

end ElasticLayout
