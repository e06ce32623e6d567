import ElasticLayout.Proofs.PlainModel

/-!
# The tables under the changes

Slacks are not in the tables, so that giving and taking back slacks leaves the tables alone, as
reference counts and bound constraints do.  What is left are the changes that the caller asked for.

* `Spec.plainVariable?_modifyVariable` ... `Spec.plainVariable?_solve` -- the table of variables;
* `Spec.plain_eq`, `Spec.plain_putConstraint` -- the table of constraints is told by what is seen;
* `Spec.plain_addVariable` ... `Spec.plain_sizeQuery` -- both tables, change by change.
-/

namespace ElasticLayout

variable {α : Type}

namespace Spec

/-! ### The table of variables -/

theorem plainVariable?_modifyVariable (s : Spec α) (id v : VariableId)
    (f : Variable α → Variable α) : (s.modifyVariable id f).plainVariable? v
      = if v = id then (s.getVariable? id).bind fun x => (f x).plain? else s.plainVariable? v := by
  unfold plainVariable?
  rw [getVariable?_modifyVariable]
  split
  · exact Option.bind_map
  · rfl

/-- A change that keeps what the caller thinks of a variable. -/
theorem plainVariable?_modifyVariable_of_plain (s : Spec α) (id : VariableId)
    {f : Variable α → Variable α} (h : ∀ v, (f v).plain? = v.plain?) :
    (s.modifyVariable id f).plainVariable? = s.plainVariable? := by
  funext v
  rw [plainVariable?_modifyVariable]
  split
  · rename_i hv
    simp only [h, hv]
    rfl
  · rfl

theorem plainVariable?_modifyConstraint (s : Spec α) (id : ConstraintId)
    (f : Constraint α → Constraint α) :
    (s.modifyConstraint id f).plainVariable? = s.plainVariable? := rfl

theorem plainVariable?_retain (s : Spec α) (left : List (Summand α)) :
    (s.retain left).plainVariable? = s.plainVariable? := by
  refine foldl_keeps plainVariable? (fun s term => ?_) left s
  exact s.plainVariable?_modifyVariable_of_plain term.var fun _ => rfl

theorem plainVariable?_release (s : Spec α) (left : List (Summand α)) :
    (s.release left).plainVariable? = s.plainVariable? := by
  refine foldl_keeps plainVariable? (fun s term => ?_) left s
  exact s.plainVariable?_modifyVariable_of_plain term.var fun _ => rfl

theorem plainVariable?_place (s : Spec α) (c : Constraint α) :
    (s.place c).2.plainVariable? = s.plainVariable? := s.plainVariable?_retain c.left

theorem plainVariable?_withdraw (s : Spec α) (k : ConstraintId) :
    (s.withdraw k).plainVariable? = s.plainVariable? :=
  withdraw_keeps plainVariable? (fun _ _ => rfl) plainVariable?_release s k

theorem plainVariable?_dropVariable (s : Spec α) (id : VariableId) :
    (s.dropVariable id).plainVariable? = Function.update s.plainVariable? id none := by
  have hwithdrawn : ∀ ks : List ConstraintId,
      (ks.foldl withdraw s).plainVariable? = s.plainVariable? := fun ks =>
    foldl_keeps plainVariable? plainVariable?_withdraw ks s
  unfold dropVariable
  split
  · rename_i hnone
    refine (Function.update_eq_self_iff.2 ?_).symm
    unfold plainVariable?
    rw [hnone]
    rfl
  · rename_i v _
    rw [← hwithdrawn v.bounds]
    funext w
    show (((v.bounds.foldl withdraw s).variableStore.erase id.slot).get? w.slot).bind _ = _
    rw [SlotStore.erase_get?, Function.update_apply, Function.update_apply]
    split
    · rename_i hw
      rw [if_pos (VariableId.slot_inj.1 hw)]
      rfl
    · rename_i hw
      rw [if_neg fun h => hw (congrArg VariableId.slot h)]
      rfl

theorem plainVariable?_insertVariable {s : Spec α} (h : s.Tidy) {v : Variable α}
    (hroom : (s.variableStore.insert v).2.Addressable) :
    ({ s with variableStore := (s.variableStore.insert v).2 } : Spec α).plainVariable?
      = Function.update s.plainVariable? ⟨(s.variableStore.insert v).1⟩ v.plain? := by
  funext w
  show ((s.variableStore.insert v).2.get? w.slot).bind _ = _
  rw [SlotStore.insert_get? h.1 hroom, Function.update_apply, Function.update_apply]
  split
  · rename_i hw
    rw [if_pos (VariableId.slot_inj (b := ⟨(s.variableStore.insert v).1⟩) |>.1 hw)]
    rfl
  · rename_i hw
    rw [if_neg fun h => hw (congrArg VariableId.slot h)]
    rfl

variable [Scalar α]

theorem plainVariable?_syncBound (s : Spec α) (id : VariableId) (existing : Option ConstraintId)
    (relation : Relation) (limit : α) (needed : Bool) :
    (s.syncBound id existing relation limit needed).2.plainVariable? = s.plainVariable? := by
  unfold syncBound
  split
  · rfl
  · exact s.plainVariable?_withdraw _
  · exact s.plainVariable?_place _
  · rfl

/-- A range that is set is seen in the table. -/
theorem plainVariable?_applyRange (s : Spec α) (id : VariableId) (lower upper : α) :
    (s.applyRange id lower upper).plainVariable? = Function.update s.plainVariable? id
      ((s.plainVariable? id).map fun x => { x with lower, upper }) := by
  cases hv : s.getVariable? id with
  | none =>
    have hsame : s.applyRange id lower upper = s := by
      unfold applyRange
      rw [hv]
    have hnone : s.plainVariable? id = none := by
      unfold plainVariable?
      rw [hv, Option.bind_none]
    rw [hsame, hnone]
    exact (Function.update_eq_self_iff.2 hnone.symm).symm
  | some v =>
    obtain ⟨s₁, s₂, s₃, lowerBound, upperBound, hstages⟩ := exists_rangeStages hv lower upper
    have hfirst : s₂.plainVariable? = s₁.plainVariable? := by
      have hsync := s₁.plainVariable?_syncBound id v.lowerBound .ge lower
        (Variable.defaultLower < lower)
      rwa [hstages.lowerEnd] at hsync
    have hsecond : s₃.plainVariable? = s₂.plainVariable? := by
      have hsync := s₂.plainVariable?_syncBound id v.upperBound .le upper
        (upper < Variable.defaultUpper)
      rwa [hstages.upperEnd] at hsync
    rw [hstages.links]
    refine (s₃.plainVariable?_modifyVariable_of_plain id
      (f := fun v => { v with lowerBound, upperBound }) fun _ => rfl).trans ?_
    rw [hsecond, hfirst, hstages.ends]
    funext w
    rw [plainVariable?_modifyVariable, Function.update_apply]
    refine if_congr Iff.rfl ?_ rfl
    unfold plainVariable?
    rw [hv, Option.bind_some, Option.bind_some]
    unfold Variable.plain?
    cases v.isSlack <;> rfl

/-- A slack is not in the table. -/
theorem plainVariable?_attachSlack {s : Spec α} (hs : s.Tidy) (id : ConstraintId)
    (c : Constraint α) (a : α) (hroom : (s.attachSlack id c a).Addressable) :
    (s.attachSlack id c a).plainVariable? = s.plainVariable? := by
  obtain ⟨s₁, s₂, s₃, s₄, slack, penalty, hstages⟩ := exists_slackStages s id c a
  have hinserted : s₁.plainVariable? = Function.update s.plainVariable? slack none := by
    rw [hstages.inserted, hstages.handle]
    refine plainVariable?_insertVariable hs ?_
    exact (hstages.inserted ▸ hstages.room₁ hroom).1
  have hfresh : s.plainVariable? slack = none := by
    unfold plainVariable? getVariable?
    rw [hstages.handle, SlotStore.get?_insert_fresh hs.1 (hstages.inserted ▸ hstages.room₁ hroom).1]
    rfl
  have hranged : s₂.plainVariable? = s.plainVariable? := by
    rw [hstages.ranged, plainVariable?_applyRange, hinserted, Function.update_self,
      Function.update_idem]
    exact Function.update_eq_self_iff.2 hfresh.symm
  have hplaced := s₃.plainVariable?_place (penaltyOf id c slack)
  rw [hstages.penalized] at hplaced
  rw [hstages.linked]
  show s₄.plainVariable? = _
  rw [hplaced, hstages.extended, plainVariable?_retain]
  exact hranged

theorem plainVariable?_attach {s : Spec α} (hs : s.Tidy) (id : ConstraintId)
    (hroom : (s.attach id).Addressable) : (s.attach id).plainVariable? = s.plainVariable? := by
  obtain hsettled | ⟨c, a, hc, hrigid, hsoft, ha⟩ := s.settled_or_pending id
  · rw [attach_of_settled hsettled]
  · rw [attach_of_softInequality hc hrigid hsoft ha] at hroom ⊢
    exact plainVariable?_attachSlack hs id _ _ hroom

theorem plainVariable?_register {s : Spec α} (hs : s.Tidy) (c : Constraint α)
    (hroom : (s.register c).2.Addressable) :
    (s.register c).2.plainVariable? = s.plainVariable? :=
  (plainVariable?_attach ((s.evolves_place c).tidy hs) _ hroom).trans (s.plainVariable?_place c)

/-- Nor is a slack in the table that is taken back. -/
theorem plainVariable?_detach {s : Spec α} {p : Option ConstraintId} (h : s.registry.Owned p)
    (id : ConstraintId) : (s.detach id).plainVariable? = s.plainVariable? := by
  obtain hrigid | ⟨c, e, hc, he⟩ := s.rigid_or_elastic id
  · rw [detach_of_rigid hrigid]
  · rw [detach_eq hc he, plainVariable?_dropVariable, plainVariable?_withdraw,
      plainVariable?_release]
    obtain ⟨x, hx, hisSlack, -⟩ := (h.owns id c e hc he).slack
    obtain ⟨v, hv, rfl⟩ := getVariable?_of_extent? hx
    refine Function.update_eq_self_iff.2 ?_
    show none = (s.getVariable? e.slack).bind Variable.plain?
    rw [hv, Option.bind_some]
    exact (if_pos hisSlack).symm

theorem plainVariable?_drop {s : Spec α} {p : Option ConstraintId} (h : s.registry.Owned p)
    (id : ConstraintId) : (s.drop id).plainVariable? = s.plainVariable? :=
  (plainVariable?_withdraw _ id).trans (plainVariable?_detach h id)

theorem plainVariable?_mutate [RangeScalar α] {s : Spec α} (hs : s.Tidy)
    (h : s.registry.Owned none) {id : ConstraintId} {c : Constraint α}
    (hc : s.registry.constraint? id = some c) (hrole : c.role = .user)
    {change : Constraint α → Constraint α} (hchange : s.IsUserChange change)
    (hroom : (s.mutate id change).Addressable) :
    (s.mutate id change).plainVariable? = s.plainVariable? := by
  obtain ⟨t, ht, hrelinked, htidy, -⟩ := mutate_eq_attach hs h hc hrole hchange
  rw [ht] at hroom ⊢
  rw [plainVariable?_attach htidy id hroom, hrelinked, plainVariable?_retain,
    plainVariable?_release]
  exact plainVariable?_detach h id

omit [Scalar α] in
theorem plainVariable?_assign (s : Spec α) (values : List (VariableId × α)) :
    (s.assign values).plainVariable? = s.plainVariable? := by
  unfold assign
  refine foldl_keeps plainVariable? (fun s entry => ?_) values s
  exact s.plainVariable?_modifyVariable_of_plain entry.1 fun _ => rfl

theorem plainVariable?_solve (s : Spec α) : s.solve.plainVariable? = s.plainVariable? :=
  solve_keeps plainVariable? plainVariable?_assign (fun _ _ => rfl) s

/-! ### Both tables -/

omit [Scalar α] in
theorem plain_eq (s : Spec α) : s.plain
    = ⟨s.plainVariable?, fun k => (s.registry.view.constraint? k).map Constraint.plain⟩ := by
  refine PlainModel.ext rfl (funext fun k => ?_)
  show (s.getConstraint? k).bind Constraint.plain?
    = ((s.registry.constraint? k).bind Registry.shown?).map Constraint.plain
  rw [Option.map_bind]
  refine congrArg (Option.bind _) (funext fun c => ?_)
  show Constraint.plain? c = (Registry.shown? c).map Constraint.plain
  unfold Constraint.plain? Registry.shown?
  split <;> rfl

omit [Scalar α] in
/-- The tables are told by what is seen. -/
theorem plain_congr {s t : Spec α} (hvariables : t.plainVariable? = s.plainVariable?)
    (hview : t.registry.view.constraint? = s.registry.view.constraint?) : t.plain = s.plain := by
  rw [plain_eq, plain_eq, hvariables, hview]

omit [Scalar α] in
/-- A constraint that is seen under one handle only is one entry of the table. -/
theorem plain_putConstraint {s t : Spec α} (hvariables : t.plainVariable? = s.plainVariable?)
    {k : ConstraintId} {c : Option (Constraint α)} (hview : t.registry.view.constraint?
      = Function.update s.registry.view.constraint? k c) :
    t.plain = s.plain.putConstraint k (c.map Constraint.plain) := by
  rw [plain_eq t, plain_eq s, hvariables, hview]
  refine PlainModel.ext rfl (funext fun j => ?_)
  show (Function.update s.registry.view.constraint? k c j).map Constraint.plain
    = Function.update (fun k => (s.registry.view.constraint? k).map Constraint.plain) k
      (c.map Constraint.plain) j
  rw [Function.update_apply, Function.update_apply, apply_ite (Option.map Constraint.plain)]

theorem plain_addVariable {s : Spec α} (hs : s.Tidy) (label : Option String)
    (hroom : (s.addVariable label).2.Addressable) :
    (s.addVariable label).2.plain = s.plain.putVariable (s.addVariable label).1
      ⟨Variable.defaultLower, Variable.defaultUpper, label⟩ := by
  have hconstraints := congrArg UserView.constraint? (view_addVariable hs label hroom)
  rw [plain_eq, plain_eq s, hconstraints]
  exact PlainModel.ext (plainVariable?_insertVariable hs hroom.1) rfl

omit [Scalar α] in
theorem plain_nameVariable {s : Spec α} {id : VariableId} {x : PlainVariable α}
    (hx : s.plainVariable? id = some x) (label : Option String) :
    (s.modifyVariable id fun v => { v with label }).plain
      = s.plain.putVariable id { x with label } := by
  refine PlainModel.ext (funext fun w => ?_) rfl
  show (s.modifyVariable id _).plainVariable? w = Function.update s.plainVariable? id _ w
  rw [plainVariable?_modifyVariable, Function.update_apply]
  refine if_congr Iff.rfl ?_ rfl
  obtain ⟨v, hv, hplain⟩ := Option.bind_eq_some_iff.1 hx
  rw [hv, Option.bind_some]
  unfold Variable.plain? at hplain ⊢
  split at hplain
  · exact absurd hplain (by simp)
  · rename_i hslack
    obtain rfl := Option.some.inj hplain
    exact if_neg hslack

omit [Scalar α] in
theorem plain_nameConstraint {s : Spec α} {id : ConstraintId} {c : Constraint α}
    (hc : s.getConstraint? id = some c) (hrole : c.role = .user) (label : Option String) :
    (s.modifyConstraint id fun c => { c with label }).plain
      = s.plain.putConstraint id (some { c.plain with label }) := by
  have hview : (s.modifyConstraint id fun c => { c with label }).registry.view.constraint?
      = Function.update s.registry.view.constraint? id (some { c.shown with label }) := by
    rw [registry_modifyConstraint, Registry.view_putConstraint,
      show s.registry.constraint? id = some c from hc, Option.map_some, Option.bind_some]
    unfold Registry.shown?
    rw [if_pos hrole]
    rfl
  exact plain_putConstraint (s.plainVariable?_modifyConstraint id _) hview

/-! ### Ranges -/

omit [Scalar α] in
theorem plainVariable?_eq_some {s : Spec α} {id : VariableId} {x : PlainVariable α} :
    s.plainVariable? id = some x ↔ ∃ v, s.getVariable? id = some v ∧ v.isSlack = false ∧
      x = ⟨v.lower, v.upper, v.label⟩ := by
  unfold plainVariable?
  rw [Option.bind_eq_some_iff]
  refine exists_congr fun v => and_congr_right fun _ => ?_
  unfold Variable.plain?
  cases v.isSlack <;> simp [eq_comm]

end Spec

namespace Registry

variable [Scalar α]

/-- Bound constraints are not seen. -/
theorem RangeKept.view_eq_none {r : Registry α} {v : VariableId} {x : Extent α}
    (h : r.RangeKept v x) {k : ConstraintId} (hk : k ∈ x.bounds) :
    r.view.constraint? k = none := by
  obtain ⟨c, _, _, hc, hbound⟩ := h.isBound_of_mem hk
  rw [view_constraint?, hc, Option.bind_some]
  exact if_neg (by simp [hbound.role])

theorem RangeSynced.view_constraint?_eq {r t : Registry α} {v : VariableId} {x y : Extent α}
    (hx : r.RangeKept v x) (g : r.RangeSynced t v x y) :
    t.view.constraint? = r.view.constraint? := by
  funext k
  by_cases hky : k ∈ y.bounds
  · rw [g.kept.view_eq_none hky]
    rcases g.fresh k hky with hkx | hnone
    · exact (hx.view_eq_none hkx).symm
    · rw [view_constraint?, hnone, Option.bind_none]
  · by_cases hkx : k ∈ x.bounds
    · rw [hx.view_eq_none hkx, view_constraint?, g.gone k hkx hky, Option.bind_none]
    · rw [view_constraint?, view_constraint?, g.others k hkx hky]

theorem RangeKept.view_erase {r : Registry α} {v : VariableId} {x : Extent α}
    (h : r.RangeKept v x) : (r.erase x.bounds).view.constraint? = r.view.constraint? := by
  funext k
  by_cases hk : k ∈ x.bounds
  · rw [h.view_eq_none hk, view_constraint?, constraint?_erase, if_pos hk, Option.bind_none]
  · rw [view_constraint?, view_constraint?, constraint?_erase, if_neg hk]

end Registry

namespace Spec

variable [Scalar α]

theorem plain_applyRange {s : Spec α} (hs : s.Tidy) (h : s.registry.Owned none) {id : VariableId}
    {x : PlainVariable α} (hx : s.plainVariable? id = some x) {lower upper : α}
    (hroom : (s.applyRange id lower upper).Addressable) :
    (s.applyRange id lower upper).plain = s.plain.putVariable id { x with lower, upper } := by
  obtain ⟨v, hv, -⟩ := plainVariable?_eq_some.1 hx
  have hextent := registry_extent?_eq_some hv
  have hkept := h.range id _ hextent
  obtain ⟨y, -, -, -, g⟩ := rangeSynced_applyRange hs hextent hkept
    (fun k _ c hc => h.resumed k c hc) hroom
  rw [plain_eq, plain_eq s, g.view_constraint?_eq hkept, plainVariable?_applyRange, hx]
  rfl

/-! ### Constraints -/

variable [RangeScalar α]

theorem plain_register {s : Spec α} (hs : s.Tidy) (h : s.registry.Owned none) {c : Constraint α}
    (hrole : c.role = .user) (hrigid : c.elastic = none) (hresumed : c.isSuspended = false)
    (hleft : ∀ term ∈ c.left, s.isUserVariable term.var = true)
    (hroom : (s.register c).2.Addressable) :
    (s.register c).2.plain = s.plain.putConstraint (s.register c).1 (some c.plain) :=
  plain_putConstraint (plainVariable?_register hs c hroom)
    (congrArg UserView.constraint? (view_register hs h hrole hrigid hresumed hleft hroom))

theorem plain_addConstraint {s t : Spec α} (hs : s.Tidy) (h : s.registry.Owned none)
    {coefficients : List α} {ids : List VariableId} {relation : Relation} {right above below : α}
    {id : ConstraintId}
    (hadd : s.addConstraint coefficients ids relation right above below = .ok (id, t))
    (hroom : t.Addressable) : t.plain = s.plain.putConstraint id (some (Constraint.fresh
      (List.zipWith Summand.mk coefficients ids) relation right above below .user).plain) := by
  obtain ⟨⟨hadmits, -⟩, hregister⟩ := addConstraint_eq_ok_iff.1 hadd
  have hplain := plain_register hs h (c := .fresh (List.zipWith Summand.mk coefficients ids)
    relation right above below .user) rfl rfl rfl
    (isUserVariable_of_mem_mergeSummands hadmits.isUserVariable) (by rwa [hregister])
  rwa [hregister] at hplain

theorem plain_mutate {s : Spec α} (hs : s.Tidy) (h : s.registry.Owned none) {id : ConstraintId}
    {c : Constraint α} (hc : s.registry.constraint? id = some c) (hrole : c.role = .user)
    {change : Constraint α → Constraint α} (hchange : s.IsUserChange change)
    (hroom : (s.mutate id change).Addressable) :
    (s.mutate id change).plain = s.plain.putConstraint id (some (change c.shown).plain) :=
  plain_putConstraint (plainVariable?_mutate hs h hc hrole hchange hroom)
    (congrArg UserView.constraint? (view_mutate hs h hc hrole hchange hroom))

theorem plain_drop {s : Spec α} (h : s.registry.Owned none) (id : ConstraintId) :
    (s.drop id).plain = s.plain.putConstraint id none :=
  plain_putConstraint (plainVariable?_drop h id) (congrArg UserView.constraint? (view_drop h id))

omit [RangeScalar α] in
/-- A constraint of the caller mentions a variable of the caller with or without its slack. -/
theorem mentions_plain {s : Spec α} (h : s.registry.Owned none) {id : VariableId}
    (hid : s.isUserVariable id = true) {k : ConstraintId} {c : Constraint α}
    (hc : s.registry.constraint? k = some c) : c.plain.mentions id = c.mentions id := by
  obtain ⟨x, hx, hslack⟩ := (s.isUserVariable_iff_extent? id).1 hid
  show c.ownTerms.any _ = c.left.any _
  cases he : c.elastic with
  | none => rw [Constraint.ownTerms_of_rigid he]
  | some e =>
    have howns := h.owns k c e hc he
    have hne : e.slack ≠ id := by
      rintro rfl
      obtain ⟨y, hy, hisSlack, -⟩ := howns.slack
      grind
    rw [howns.left, List.any_append]
    simp [hne]

/-- **A variable is removed from the table with the constraints that mention it.** -/
theorem plain_removeVariable {s : Spec α} (haddressable : s.Addressable)
    (h : s.registry.Owned none) {id : VariableId} (hid : s.isUserVariable id = true) :
    (((s.mentioning id).foldl drop s).dropVariable id).plain = s.plain.removeVariable id := by
  obtain ⟨x, hx, hslack⟩ := (s.isUserVariable_iff_extent? id).1 hid
  -- First the constraints go, then the variable with its bound constraints.
  obtain ⟨howned, hextent, hplain⟩ := foldl_drop_induction h
    (P := fun done t => t.registry.extent? id = some x ∧ t.plain = s.plain.eraseConstraints done)
    ⟨hx, s.plain.eraseConstraints_nil.symm⟩ (fun done t k ht howned hrole =>
      ⟨(dropped_drop_of_role howned hrole).extents id x ht.1 hslack, by
        rw [plain_drop howned, ht.2, PlainModel.eraseConstraints_concat]⟩)
    (s.mentioning id) fun k hk => role_of_mem_mentioning haddressable hk
  obtain ⟨hvariables, hconstraints⟩ := PlainModel.mk.inj ((plain_eq _).symm.trans hplain)
  have hkept := howned.range id x hextent
  have hview : (((s.mentioning id).foldl drop s).dropVariable id).registry.view.constraint?
      = ((s.mentioning id).foldl drop s).registry.view.constraint? := by
    rw [registry_dropVariable hextent]
    exact hkept.view_erase
  rw [plain_eq, plainVariable?_dropVariable, hview, hvariables, hconstraints]
  refine PlainModel.ext rfl (funext fun k => ?_)
  show (if k ∈ s.mentioning id then none else s.plain.constraintAt? k)
    = (s.plain.constraintAt? k).filter (!·.mentions id)
  cases hc : s.registry.constraint? k with
  | none =>
    have hnone : s.plain.constraintAt? k = none := by
      show (s.registry.constraint? k).bind _ = none
      rw [hc, Option.bind_none]
    rw [hnone, Option.filter_none, ite_self]
  | some c =>
    have hsome : s.plain.constraintAt? k = c.plain? := by
      show (s.registry.constraint? k).bind _ = _
      rw [hc, Option.bind_some]
    have hmem : k ∈ s.mentioning id ↔ c.role = .user ∧ c.plain.mentions id = true := by
      rw [mem_mentioning haddressable, hc, mentions_plain h hid hc]
      simp
    rw [hsome, Constraint.plain?]
    by_cases hrole : c.role = .user
    · cases hmentions : c.plain.mentions id <;> simp [hrole, hmentions, hmem, Option.filter]
    · simp [hrole]

/-! ### Values -/

omit [RangeScalar α] in
theorem plain_solve (s : Spec α) : s.solve.plain = s.plain :=
  plain_congr s.plainVariable?_solve (by rw [registry_solve])

omit [Scalar α] [RangeScalar α] in
/-- What the table says of a variable, its standing says. -/
theorem plainVariable?_congr {s t : Spec α} (h : t.standing? = s.standing?) :
    t.plainVariable? = s.plainVariable? := by
  have hplain : ∀ (u : Spec α) (id : VariableId), u.plainVariable? id = (u.standing? id).bind
      fun x => if x.isSlack then none else some ⟨x.lower, x.upper, x.label⟩ := by
    intro u id
    unfold standing?
    rw [Option.bind_map]
    rfl
  funext id
  rw [hplain, hplain, h]

omit [RangeScalar α] in
theorem plain_sizeQuery {s t : Spec α} (hs : s.Tidy) (h : s.registry.Owned none)
    {width height : VariableId} {target : α} {unbounded size : Size α}
    (hquery : s.sizeQuery width height target unbounded = .ok (size, t)) (hroom : t.Addressable) :
    t.plain = s.plain := by
  have hsame := sameButValues_sizeQuery hs h hquery hroom
  have hregistry := registry_sizeQuery hs h.resumed hquery hroom
  exact plain_congr (plainVariable?_congr hsame.standings) (by rw [hregistry])

end Spec

end ElasticLayout
