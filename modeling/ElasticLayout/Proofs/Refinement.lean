import ElasticLayout.Proofs.PlainChanges

/-!
# A specification behaves like its tables

Every call of a specification does to the tables behind it what the call on the tables says, and
gives the same answer.  The checks read nothing but the tables.  Only the calls that give names and
the size queries accept a slack or an internal constraint; there they are left out.

* `Spec.isUserVariable_eq`, `Spec.isUserConstraint_eq`, `Spec.summands_eq` -- the checks;
* `Spec.map_plain_setRange` ... `Spec.map_plain_change` -- changes that may be rejected;
* `Spec.Refines`, `Spec.refines_perform` -- one call of a specification is one call on the tables.
-/

namespace ElasticLayout.Spec

variable {α : Type}

/-! ### Checks -/

theorem isUserVariable_eq (s : Spec α) (id : VariableId) :
    s.isUserVariable id = (s.plain.variableAt? id).isSome := by
  rw [Bool.eq_iff_iff, isUserVariable_iff, Option.isSome_iff_exists]
  show _ ↔ ∃ x, s.plainVariable? id = some x
  constructor
  · rintro ⟨v, hv, hslack⟩
    exact ⟨_, plainVariable?_eq_some.2 ⟨v, hv, hslack, rfl⟩⟩
  · rintro ⟨x, hx⟩
    obtain ⟨v, hv, hslack, -⟩ := plainVariable?_eq_some.1 hx
    exact ⟨v, hv, hslack⟩

theorem constraintAt?_eq_some {s : Spec α} {id : ConstraintId} {c : PlainConstraint α} :
    s.plain.constraintAt? id = some c ↔
      ∃ d, s.getConstraint? id = some d ∧ d.role = .user ∧ c = d.plain := by
  show (s.getConstraint? id).bind Constraint.plain? = some c ↔ _
  rw [Option.bind_eq_some_iff]
  refine exists_congr fun d => and_congr_right fun _ => ?_
  unfold Constraint.plain?
  split <;> simp_all [eq_comm]

theorem isUserConstraint_eq (s : Spec α) (id : ConstraintId) :
    s.isUserConstraint id = (s.plain.constraintAt? id).isSome := by
  rw [Bool.eq_iff_iff, isUserConstraint_iff, Option.isSome_iff_exists]
  constructor
  · rintro ⟨c, hc, hrole⟩
    exact ⟨_, constraintAt?_eq_some.2 ⟨c, hc, hrole, rfl⟩⟩
  · rintro ⟨c, hc⟩
    obtain ⟨d, hd, hrole, -⟩ := constraintAt?_eq_some.1 hc
    exact ⟨d, hd, hrole⟩

/-- A left side is accepted if the table knows its variables. -/
theorem summands_eq (s : Spec α) (coefficients : List α) (ids : List VariableId) :
    s.summands coefficients ids = s.plain.summands coefficients ids := by
  have hcheck : (fun id => !s.isUserVariable id)
      = fun id => (s.plain.variableAt? id).isNone := by
    funext id
    rw [isUserVariable_eq, Option.not_isSome]
  unfold summands PlainModel.summands
  rewrite [hcheck]
  rfl

theorem findVariable_eq_error {s : Spec α} {id : VariableId} (h : s.isUserVariable id = false) :
    s.plain.findVariable id = .error (.invalidVariable id) := by
  rw [isUserVariable_eq, Option.isSome_eq_false_iff, Option.isNone_iff_eq_none] at h
  unfold PlainModel.findVariable
  rw [h]

theorem findVariable_eq_ok {s : Spec α} {id : VariableId} (h : s.isUserVariable id = true) :
    ∃ v, s.getVariable? id = some v ∧ v.isSlack = false ∧
      s.plain.findVariable id = .ok ⟨v.lower, v.upper, v.label⟩ := by
  obtain ⟨v, hv, hslack⟩ := (s.isUserVariable_iff id).1 h
  have hplain : s.plain.variableAt? id = some ⟨v.lower, v.upper, v.label⟩ :=
    plainVariable?_eq_some.2 ⟨v, hv, hslack, rfl⟩
  refine ⟨v, hv, hslack, ?_⟩
  unfold PlainModel.findVariable
  rw [hplain]

theorem findConstraint_eq_error {s : Spec α} {id : ConstraintId}
    (h : s.isUserConstraint id = false) :
    s.plain.findConstraint id = .error (.invalidConstraint id) := by
  rw [isUserConstraint_eq, Option.isSome_eq_false_iff, Option.isNone_iff_eq_none] at h
  unfold PlainModel.findConstraint
  rw [h]

theorem findConstraint_eq_ok {s : Spec α} {id : ConstraintId} (h : s.isUserConstraint id = true) :
    ∃ c, s.getConstraint? id = some c ∧ c.role = .user ∧
      s.plain.findConstraint id = .ok c.plain := by
  obtain ⟨c, hc, hrole⟩ := (s.isUserConstraint_iff id).1 h
  have hplain : s.plain.constraintAt? id = some c.plain :=
    constraintAt?_eq_some.2 ⟨c, hc, hrole, rfl⟩
  refine ⟨c, hc, hrole, ?_⟩
  unfold PlainModel.findConstraint
  rw [hplain]

/-! ### Changes that may be rejected -/

theorem map_plain_setVariableLabel {s : Spec α} {id : VariableId} (label : String)
    (hid : (s.getVariable? id).isSome = true → s.isUserVariable id = true) :
    (s.setVariableLabel id label).map plain = s.plain.setVariableLabel id label := by
  unfold setVariableLabel PlainModel.setVariableLabel
  split
  · rename_i hlive
    obtain ⟨v, hv, hslack, hfind⟩ := findVariable_eq_ok (hid hlive)
    rw [hfind]
    exact congrArg Except.ok (plain_nameVariable
      (plainVariable?_eq_some.2 ⟨v, hv, hslack, rfl⟩) (some label))
  · rename_i hstale
    rw [findVariable_eq_error (Bool.eq_false_iff.2 fun huser => ?_)]
    · rfl
    · obtain ⟨v, hv, -⟩ := (s.isUserVariable_iff id).1 huser
      rw [hv] at hstale
      exact hstale rfl

theorem map_plain_setConstraintLabel {s : Spec α} {id : ConstraintId} (label : String)
    (hid : (s.getConstraint? id).isSome = true → s.isUserConstraint id = true) :
    (s.setConstraintLabel id label).map plain = s.plain.setConstraintLabel id label := by
  unfold setConstraintLabel PlainModel.setConstraintLabel
  split
  · rename_i hlive
    obtain ⟨c, hc, hrole, hfind⟩ := findConstraint_eq_ok (hid hlive)
    rw [hfind]
    exact congrArg Except.ok (plain_nameConstraint hc hrole (some label))
  · rename_i hstale
    rw [findConstraint_eq_error (Bool.eq_false_iff.2 fun huser => ?_)]
    · rfl
    · obtain ⟨c, hc, -⟩ := (s.isUserConstraint_iff id).1 huser
      rw [hc] at hstale
      exact hstale rfl

variable [Scalar α]

theorem map_plain_setRange {s : Spec α} (hs : s.Tidy) (h : s.registry.Owned none)
    (id : VariableId) (lower upper : α)
    (hroom : ∀ t, s.setRange id lower upper = .ok t → t.Addressable) :
    (s.setRange id lower upper).map plain = s.plain.setRange id lower upper := by
  unfold setRange at hroom ⊢
  unfold PlainModel.setRange
  split
  · rename_i huser
    obtain ⟨v, hv, hslack, hfind⟩ := findVariable_eq_ok huser
    rw [hfind]
    show _ = if isRange lower upper = true then _ else _
    split
    · rename_i hrange
      refine congrArg Except.ok (plain_applyRange hs h
        (plainVariable?_eq_some.2 ⟨v, hv, hslack, rfl⟩) (hroom _ ?_))
      rw [if_pos huser, if_pos hrange]
    · rfl
  · rename_i huser
    rw [findVariable_eq_error (by simpa using huser)]
    rfl

theorem map_plain_setLower {s : Spec α} (hs : s.Tidy) (h : s.registry.Owned none)
    (id : VariableId) (lower : α) (hroom : ∀ t, s.setLower id lower = .ok t → t.Addressable) :
    (s.setLower id lower).map plain = s.plain.setLower id lower := by
  unfold PlainModel.setLower
  cases huser : s.isUserVariable id with
  | true =>
    obtain ⟨v, hv, -, hfind⟩ := findVariable_eq_ok huser
    unfold setLower at hroom ⊢
    rw [hfind]
    rw [hv] at hroom ⊢
    exact map_plain_setRange hs h id lower v.upper hroom
  | false =>
    rw [findVariable_eq_error huser]
    unfold setLower setRange
    rw [huser]
    split <;> rfl

theorem map_plain_setUpper {s : Spec α} (hs : s.Tidy) (h : s.registry.Owned none)
    (id : VariableId) (upper : α) (hroom : ∀ t, s.setUpper id upper = .ok t → t.Addressable) :
    (s.setUpper id upper).map plain = s.plain.setUpper id upper := by
  unfold PlainModel.setUpper
  cases huser : s.isUserVariable id with
  | true =>
    obtain ⟨v, hv, -, hfind⟩ := findVariable_eq_ok huser
    unfold setUpper at hroom ⊢
    rw [hfind]
    rw [hv] at hroom ⊢
    exact map_plain_setRange hs h id v.lower upper hroom
  | false =>
    rw [findVariable_eq_error huser]
    unfold setUpper setRange
    rw [huser]
    split <;> rfl

variable [RangeScalar α]

/-- **A field of a constraint is replaced**, once the arguments have passed a check. -/
theorem map_plain_change {s : Spec α} (hs : s.Tidy) (h : s.registry.Owned none) {β : Type}
    (id : ConstraintId) (check : Except (SpecError α) β) (change : β → Constraint α → Constraint α)
    (field : β → PlainConstraint α → PlainConstraint α)
    (hchange : ∀ b, check = .ok b → s.IsUserChange (change b))
    (hfield : ∀ b (c : Constraint α), (change b c.shown).plain = field b c.plain)
    (hroom : ∀ t, (do
      s.checkConstraint id
      let b ← check
      return s.mutate id (change b)) = .ok t → t.Addressable) :
    (do s.checkConstraint id
        let b ← check
        return s.mutate id (change b) : Except (SpecError α) (Spec α)).map plain
      = (do let c ← s.plain.findConstraint id
            let b ← check
            return s.plain.putConstraint id (some (field b c))) := by
  unfold checkConstraint at hroom ⊢
  cases huser : s.isUserConstraint id with
  | false =>
    rw [findConstraint_eq_error huser]
    rfl
  | true =>
    obtain ⟨c, hc, hrole, hfind⟩ := findConstraint_eq_ok huser
    rw [huser] at hroom
    rw [hfind]
    cases check with
    | error e => rfl
    | ok b =>
      refine congrArg Except.ok
        ((plain_mutate hs h hc hrole (hchange b rfl) (hroom _ rfl)).trans ?_)
      rw [hfield]

/-- A constraint is added under a handle that was stale. -/
theorem map_plain_addConstraint {s : Spec α} (hs : s.Tidy) (h : s.registry.Owned none)
    (coefficients : List α) (ids : List VariableId) (relation : Relation) (right above below : α)
    (hroom : ∀ k t, s.addConstraint coefficients ids relation right above below = .ok (k, t) →
      t.Addressable) :
    ∃ k, (s.addConstraint coefficients ids relation right above below).map
        (fun p => (p.1, p.2.plain))
      = (s.plain.addConstraint k coefficients ids relation right above below).map (k, ·) ∧
      ∀ j t, s.addConstraint coefficients ids relation right above below = .ok (j, t) →
        s.getConstraint? j = none := by
  unfold addConstraint at hroom ⊢
  unfold PlainModel.addConstraint
  rw [← summands_eq]
  cases hleft : s.summands coefficients ids with
  | error e => exact ⟨default, rfl, fun _ _ hok => absurd hok (by simp [bind, Except.bind])⟩
  | ok left =>
    rw [hleft] at hroom
    cases hright : checkRight right with
    | error e => exact ⟨default, rfl, fun _ _ hok => absurd hok (by simp [bind, Except.bind])⟩
    | ok _ =>
      rw [hright] at hroom
      cases hpenalties : checkPenalties above below with
      | error e => exact ⟨default, rfl, fun _ _ hok => absurd hok (by simp [bind, Except.bind])⟩
      | ok _ =>
        rw [hpenalties] at hroom
        have hroom := hroom _ _ rfl
        have hmerged := isUserVariable_of_mem_mergeSummands (summands_ok hleft)
        have hplace := (evolves_attach _ _).addressable hroom
        refine ⟨_, congrArg (fun m => Except.ok (_, m))
          (plain_register hs h rfl rfl rfl hmerged hroom), fun j t hok => ?_⟩
        rw [← (Prod.mk.inj (Except.ok.inj hok)).1]
        exact (registry_place hs hplace).1

/-! ### Calls -/

/-- The handle of a slack. -/
def IsSlack (s : Spec α) (id : VariableId) : Prop :=
  (s.getVariable? id).isSome = true ∧ s.isUserVariable id = false

/-- The handle of an internal constraint. -/
def IsInternal (s : Spec α) (id : ConstraintId) : Prop :=
  (s.getConstraint? id).isSome = true ∧ s.isUserConstraint id = false

/-- The call is one that accepts slacks or internal constraints, and names such a one. -/
def NamesInternal (s : Spec α) : Operation α → Prop
  | .setVariableLabel id _ => s.IsSlack id
  | .setConstraintLabel id _ => s.IsInternal id
  | .minSize width height => s.IsSlack width ∨ s.IsSlack height
  | .maxSize width height => s.IsSlack width ∨ s.IsSlack height
  | _ => False

/-- What a call does to the tables is what the call on the tables says, with handles for new entries
that were stale before.  The answer is the same, and of a call that answers with values it is told
whether it is rejected. -/
structure Refines (s : Spec α) (op : Operation α) (v : VariableId) (k : ConstraintId) : Prop where
  /-- The tables after the call. -/
  plain : (s.perform op).1.plain = (s.plain.perform v k op).1
  /-- The answer to the call. -/
  reply : op.isEdit = true → (s.perform op).2 = (s.plain.perform v k op).2
  /-- Whether the call is rejected, and why. -/
  rejection : (s.perform op).2.rejection? = (s.plain.perform v k op).2.rejection?
  /-- A new variable has a handle that was stale. -/
  fresh_variable : ∀ id, (s.perform op).2 = .variable id → s.getVariable? id = none
  /-- A new constraint has a handle that was stale. -/
  fresh_constraint : ∀ id, (s.perform op).2 = .constraint id → s.getConstraint? id = none

omit [RangeScalar α] in
/-- The answer to an edit is the same, so it is rejected for the same reason. -/
theorem refines_of_eq {s : Spec α} {op : Operation α} {v : VariableId} {k : ConstraintId}
    (h : ((s.perform op).1.plain, (s.perform op).2) = s.plain.perform v k op)
    (hvariable : ∀ id, (s.perform op).2 = .variable id → s.getVariable? id = none)
    (hconstraint : ∀ id, (s.perform op).2 = .constraint id → s.getConstraint? id = none) :
    s.Refines op v k :=
  ⟨by rw [← h], fun _ => by rw [← h], by rw [← h], hvariable, hconstraint⟩

omit [RangeScalar α] in
theorem refines_of_afterChange {s : Spec α} {op : Operation α} {v : VariableId} {k : ConstraintId}
    {r : Except (SpecError α) (Spec α)} {m : Except (SpecError α) (PlainModel α)}
    (hs : s.perform op = s.afterChange r) (hm : s.plain.perform v k op = s.plain.afterChange m)
    (h : r.map Spec.plain = m) : s.Refines op v k := by
  have hreply : (∀ id, (s.afterChange r).2 ≠ .variable id) ∧
      ∀ id, (s.afterChange r).2 ≠ .constraint id := by
    cases r <;> exact ⟨by simp [afterChange], by simp [afterChange]⟩
  refine refines_of_eq ?_ (fun id hid => ?_) (fun id hid => ?_)
  · rw [hs, hm]
    subst h
    cases r <;> rfl
  · exact absurd (hs ▸ hid) (hreply.1 id)
  · exact absurd (hs ▸ hid) (hreply.2 id)

omit [RangeScalar α] in
theorem refines_of_afterAddition {s : Spec α} {op : Operation α} {v : VariableId}
    {k : ConstraintId} {r : Except (SpecError α) (ConstraintId × Spec α)}
    {m : Except (SpecError α) (PlainModel α)} (hs : s.perform op = s.afterAddition r)
    (hm : s.plain.perform v k op = s.plain.afterAddition k m)
    (h : r.map (fun p => (p.1, p.2.plain)) = m.map (k, ·))
    (hfresh : ∀ j t, r = .ok (j, t) → s.getConstraint? j = none) : s.Refines op v k := by
  refine refines_of_eq ?_ (fun id hid => ?_) (fun id hid => ?_)
  · rw [hs, hm]
    cases r with
    | error e =>
      cases m with
      | error e' =>
        obtain rfl := Except.error.inj h
        rfl
      | ok n => exact absurd h (by simp [Except.map])
    | ok p =>
      cases m with
      | error e' => exact absurd h (by simp [Except.map])
      | ok n =>
        obtain ⟨hk, hplain⟩ := Prod.mk.inj (Except.ok.inj h)
        show (p.2.plain, Reply.constraint p.1) = (n, .constraint k)
        rw [hk, hplain]
  · rw [hs] at hid
    cases r <;> exact absurd hid (by simp [afterAddition])
  · rw [hs] at hid
    cases r with
    | error e => exact absurd hid (by simp [afterAddition])
    | ok p =>
      obtain rfl := Reply.constraint.inj hid
      exact hfresh p.1 p.2 rfl

theorem refines_removeVariable {s : Spec α} (h : s.registry.Owned none) (id : VariableId)
    (hroom : (s.perform (.removeVariable id)).1.Addressable) :
    s.Refines (.removeVariable id) default default := by
  have htables : s.plain.perform default default (.removeVariable id)
      = if s.isUserVariable id then (s.plain.removeVariable id, .removed true)
        else (s.plain, .removed false) := by
    rw [isUserVariable_eq]
    rfl
  have hcall : s.perform (.removeVariable id) = if s.isUserVariable id then
      (((s.mentioning id).foldl drop s).dropVariable id, .removed true)
      else (s, .removed false) := by
    show ((s.removeVariable id).2, Reply.removed (s.removeVariable id).1) = _
    unfold removeVariable
    split <;> rfl
  cases huser : s.isUserVariable id with
  | true =>
    rw [huser, if_pos rfl] at htables hcall
    rw [hcall] at hroom
    have haddressable : s.Addressable := ((Evolves.foldl_zero evolves_drop _ s).trans
      (evolves_dropVariable _ id)).addressable hroom
    refine refines_of_eq ?_ (by simp [hcall]) (by simp [hcall])
    rw [hcall, htables, plain_removeVariable haddressable h huser]
  | false =>
    rw [huser, if_neg (by simp)] at htables hcall
    exact refines_of_eq (by rw [hcall, htables]) (by simp [hcall]) (by simp [hcall])

theorem refines_removeConstraint {s : Spec α} (h : s.registry.Owned none) (id : ConstraintId) :
    s.Refines (.removeConstraint id) default default := by
  have htables : s.plain.perform default default (.removeConstraint id)
      = if s.isUserConstraint id then (s.plain.putConstraint id none, .removed true)
        else (s.plain, .removed false) := by
    rw [isUserConstraint_eq]
    rfl
  have hcall : s.perform (.removeConstraint id) = if s.isUserConstraint id then
      (s.drop id, .removed true) else (s, .removed false) := by
    show ((s.removeConstraint id).2, Reply.removed (s.removeConstraint id).1) = _
    unfold removeConstraint
    split <;> rfl
  cases huser : s.isUserConstraint id with
  | true =>
    rw [huser, if_pos rfl] at htables hcall
    refine refines_of_eq ?_ (by simp [hcall]) (by simp [hcall])
    rw [hcall, htables, plain_drop h]
  | false =>
    rw [huser, if_neg (by simp)] at htables hcall
    exact refines_of_eq (by rw [hcall, htables]) (by simp [hcall]) (by simp [hcall])

omit [Scalar α] [RangeScalar α] in
/-- A handle that is not that of a slack is stale if the table does not know it. -/
theorem isNone_getVariable? {s : Spec α} {id : VariableId} (hid : ¬s.IsSlack id) :
    (s.getVariable? id).isNone = (s.plain.variableAt? id).isNone := by
  rw [← Option.not_isSome, ← Option.not_isSome, ← isUserVariable_eq]
  congr 1
  cases huser : s.isUserVariable id with
  | true =>
    obtain ⟨v, hv, -⟩ := (s.isUserVariable_iff id).1 huser
    rw [hv]
    rfl
  | false => exact Bool.eq_false_iff.2 fun hlive => hid ⟨hlive, huser⟩

omit [RangeScalar α] in
/-- A size query changes nothing in the tables. -/
theorem refines_of_afterQuery {s : Spec α} (hs : s.Tidy) (h : s.registry.Owned none)
    {op : Operation α} {v : VariableId} {k : ConstraintId} {width height : VariableId} {target : α}
    {unbounded : Size α} (hnames : ¬(s.IsSlack width ∨ s.IsSlack height))
    (hcall : s.perform op = s.afterQuery (s.sizeQuery width height target unbounded))
    (htables : s.plain.perform v k op = s.plain.query width height) (hedit : op.isEdit = false)
    (hroom : (s.perform op).1.Addressable) : s.Refines op v k := by
  have hreply : (∀ id, (s.perform op).2 ≠ .variable id) ∧
      ∀ id, (s.perform op).2 ≠ .constraint id := by
    rw [hcall]
    cases s.sizeQuery width height target unbounded <;>
      exact ⟨by simp [afterQuery], by simp [afterQuery]⟩
  have hplain : (s.perform op).1.plain = s.plain := by
    rw [hcall] at hroom ⊢
    cases hquery : s.sizeQuery width height target unbounded with
    | error e => rfl
    | ok p =>
      rw [hquery] at hroom
      exact plain_sizeQuery hs h hquery hroom
  have hquery : (s.plain.query width height).1 = s.plain := by
    unfold PlainModel.query
    split
    · rfl
    · split <;> rfl
  have hrejection : (s.afterQuery (s.sizeQuery width height target unbounded)).2.rejection?
      = (s.plain.query width height).2.rejection? := by
    unfold sizeQuery PlainModel.query
    rw [← isNone_getVariable? fun hw => hnames (.inl hw),
      ← isNone_getVariable? fun hw => hnames (.inr hw)]
    split
    · rfl
    · split <;> rfl
  exact ⟨by rw [hplain, htables, hquery], fun hop => absurd hop (by simp [hedit]),
    by rw [hcall, htables, hrejection], fun id hid => absurd hid (hreply.1 id),
    fun id hid => absurd hid (hreply.2 id)⟩

/-- **One call of a specification is one call on the tables.** -/
theorem refines_perform {s : Spec α} (hs : s.Tidy) (h : s.registry.Owned none)
    {op : Operation α} (hop : ¬s.NamesInternal op) (hroom : (s.perform op).1.Addressable) :
    ∃ v k, s.Refines op v k := by
  have hchange : ∀ {r : Except (SpecError α) (Spec α)}, (s.afterChange r).1.Addressable →
      ∀ t, r = .ok t → t.Addressable := by
    rintro r hr t rfl
    exact hr
  cases op with
  | addVariable label =>
    have hfresh : s.getVariable? (s.addVariable label).1 = none :=
      SlotStore.get?_insert_fresh hs.1 hroom.1
    refine ⟨(s.addVariable label).1, default, refines_of_eq ?_ (fun id hid => ?_)
      (by simp [perform])⟩
    · exact congrArg (·, Reply.variable (s.addVariable label).1) (plain_addVariable hs label hroom)
    · rwa [← Reply.variable.inj hid]
  | removeVariable id => exact ⟨default, default, refines_removeVariable h id hroom⟩
  | setVariableLabel id label =>
    refine ⟨default, default, refines_of_afterChange rfl rfl
      (map_plain_setVariableLabel label fun hlive => ?_)⟩
    simpa [NamesInternal, IsSlack, IsInternal, hlive] using hop
  | setRange id lower upper =>
    exact ⟨default, default, refines_of_afterChange rfl rfl
      (map_plain_setRange hs h id lower upper (hchange hroom))⟩
  | setLower id lower =>
    exact ⟨default, default, refines_of_afterChange rfl rfl
      (map_plain_setLower hs h id lower (hchange hroom))⟩
  | setUpper id upper =>
    exact ⟨default, default, refines_of_afterChange rfl rfl
      (map_plain_setUpper hs h id upper (hchange hroom))⟩
  | addConstraint coefficients ids relation right above below =>
    obtain ⟨k, hmap, hfresh⟩ := map_plain_addConstraint hs h coefficients ids relation right above
      below (fun k t hok => by rw [perform, hok] at hroom; exact hroom)
    exact ⟨default, k, refines_of_afterAddition rfl rfl hmap hfresh⟩
  | relate relation a b above below =>
    obtain ⟨k, hmap, hfresh⟩ := map_plain_addConstraint hs h [1, -1] [a, b] relation 0 above
      below (fun k t hok => by rw [perform, relate, hok] at hroom; exact hroom)
    exact ⟨default, k, refines_of_afterAddition rfl rfl hmap hfresh⟩
  | removeConstraint id => exact ⟨default, default, refines_removeConstraint h id⟩
  | setLeft id coefficients ids =>
    refine ⟨default, default, refines_of_afterChange rfl rfl ?_⟩
    have hmap := map_plain_change hs h id (s.summands coefficients ids)
      (fun left c => { c with left := mergeSummands left })
      (fun left c => { c with left := mergeSummands left })
      (fun left hleft => isUserChange_setLeft (summands_ok hleft)) (fun _ _ => rfl) (hchange hroom)
    exact hmap.trans (by rw [summands_eq]; rfl)
  | setRelation id relation =>
    exact ⟨default, default, refines_of_afterChange rfl rfl (map_plain_change hs h id (.ok ())
      (fun _ c => { c with relation }) (fun _ c => { c with relation })
      (fun _ _ => ⟨fun _ => rfl, fun _ => rfl, fun _ => rfl, fun _ _ => .inl⟩)
      (fun _ _ => rfl) (hchange hroom))⟩
  | setRight id right =>
    exact ⟨default, default, refines_of_afterChange rfl rfl (map_plain_change hs h id
      (checkRight right) (fun _ c => { c with right }) (fun _ c => { c with right })
      (fun _ _ => ⟨fun _ => rfl, fun _ => rfl, fun _ => rfl, fun _ _ => .inl⟩)
      (fun _ _ => rfl) (hchange hroom))⟩
  | setPenalties id above below =>
    exact ⟨default, default, refines_of_afterChange rfl rfl (map_plain_change hs h id
      (checkPenalties above below)
      (fun _ c => { c with penaltyAbove := above, penaltyBelow := below })
      (fun _ c => { c with penaltyAbove := above, penaltyBelow := below })
      (fun _ _ => ⟨fun _ => rfl, fun _ => rfl, fun _ => rfl, fun _ _ => .inl⟩)
      (fun _ _ => rfl) (hchange hroom))⟩
  | setConstraintLabel id label =>
    refine ⟨default, default, refines_of_afterChange rfl rfl
      (map_plain_setConstraintLabel label fun hlive => ?_)⟩
    simpa [NamesInternal, IsSlack, IsInternal, hlive] using hop
  | solve =>
    exact ⟨default, default, s.plain_solve, by simp [Operation.isEdit], rfl, by simp [perform],
      by simp [perform]⟩
  | minSize width height =>
    exact ⟨default, default, refines_of_afterQuery hs h hop rfl rfl rfl hroom⟩
  | maxSize width height =>
    exact ⟨default, default, refines_of_afterQuery hs h hop rfl rfl rfl hroom⟩

end ElasticLayout.Spec
