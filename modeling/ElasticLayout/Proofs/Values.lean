import ElasticLayout.Proofs.QueryProblem

/-!
# Where values come from

A value is written by a successful solve, in the column of its variable, and by nothing else.  It
stays until another solve succeeds, however many solves fail in between, and whatever the caller
changes.  So a size that is reported after a failed solve is the one that the variables had before.

* `Spec.KeepsValues` -- a change after which no variable has a number that it had not before;
* `Spec.Writes` -- what a successful solve writes;
* `Spec.keepsValues_perform`, `Spec.value?_perform` -- what one call does to the values;
* `Spec.WrittenIn`, `Spec.value?_run` -- where a value comes from, over a history of calls;
* `Spec.QueryStages.value?_eq` -- the values after a query are those of what it solved;
* `Spec.reported_size_origin` -- the main result.
-/

namespace ElasticLayout.Spec

variable {α : Type}

/-! ### Changes that leave the values alone -/

theorem value?_congr {s t : Spec α} (h : t.variableStore = s.variableStore) :
    t.value? = s.value? := by
  funext id
  unfold value? getVariable?
  rw [h]

theorem value?_modifyVariable (s : Spec α) (id : VariableId) {f : Variable α → Variable α}
    (h : ∀ v, (f v).value = v.value) : (s.modifyVariable id f).value? = s.value? := by
  funext other
  unfold value?
  rw [getVariable?_modifyVariable]
  split
  · rename_i hother
    rw [hother, Option.map_map]
    exact congrArg (Option.map · _) (funext h)
  · rfl

theorem value?_modifyConstraint (s : Spec α) (k : ConstraintId)
    (f : Constraint α → Constraint α) : (s.modifyConstraint k f).value? = s.value? := rfl

theorem value?_retain (s : Spec α) (left : List (Summand α)) :
    (s.retain left).value? = s.value? := by
  refine foldl_keeps value? (fun s term => ?_) left s
  exact s.value?_modifyVariable term.var fun _ => rfl

theorem value?_release (s : Spec α) (left : List (Summand α)) :
    (s.release left).value? = s.value? := by
  refine foldl_keeps value? (fun s term => ?_) left s
  exact s.value?_modifyVariable term.var fun _ => rfl

theorem value?_place (s : Spec α) (c : Constraint α) : (s.place c).2.value? = s.value? :=
  s.value?_retain c.left

theorem value?_withdraw (s : Spec α) (k : ConstraintId) : (s.withdraw k).value? = s.value? :=
  withdraw_keeps value? (fun _ _ => rfl) value?_release s k

theorem value?_setSuspended (suspended : Bool) (s : Spec α) (k : ConstraintId) :
    (s.setSuspended suspended k).value? = s.value? :=
  value?_congr (variableStore_setSuspended suspended s k)

variable [Scalar α]

theorem value?_syncBound (s : Spec α) (id : VariableId) (existing : Option ConstraintId)
    (relation : Relation) (limit : α) (needed : Bool) :
    (s.syncBound id existing relation limit needed).2.value? = s.value? := by
  unfold syncBound
  split
  · rfl
  · exact s.value?_withdraw _
  · exact s.value?_place _
  · rfl

theorem value?_applyRange (s : Spec α) (id : VariableId) (lower upper : α) :
    (s.applyRange id lower upper).value? = s.value? := by
  cases hv : s.getVariable? id with
  | none =>
    unfold applyRange
    rw [hv]
  | some v =>
    obtain ⟨s₁, s₂, s₃, lowerBound, upperBound, hstages⟩ := exists_rangeStages hv lower upper
    have hlower : s₂.value? = s₁.value? :=
      (congrArg (fun p => p.2.value?) hstages.lowerEnd.symm).trans (s₁.value?_syncBound _ _ _ _ _)
    have hupper : s₃.value? = s₂.value? :=
      (congrArg (fun p => p.2.value?) hstages.upperEnd.symm).trans (s₂.value?_syncBound _ _ _ _ _)
    have hends : s₁.value? = s.value? := hstages.ends ▸ s.value?_modifyVariable id fun _ => rfl
    have hlinks : (s.applyRange id lower upper).value? = s₃.value? :=
      hstages.links ▸ s₃.value?_modifyVariable id fun _ => rfl
    rw [hlinks, hupper, hlower, hends]

/-! ### Changes that write nothing -/

/-- A change that writes nothing: where there is a value afterwards, it was there before, or has not
been computed. -/
def KeepsValues (s t : Spec α) : Prop :=
  ∀ id a, t.value? id = some a → s.value? id = some a ∨ a = Scalar.nan

namespace KeepsValues

variable {s t u : Spec α}

theorem of_eq (h : t.value? = s.value?) : s.KeepsValues t := fun id a ha =>
  .inl (by rwa [← h])

theorem refl (s : Spec α) : s.KeepsValues s := .of_eq rfl

theorem trans (h : s.KeepsValues t) (h' : t.KeepsValues u) : s.KeepsValues u := fun id a ha =>
  (h' id a ha).elim (h id a) .inr

theorem foldl {β : Type} {f : Spec α → β → Spec α}
    (h : ∀ (s : Spec α) (b : β), s.KeepsValues (f s b)) (bs : List β) (s : Spec α) :
    s.KeepsValues (bs.foldl f s) := by
  induction bs generalizing s with
  | nil => exact .refl s
  | cons b bs ih => exact (h s b).trans (ih (f s b))

end KeepsValues

/-- A new variable has no value yet. -/
theorem keepsValues_insertVariable (s : Spec α) (label : Option String) (isSlack : Bool) :
    s.KeepsValues { s with variableStore :=
      (s.variableStore.insert (Variable.fresh label isSlack : Variable α)).2 } := by
  intro id a ha
  obtain ⟨v, hv, rfl⟩ := Option.map_eq_some_iff.1 ha
  rcases SlotStore.eq_or_get?_of_insert hv with rfl | hold
  · exact .inr rfl
  · exact .inl (Option.map_eq_some_iff.2 ⟨v, hold, rfl⟩)

theorem keepsValues_dropVariable (s : Spec α) (id : VariableId) :
    s.KeepsValues (s.dropVariable id) := by
  unfold dropVariable
  split
  · exact .refl s
  · rename_i v _
    refine (KeepsValues.of_eq (foldl_keeps value? value?_withdraw v.bounds s)).trans ?_
    intro other a ha
    obtain ⟨w, hw, rfl⟩ := Option.map_eq_some_iff.1 ha
    have hget : ((v.bounds.foldl withdraw s).variableStore.erase id.slot).get? other.slot
        = some w := hw
    rw [SlotStore.erase_get?, Function.update_apply] at hget
    split at hget
    · exact absurd hget (by simp)
    · exact .inl (Option.map_eq_some_iff.2 ⟨w, hget, rfl⟩)

theorem keepsValues_attachSlack (s : Spec α) (id : ConstraintId) (c : Constraint α) (a : α) :
    s.KeepsValues (s.attachSlack id c a) := by
  obtain ⟨s₁, s₂, s₃, s₄, slack, penalty, hstages⟩ := s.exists_slackStages id c a
  have hinserted : s.KeepsValues s₁ := hstages.inserted ▸ s.keepsValues_insertVariable none true
  have hranged : s₂.value? = s₁.value? := hstages.ranged ▸ s₁.value?_applyRange _ _ _
  have hextended : s₃.value? = s₂.value? := hstages.extended ▸ value?_retain _ _
  have hpenalized : s₄.value? = s₃.value? :=
    (congrArg (fun p => p.2.value?) hstages.penalized.symm).trans (s₃.value?_place _)
  have hlinked : (s.attachSlack id c a).value? = s₄.value? := hstages.linked ▸ rfl
  exact hinserted.trans (.of_eq (hlinked.trans (hpenalized.trans (hextended.trans hranged))))

theorem keepsValues_attach (s : Spec α) (id : ConstraintId) : s.KeepsValues (s.attach id) := by
  obtain hsettled | ⟨c, a, hc, hrigid, hsoft, ha⟩ := s.settled_or_pending id
  · rw [attach_of_settled hsettled]
    exact .refl s
  · rw [attach_of_softInequality hc hrigid hsoft ha]
    exact s.keepsValues_attachSlack _ _ _

theorem keepsValues_register (s : Spec α) (c : Constraint α) :
    s.KeepsValues (s.register c).2 :=
  (KeepsValues.of_eq (s.value?_place c)).trans (keepsValues_attach _ _)

theorem keepsValues_detach (s : Spec α) (id : ConstraintId) : s.KeepsValues (s.detach id) := by
  obtain hrigid | ⟨c, e, hc, he⟩ := s.rigid_or_elastic id
  · rw [detach_of_rigid hrigid]
    exact .refl s
  · rw [detach_eq hc he]
    refine KeepsValues.trans (.of_eq ?_) (keepsValues_dropVariable _ _)
    rw [value?_withdraw, value?_release, value?_modifyConstraint]

theorem keepsValues_drop (s : Spec α) (id : ConstraintId) : s.KeepsValues (s.drop id) :=
  (s.keepsValues_detach id).trans (.of_eq (value?_withdraw _ _))

theorem keepsValues_mutate (s : Spec α) (id : ConstraintId)
    (change : Constraint α → Constraint α) : s.KeepsValues (s.mutate id change) := by
  refine (s.keepsValues_detach id).trans ?_
  cases hc : (s.detach id).getConstraint? id with
  | none =>
    unfold mutate
    dsimp only
    rw [hc]
    exact .refl _
  | some c =>
    rw [mutate_eq hc]
    refine KeepsValues.trans (.of_eq ?_) (keepsValues_attach _ _)
    rw [value?_retain, value?_release, value?_modifyConstraint]

theorem keepsValues_removeVariable (s : Spec α) (id : VariableId) :
    s.KeepsValues (s.removeVariable id).2 := by
  unfold removeVariable
  split
  · exact (KeepsValues.foldl keepsValues_drop _ s).trans (keepsValues_dropVariable _ _)
  · exact .refl s

theorem keepsValues_setRange {s t : Spec α} {id : VariableId} {lower upper : α}
    (h : s.setRange id lower upper = .ok t) : s.KeepsValues t := by
  unfold setRange at h
  split at h
  · split at h
    · rw [← Except.ok.inj h]
      exact .of_eq (s.value?_applyRange _ _ _)
    · exact absurd h (by simp)
  · exact absurd h (by simp)

theorem keepsValues_addConstraint {s t : Spec α} {coefficients : List α} {ids : List VariableId}
    {relation : Relation} {right above below : α} {id : ConstraintId}
    (h : s.addConstraint coefficients ids relation right above below = .ok (id, t)) :
    s.KeepsValues t := by
  obtain ⟨-, ht⟩ := addConstraint_eq_ok_iff.1 h
  have hregister := s.keepsValues_register
    (.fresh (List.zipWith Summand.mk coefficients ids) relation right above below .user)
  rwa [ht] at hregister

theorem keepsValues_afterChange {s : Spec α} {r : Except (SpecError α) (Spec α)}
    (h : ∀ t, r = .ok t → s.KeepsValues t) : s.KeepsValues (s.afterChange r).1 := by
  cases r with
  | error e => exact .refl s
  | ok t => exact h t rfl

theorem keepsValues_afterAddition {s : Spec α}
    {r : Except (SpecError α) (ConstraintId × Spec α)}
    (h : ∀ id t, r = .ok (id, t) → s.KeepsValues t) : s.KeepsValues (s.afterAddition r).1 := by
  cases r with
  | error e => exact .refl s
  | ok p => exact h p.1 p.2 rfl

/-- **A call that solves nothing writes nothing.** -/
theorem keepsValues_perform (s : Spec α) {op : Operation α} (h : s.solvedBy? op = none) :
    s.KeepsValues (s.perform op).1 := by
  cases op with
  | addVariable label => exact s.keepsValues_insertVariable label false
  | removeVariable id => exact s.keepsValues_removeVariable id
  | setVariableLabel id label =>
    refine keepsValues_afterChange fun t ht => ?_
    unfold setVariableLabel at ht
    split at ht
    · rw [← Except.ok.inj ht]
      exact .of_eq (s.value?_modifyVariable id fun _ => rfl)
    · exact absurd ht (by simp)
  | setRange id lower upper => exact keepsValues_afterChange fun t ht => keepsValues_setRange ht
  | setLower id lower =>
    refine keepsValues_afterChange fun t ht => ?_
    unfold setLower at ht
    split at ht
    · exact keepsValues_setRange ht
    · exact absurd ht (by simp)
  | setUpper id upper =>
    refine keepsValues_afterChange fun t ht => ?_
    unfold setUpper at ht
    split at ht
    · exact keepsValues_setRange ht
    · exact absurd ht (by simp)
  | addConstraint coefficients ids relation right above below =>
    exact keepsValues_afterAddition fun id t ht => keepsValues_addConstraint ht
  | relate relation a b above below =>
    exact keepsValues_afterAddition fun id t ht => keepsValues_addConstraint ht
  | removeConstraint id =>
    show s.KeepsValues (s.removeConstraint id).2
    unfold removeConstraint
    split
    · exact s.keepsValues_drop id
    · exact .refl s
  | setLeft id coefficients ids =>
    refine keepsValues_afterChange fun t ht => ?_
    obtain ⟨-, rfl⟩ := setLeft_eq_ok_iff.1 ht
    exact s.keepsValues_mutate id _
  | setRelation id relation =>
    refine keepsValues_afterChange fun t ht => ?_
    obtain ⟨_, -, ht⟩ := bind_ok ht
    rw [← Except.ok.inj ht]
    exact s.keepsValues_mutate id _
  | setRight id right =>
    refine keepsValues_afterChange fun t ht => ?_
    obtain ⟨_, -, ht⟩ := bind_ok ht
    obtain ⟨_, -, ht⟩ := bind_ok ht
    rw [← Except.ok.inj ht]
    exact s.keepsValues_mutate id _
  | setPenalties id above below =>
    refine keepsValues_afterChange fun t ht => ?_
    obtain ⟨-, rfl⟩ := setPenalties_eq_ok_iff.1 ht
    exact s.keepsValues_mutate id _
  | setConstraintLabel id label =>
    refine keepsValues_afterChange fun t ht => ?_
    unfold setConstraintLabel at ht
    split at ht
    · rw [← Except.ok.inj ht]
      exact .refl s
    · exact absurd ht (by simp)
  | solve => exact absurd h (by simp [solvedBy?])
  | minSize width height =>
    show s.KeepsValues (s.afterQuery (s.minSize width height)).1
    unfold minSize
    rw [sizeQuery_of_queried?_eq_none h]
    exact .refl s
  | maxSize width height =>
    show s.KeepsValues (s.afterQuery (s.maxSize width height)).1
    unfold maxSize
    rw [sizeQuery_of_queried?_eq_none h]
    exact .refl s

/-! ### What a solve writes -/

/-- The solve succeeds, with the value in the column of the variable. -/
def Writes (u : Spec α) (id : VariableId) (a : α) : Prop :=
  ∃ (x : u.problem.Point) (j : Nat), u.outcome = .ok x ∧ u.columns[j]? = some id ∧
    x.toList[j]? = some a

/-- A solve that fails changes no value. -/
theorem value?_solve_of_error {u : Spec α} {e : SolveError} (h : u.outcome = .error e) :
    u.solve.value? = u.value? := by
  unfold solve
  rw [h]
  rfl

/-- A solve that succeeds writes the values of its columns. -/
theorem writes_of_mem_columns {u : Spec α} {x : u.problem.Point} (hx : u.outcome = .ok x)
    {id : VariableId} (hid : id ∈ u.columns) {a : α} (h : u.solve.value? id = some a) :
    u.Writes id a := by
  have hsolution := solution_of_outcome hx
  rw [value?_solve hsolution] at h
  obtain ⟨old, -, rfl⟩ := Option.map_eq_some_iff.1 h
  obtain ⟨j, hj⟩ := List.mem_iff_getElem?.1 hid
  obtain ⟨hlt, -⟩ := List.getElem?_eq_some_iff.1 hj
  have hvalue := List.getElem?_eq_getElem
    ((length_of_solution hsolution).symm ▸ hlt : j < x.toList.length)
  refine ⟨x, j, hx, hj, ?_⟩
  rw [assigned_zip u.columns_nodup hj hvalue]
  exact hvalue

/-- After a solve a variable has the value that the solve wrote, or the one it had. -/
theorem value?_of_value?_solve {u : Spec α} {id : VariableId} {a : α}
    (h : u.solve.value? id = some a) : u.value? id = some a ∨ u.Writes id a := by
  cases hx : u.outcome with
  | error e => exact .inl (by rwa [value?_solve_of_error hx] at h)
  | ok x =>
    by_cases hid : id ∈ u.columns
    · exact .inr (writes_of_mem_columns hx hid h)
    · have hsolution := solution_of_outcome hx
      rw [value?_solve hsolution] at h
      obtain ⟨old, hold, rfl⟩ := Option.map_eq_some_iff.1 h
      rw [← List.map_fst_zip (length_of_solution hsolution).ge] at hid
      exact .inl (by rw [assigned_of_not_mem hid]; exact hold)

/-- What a query does besides solving writes nothing. -/
theorem keepsValues_pinned (s : Spec α) (width height : VariableId) (target : α) :
    s.KeepsValues (s.pinned width height target).2 := by
  rw [pinned_eq rfl]
  have hsuspended : (s.suspendable.foldl (setSuspended true) s).value? = s.value? :=
    foldl_keeps value? (value?_setSuspended true) _ s
  exact ((KeepsValues.of_eq hsuspended).trans (keepsValues_register _ _)).trans
    (keepsValues_register _ _)

/-- After an answered query a variable has the value that the solve wrote, or the one it had, or
none. -/
theorem value?_of_value?_sizeQuery {s t : Spec α} {width height : VariableId} {target : α}
    {unbounded size : Size α} (h : s.sizeQuery width height target unbounded = .ok (size, t))
    {id : VariableId} {a : α} (ha : t.value? id = some a) : s.value? id = some a ∨
      a = Scalar.nan ∨ (s.pinned width height target).2.Writes id a := by
  obtain ⟨-, -, ht⟩ := sizeQuery_ok h
  have hresumed : t.value? = _ := ht ▸ foldl_keeps value? (value?_setSuspended false) _ _
  have hdropped := (keepsValues_drop (s.pinned width height target).2.solve
    (s.pinned width height target).1.1).trans
    (keepsValues_drop _ (s.pinned width height target).1.2)
  rw [hresumed] at ha
  rcases hdropped id a ha with hsolved | hnan
  · rcases value?_of_value?_solve hsolved with hpinned | hwrites
    · exact (s.keepsValues_pinned width height target id a hpinned).imp_right .inl
    · exact .inr (.inr hwrites)
  · exact .inr (.inl hnan)

/-- **What one call does to the values**: a variable has the value it had, or none, or the one that
a successful solve of the call wrote. -/
theorem value?_perform {s : Spec α} {op : Operation α} {id : VariableId} {a : α}
    (h : (s.perform op).1.value? id = some a) : s.value? id = some a ∨ a = Scalar.nan ∨
      ∃ u, s.solvedBy? op = some u ∧ u.Writes id a := by
  cases hsolved : s.solvedBy? op with
  | none => exact (s.keepsValues_perform hsolved id a h).imp_right .inl
  | some u =>
    have hquery : ∀ {width height : VariableId} {target : α} {unbounded : Size α},
        s.queried? width height target = some u →
        (s.afterQuery (s.sizeQuery width height target unbounded)).1.value? id = some a →
        s.value? id = some a ∨ a = Scalar.nan ∨ ∃ u', some u = some u' ∧ u'.Writes id a := by
      intro width height target unbounded hu ha
      obtain ⟨rfl, size, t, hquery⟩ := sizeQuery_of_queried?_eq_some hu unbounded
      rw [hquery] at ha
      exact (value?_of_value?_sizeQuery hquery ha).imp_right (.imp_right fun hwrites =>
        ⟨_, rfl, hwrites⟩)
    cases op with
    | solve =>
      obtain rfl := Option.some.inj hsolved
      exact (value?_of_value?_solve h).imp_right fun hwrites => .inr ⟨s, rfl, hwrites⟩
    | minSize width height => exact hquery hsolved h
    | maxSize width height => exact hquery hsolved h
    | _ => exact absurd hsolved (by simp [solvedBy?])

/-! ### Histories -/

/-- Some call of a history wrote a value, by a solve that succeeded, and the variable has had it
ever since. -/
def WrittenIn (start : Spec α) (history : List (Operation α)) (id : VariableId) (a : α) : Prop :=
  ∃ earlier op later u, history = earlier ++ op :: later ∧
    (start.run earlier).solvedBy? op = some u ∧ u.Writes id a ∧
    ∀ since, since <+: later → (start.run (earlier ++ op :: since)).value? id = some a

theorem WrittenIn.value? {start : Spec α} {history : List (Operation α)} {id : VariableId} {a : α}
    (h : start.WrittenIn history id a) : (start.run history).value? id = some a := by
  obtain ⟨earlier, op, later, -, rfl, -, -, hkept⟩ := h
  exact hkept later (List.prefix_refl later)

/-- **Where a value comes from**: the start, or a call that wrote it. -/
theorem value?_run {start : Spec α} {history : List (Operation α)} {id : VariableId} {a : α}
    (h : (start.run history).value? id = some a) :
    start.value? id = some a ∨ a = Scalar.nan ∨ start.WrittenIn history id a := by
  induction history using List.reverseRecOn with
  | nil => exact .inl h
  | append_singleton history op ih =>
    have hlast := h
    rw [run_concat] at hlast
    rcases value?_perform hlast with hold | hnan | ⟨u, hu, hwrites⟩
    · refine (ih hold).imp_right (.imp_right ?_)
      rintro ⟨earlier, op', later, u, rfl, hu, hwrites, hkept⟩
      refine ⟨earlier, op', later ++ [op], u, by simp, hu, hwrites, fun since hsince => ?_⟩
      rcases List.prefix_concat_iff.1 hsince with rfl | hsince
      · simpa using h
      · exact hkept since hsince
    · exact .inr (.inl hnan)
    · refine .inr (.inr ⟨history, op, [], u, rfl, hu, hwrites, fun since hsince => ?_⟩)
      rw [List.prefix_nil.1 hsince]
      exact h

/-! ### Sizes -/

/-- A failed solve has no code of success, nor that of a problem without limit. -/
theorem resultCode_fails (e : SolveError) :
    e.resultCode.isSuccess = false ∧ e.resultCode ≠ .unbounded := by
  cases e <;> exact ⟨rfl, by simp [SolveError.resultCode]⟩

section Queries

variable {s t s₀ s₁ s₂ : Spec α} {width height : VariableId} {target : α} {k₁ k₂ : ConstraintId}

/-- **A query leaves the values as its solve left them**, and solves with the values as they were.
-/
theorem QueryStages.value?_eq (h : s.QueryStages t width height target s₀ s₁ s₂ k₁ k₂) :
    t.value? = s₂.solve.value? ∧ s₂.value? = s.value? := by
  have hsuspended : s₀.value? = s.value? :=
    h.suspended ▸ foldl_keeps value? (value?_setSuspended true) _ s
  have hfirst : s₁.value? = s₀.value? :=
    (congrArg (fun p => p.2.value?) h.heightPin.symm).trans (s₀.value?_place _)
  have hsecond : s₂.value? = s₁.value? :=
    (congrArg (fun p => p.2.value?) h.widthPin.symm).trans (s₁.value?_place _)
  refine ⟨?_, hsecond.trans (hfirst.trans hsuspended)⟩
  rw [h.restored, foldl_keeps value? (value?_setSuspended false), value?_withdraw, value?_withdraw]

/-- A query ends with the code of its solve. -/
theorem QueryStages.result_eq (h : s.QueryStages t width height target s₀ s₁ s₂ k₁ k₂) :
    t.result = s₂.solve.result := by
  rw [h.restored, foldl_keeps Spec.result (result_setSuspended false), result_withdraw,
    result_withdraw]

/-- A query has a column for each of its variables, whatever the penalty of its pins is. -/
theorem QueryStages.mem_columns (h : s.QueryStages t width height target s₀ s₁ s₂ k₁ k₂)
    (hs : s.Addressable) (howned : s.registry.Owned none) :
    width ∈ s₂.columns ∧ height ∈ s₂.columns :=
  ⟨(h.mem_columns_iff hs howned width).2 (.inl rfl),
    (h.mem_columns_iff hs howned height).2 (.inr (.inl rfl))⟩

/-- A size is reported from the values, since no solve ends without a limit. -/
theorem size_of_sizeQuery {unbounded size : Size α}
    (h : s.sizeQuery width height target unbounded = .ok (size, t)) :
    size = ⟨(t.value? width).getD Scalar.nan, (t.value? height).getD Scalar.nan⟩ := by
  obtain ⟨-, -, ht, hsize⟩ := sizeQuery_eq_ok_iff.1 h
  have hlimited : t.result ≠ .unbounded := by
    rw [ht, foldl_keeps Spec.result (result_setSuspended false), result_drop, result_drop,
      result_solve]
    split
    · simp
    · rename_i e _
      exact (resultCode_fails e).2
  rwa [if_neg hlimited] at hsize

/-- A call that is answered with a size is a query that is answered. -/
theorem sizeQuery_of_perform {op : Operation α}
    (hop : op = .minSize width height ∨ op = .maxSize width height) {size : Size α}
    (h : s.perform op = (t, .size size)) : ∃ target unbounded,
      s.sizeQuery width height target unbounded = .ok (size, t) ∧
        s.solvedBy? op = some (s.pinned width height target).2 := by
  have hanswer : ∀ {target : α} {unbounded : Size α},
      s.afterQuery (s.sizeQuery width height target unbounded) = (t, .size size) →
      s.sizeQuery width height target unbounded = .ok (size, t) ∧
        s.queried? width height target = some (s.pinned width height target).2 := by
    intro target unbounded hanswer
    cases hquery : s.sizeQuery width height target unbounded with
    | error e =>
      rw [hquery] at hanswer
      exact absurd (congrArg Prod.snd hanswer) (by simp [afterQuery])
    | ok p =>
      rw [hquery] at hanswer
      obtain ⟨rfl, hsize⟩ := Prod.mk.inj hanswer
      obtain ⟨hlive, hlive', -⟩ := sizeQuery_ok hquery
      refine ⟨by rw [← Reply.size.inj hsize], ?_⟩
      unfold queried?
      rw [hlive, hlive']
      rfl
  rcases hop with rfl | rfl
  · exact ⟨0, Size.zero, hanswer h⟩
  · exact ⟨s.options.largestSize, Size.unbounded, hanswer h⟩

theorem perform_minSize {size : Size α} (h : s.minSize width height = .ok (size, t)) :
    s.perform (.minSize width height) = (t, .size size) := by
  show s.afterQuery (s.minSize width height) = _
  rw [h]
  rfl

/-- Numbers that a query reports were written by its solve if that succeeded; otherwise no value has
changed, and the numbers are the values that the variables had. -/
theorem reported_of_sizeQuery (hs : s.Reachable) [RangeScalar α] {unbounded size : Size α}
    (h : s.sizeQuery width height target unbounded = .ok (size, t)) (hroom : t.Addressable)
    (hwidth : size.width ≠ Scalar.nan) (hheight : size.height ≠ Scalar.nan) :
    (t.result.isSuccess = true ∧ (s.pinned width height target).2.Writes width size.width ∧
      (s.pinned width height target).2.Writes height size.height) ∨
    (t.result.isSuccess = false ∧ t.value? = s.value? ∧ s.value? width = some size.width ∧
      s.value? height = some size.height) := by
  obtain ⟨htidy, howned⟩ := hs.tidy_owned
  obtain ⟨s₀, s₁, s₂, k₁, k₂, hstages⟩ := exists_queryStages htidy h hroom
  obtain ⟨hafter, hbefore⟩ := hstages.value?_eq
  obtain ⟨hwidth', hheight'⟩ := hstages.mem_columns hs.1 howned
  have hreported : ∀ {id : VariableId} {a : α}, a = (t.value? id).getD Scalar.nan →
      a ≠ Scalar.nan → t.value? id = some a := by
    rintro id a rfl hne
    cases hvalue : t.value? id with
    | none => exact absurd (by rw [hvalue]; rfl) hne
    | some b => rfl
  have hsize := size_of_sizeQuery h
  have hw := hreported (congrArg Size.width hsize) hwidth
  have hh := hreported (congrArg Size.height hsize) hheight
  rw [hstages.pinned_eq, hstages.result_eq]
  cases hx : s₂.outcome with
  | ok x =>
    rw [hafter] at hw hh
    refine .inl ⟨?_, writes_of_mem_columns hx hwidth' hw, writes_of_mem_columns hx hheight' hh⟩
    rw [result_solve, solution_of_outcome hx]
    rfl
  | error e =>
    have hsame : t.value? = s.value? := by rw [hafter, value?_solve_of_error hx, hbefore]
    rw [hsame] at hw hh
    refine .inr ⟨?_, hsame, hw, hh⟩
    unfold solve
    rw [hx]
    exact (resultCode_fails e).1

end Queries

/-! ### Main result -/

/-- A number is not the value of a quantity that has not been computed. -/
theorem ne_nan_of_isNaN {a : Float} (h : Scalar.isNaN a = false) : a ≠ Scalar.nan := by
  rintro rfl
  exact absurd h (by decide)

/-- **Where a reported size comes from**, after every history of calls.  If a query reports numbers
and ends with success, its own solve wrote them.  If it reports numbers and ends without success, it
has changed no value, and each number is what an earlier call of the history wrote by a successful
solve, and the variable has had ever since. -/
theorem reported_size_origin {options : Options Float} {history : List (Operation Float)}
    {op : Operation Float} {width height : VariableId} {size : Size Float} {t : Spec Float}
    (hop : op = .minSize width height ∨ op = .maxSize width height)
    (h : (({ options } : Spec Float).run history).perform op = (t, .size size))
    (hroom : t.Addressable) (hwidth : Scalar.isNaN size.width = false)
    (hheight : Scalar.isNaN size.height = false) :
    (t.result.isSuccess = true ∧ ∃ u,
      (({ options } : Spec Float).run history).solvedBy? op = some u ∧
      u.Writes width size.width ∧ u.Writes height size.height) ∨
    (t.result.isSuccess = false ∧ t.value? = (({ options } : Spec Float).run history).value? ∧
      ({ options } : Spec Float).WrittenIn history width size.width ∧
      ({ options } : Spec Float).WrittenIn history height size.height) := by
  obtain ⟨s, hs⟩ : ∃ s, s = ({ options } : Spec Float).run history := ⟨_, rfl⟩
  rw [← hs] at h ⊢
  obtain ⟨target, unbounded, hquery, hsolved⟩ := sizeQuery_of_perform hop h
  have hreachable : s.Reachable :=
    ⟨(evolves_sizeQuery hquery).addressable hroom, options, history, hs.symm⟩
  have hwritten : ∀ {id : VariableId} {a : Float}, Scalar.isNaN a = false →
      s.value? id = some a → ({ options } : Spec Float).WrittenIn history id a := by
    intro id a hnumber ha
    rw [hs] at ha
    rcases value?_run ha with hstart | hnan | hwritten
    · exact absurd hstart (by simp [value?, getVariable?, SlotStore.get?])
    · exact absurd hnan (ne_nan_of_isNaN hnumber)
    · exact hwritten
  rcases reported_of_sizeQuery hreachable hquery hroom (ne_nan_of_isNaN hwidth)
    (ne_nan_of_isNaN hheight) with ⟨hsuccess, hw, hh⟩ | ⟨hfailure, hvalues, hw, hh⟩
  · exact .inl ⟨hsuccess, _, hsolved, hw, hh⟩
  · exact .inr ⟨hfailure, hvalues, hwritten hwidth hw, hwritten hheight hh⟩

/-- A variable is fixed, and after a solve it is fixed elsewhere too. -/
def contradiction : List (Operation Float) :=
  [.addVariable none, .addConstraint [1] [⟨⟨0, 0⟩⟩] .eq 1 0 0, .solve,
    .addConstraint [1] [⟨⟨0, 0⟩⟩] .eq 2 0 0]

/-- A query after a contradiction reports numbers, and fails. -/
theorem exists_query_contradiction : ∃ size t,
    (({ options := .default } : Spec Float).run contradiction).minSize ⟨⟨0, 0⟩⟩ ⟨⟨0, 0⟩⟩
      = .ok (size, t) ∧ t.Addressable ∧ Scalar.isNaN size.width = false ∧
    Scalar.isNaN size.height = false ∧ t.result.isSuccess = false := by
  obtain ⟨s, hs⟩ : ∃ s, s = ({ options := .default } : Spec Float).run contradiction := ⟨_, rfl⟩
  have hlive : (s.getVariable? ⟨⟨0, 0⟩⟩).isSome = true := by
    rw [hs]
    decide +kernel
  obtain ⟨size, t, h⟩ := s.exists_sizeQuery hlive hlive 0 Size.zero
  have hroom : ((({ options := .default } : Spec Float).run contradiction).perform
      (.minSize ⟨⟨0, 0⟩⟩ ⟨⟨0, 0⟩⟩)).1.Addressable :=
    addressable_perform_run _ _ (show 40 ≤ UInt32.size by decide)
  rw [← hs, perform_minSize h] at hroom
  have hfails : (s.sizeQuery ⟨⟨0, 0⟩⟩ ⟨⟨0, 0⟩⟩ 0 Size.zero).toOption.any (fun p =>
      !Scalar.isNaN p.1.width && !Scalar.isNaN p.1.height && !p.2.result.isSuccess) = true := by
    rw [hs]
    decide +kernel
  rw [h] at hfails
  simp only [Except.toOption, Option.any_some, Bool.and_eq_true, Bool.not_eq_true'] at hfails
  exact ⟨size, t, hs ▸ h, hroom, hfails.1.1, hfails.1.2, hfails.2⟩

/-- The size of a variable that was fixed at one, and is fixed at two as well by now, is reported as
one: the number that the solve before wrote. -/
theorem reported_size_origin_of_contradiction : ∃ (size : Size Float) (t : Spec Float),
    (({ options := .default } : Spec Float).run contradiction).perform
      (.minSize ⟨⟨0, 0⟩⟩ ⟨⟨0, 0⟩⟩) = (t, .size size) ∧ t.result.isSuccess = false ∧
    ({ options := .default } : Spec Float).WrittenIn contradiction ⟨⟨0, 0⟩⟩ size.width := by
  obtain ⟨size, t, h, hroom, hwidth, hheight, hfailure⟩ := exists_query_contradiction
  have hperform := perform_minSize h
  rcases reported_size_origin (.inl rfl) hperform hroom hwidth hheight with
    ⟨hsuccess, -⟩ | ⟨-, -, hwritten, -⟩
  · rw [hfailure] at hsuccess
    exact absurd hsuccess (by simp)
  · exact ⟨size, t, hperform, hfailure, hwritten⟩

/-- **A size may be reported from an older solve**: numbers do not tell that the query succeeded. -/
theorem reported_size_may_be_old : ¬∀ (s : Spec Float) (width height : VariableId)
    (size : Size Float) (t : Spec Float), s.Reachable →
      (s.getVariable? width).isSome = true → (s.getVariable? height).isSome = true →
      s.minSize width height = .ok (size, t) → Scalar.isNaN size.width = false →
      Scalar.isNaN size.height = false → t.result.isSuccess = true := by
  intro hclaim
  obtain ⟨size, t, h, -, hwidth, hheight, hfailure⟩ := exists_query_contradiction
  have hreachable : (({ options := .default } : Spec Float).run contradiction).Reachable :=
    reachable_run _ (show 32 ≤ UInt32.size by decide)
  obtain ⟨hlive, hlive', -⟩ := sizeQuery_ok h
  have hsuccess := hclaim _ _ _ size t hreachable hlive hlive' h hwidth hheight
  rw [hfailure] at hsuccess
  exact absurd hsuccess (by simp)

end ElasticLayout.Spec
