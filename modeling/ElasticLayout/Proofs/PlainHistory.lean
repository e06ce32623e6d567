import ElasticLayout.Proofs.Refinement

/-!
# What every history makes of the plain constraints

The constraints of the caller come from additions and changes alone, and these pass checks.  What
the checks make sure, and every change keeps, holds of each of them after every history.

* `PlainModel.All` -- a property of every constraint in the table;
* `PlainConstraint.KeptByCalls` -- the checked calls make and keep the property;
* `Spec.Reachable.plain_all` -- such a property holds after every history;
* `Spec.Reachable.isFinite_right`, `Spec.Reachable.isPenalty` -- the checks of an addition would be
  passed again.
-/

namespace ElasticLayout

variable {α : Type}

namespace PlainModel

/-- Every constraint in the table has a property. -/
def All (P : PlainConstraint α → Prop) (m : PlainModel α) : Prop :=
  ∀ k c, m.constraintAt? k = some c → P c

theorem All.putConstraint {P : PlainConstraint α → Prop} {m : PlainModel α} (h : m.All P)
    {k : ConstraintId} {c : Option (PlainConstraint α)} (hc : ∀ d, c = some d → P d) :
    (m.putConstraint k c).All P := by
  intro j d hj
  have hj : Function.update m.constraintAt? k c j = some d := hj
  rw [Function.update_apply] at hj
  split at hj
  · exact hc d hj
  · exact h j d hj

theorem All.removeVariable {P : PlainConstraint α → Prop} {m : PlainModel α} (h : m.All P)
    (id : VariableId) : (m.removeVariable id).All P := fun k c hk =>
  h k c (Option.filter_eq_some_iff.1 hk).1

end PlainModel

variable [Scalar α]

/-- The checked calls make and keep a property of constraints. -/
structure PlainConstraint.KeptByCalls (P : PlainConstraint α → Prop) : Prop where
  added : ∀ left relation right above below, Scalar.isFinite right = true →
    Spec.isPenalty above = true → Spec.isPenalty below = true →
    P ⟨mergeSummands left, relation, right, above, below, none⟩
  setLeft : ∀ c left, P c → P { c with left := mergeSummands left }
  setRelation : ∀ c relation, P c → P { c with relation }
  setRight : ∀ c right, Scalar.isFinite right = true → P c → P { c with right }
  setPenalties : ∀ c above below, Spec.isPenalty above = true → Spec.isPenalty below = true →
    P c → P { c with penaltyAbove := above, penaltyBelow := below }
  named : ∀ c label, P c → P { c with label }

namespace Spec

variable [RangeScalar α] {P : PlainConstraint α → Prop}

/-- A constraint of the caller is changed. -/
theorem plain_all_mutate {s : Spec α} (hs : s.Tidy) (howned : s.registry.Owned none)
    (h : s.plain.All P) {id : ConstraintId} (hid : s.isUserConstraint id = true)
    {change : Constraint α → Constraint α} (hchange : s.IsUserChange change)
    (hkept : ∀ c : Constraint α, c.role = .user → P c.plain → P (change c.shown).plain)
    (ht : (s.mutate id change).Addressable) : (s.mutate id change).plain.All P := by
  obtain ⟨c, hc, hrole⟩ := (s.isUserConstraint_iff id).1 hid
  rw [plain_mutate hs howned hc hrole hchange ht]
  refine h.putConstraint ?_
  rintro _ ⟨⟩
  exact hkept c hrole (h id c.plain (constraintAt?_eq_some.2 ⟨c, hc, hrole, rfl⟩))

/-- **Every step keeps such a property.** -/
theorem Step.plain_all (hP : PlainConstraint.KeptByCalls P) {s t : Spec α} (hs : s.Tidy)
    (howned : s.registry.Owned none) (h : s.plain.All P) (hstep : s.Step t) (ht : t.Addressable) :
    t.plain.All P := by
  cases hstep with
  | stay => exact h
  | addVariable label =>
    rw [plain_addVariable hs label ht]
    exact h
  | removeVariable id hid =>
    have haddressable : s.Addressable := ((Evolves.foldl_zero evolves_drop _ s).trans
      (evolves_dropVariable _ id)).addressable ht
    rw [plain_removeVariable haddressable howned hid]
    exact h.removeVariable id
  | nameVariable id label => exact h
  | setRange id lower upper hid =>
    obtain ⟨v, hv, hslack⟩ := (s.isUserVariable_iff id).1 hid
    rw [plain_applyRange hs howned (plainVariable?_eq_some.2 ⟨v, hv, hslack, rfl⟩) ht]
    exact h
  | addConstraint left relation right above below hleft hright habove hbelow =>
    rw [plain_register hs howned rfl rfl rfl (isUserVariable_of_mem_mergeSummands hleft) ht]
    refine h.putConstraint ?_
    rintro _ ⟨⟩
    exact hP.added left relation right above below hright habove hbelow
  | removeConstraint id hid =>
    rw [plain_drop howned]
    exact h.putConstraint (by simp)
  | setLeft id left hid hleft =>
    exact plain_all_mutate hs howned h hid (isUserChange_setLeft hleft)
      (fun c _ => hP.setLeft c.plain left) ht
  | setRelation id relation hid =>
    exact plain_all_mutate hs howned h hid
      ⟨fun _ => rfl, fun _ => rfl, fun _ => rfl, fun _ _ => .inl⟩
      (fun c _ => hP.setRelation c.plain relation) ht
  | setRight id right hid hright =>
    exact plain_all_mutate hs howned h hid
      ⟨fun _ => rfl, fun _ => rfl, fun _ => rfl, fun _ _ => .inl⟩
      (fun c _ => hP.setRight c.plain right hright) ht
  | setPenalties id above below hid habove hbelow =>
    exact plain_all_mutate hs howned h hid
      ⟨fun _ => rfl, fun _ => rfl, fun _ => rfl, fun _ _ => .inl⟩
      (fun c _ => hP.setPenalties c.plain above below habove hbelow) ht
  | nameConstraint id label =>
    intro k p hk
    obtain ⟨d, hd, hrole, rfl⟩ := constraintAt?_eq_some.1 hk
    rw [getConstraint?_modifyConstraint] at hd
    split at hd
    · obtain ⟨c, hc, rfl⟩ := Option.map_eq_some_iff.1 hd
      exact hP.named c.plain label (h id c.plain (constraintAt?_eq_some.2 ⟨c, hc, hrole, rfl⟩))
    · exact h k d.plain (constraintAt?_eq_some.2 ⟨d, hd, hrole, rfl⟩)
  | solve =>
    rw [plain_solve]
    exact h
  | query width height target unbounded hquery =>
    rw [plain_sizeQuery hs howned hquery ht]
    exact h

/-- **What the checked calls make and keep holds after every history.** -/
theorem Reachable.plain_all (hP : PlainConstraint.KeptByCalls P) {s : Spec α} (h : s.Reachable) :
    s.plain.All P := by
  refine (h.owned_induction (P := fun s => s.plain.All P) (fun options k c hk => ?_)
    fun s t hs howned hall hstep ht => hstep.plain_all hP hs howned hall ht).2.2
  obtain ⟨d, hd, -⟩ := constraintAt?_eq_some.1 hk
  exact absurd hd (by simp [getConstraint?, SlotStore.get?])

/-! ### Additions could be made again -/

/-- The right side of a live constraint of the caller is finite. -/
theorem Reachable.isFinite_right {s : Spec α} (h : s.Reachable) {id : ConstraintId}
    {c : Constraint α} (hc : s.getConstraint? id = some c) (hrole : c.role = .user) :
    Scalar.isFinite c.right = true := by
  have hall : s.plain.All fun p => Scalar.isFinite p.right = true := h.plain_all {
    added := fun _ _ _ _ _ hright _ _ => hright
    setLeft := fun _ _ hp => hp
    setRelation := fun _ _ hp => hp
    setRight := fun _ _ hright _ => hright
    setPenalties := fun _ _ _ _ _ hp => hp
    named := fun _ _ hp => hp }
  exact hall id c.plain (constraintAt?_eq_some.2 ⟨c, hc, hrole, rfl⟩)

/-- The penalties of a live constraint of the caller are proper. -/
theorem Reachable.isPenalty {s : Spec α} (h : s.Reachable) {id : ConstraintId}
    {c : Constraint α} (hc : s.getConstraint? id = some c) (hrole : c.role = .user) :
    isPenalty c.penaltyAbove = true ∧ isPenalty c.penaltyBelow = true := by
  have hall : s.plain.All fun p =>
      Spec.isPenalty p.penaltyAbove = true ∧ Spec.isPenalty p.penaltyBelow = true := h.plain_all {
    added := fun _ _ _ _ _ _ habove hbelow => ⟨habove, hbelow⟩
    setLeft := fun _ _ hp => hp
    setRelation := fun _ _ hp => hp
    setRight := fun _ _ _ hp => hp
    setPenalties := fun _ _ _ habove hbelow _ => ⟨habove, hbelow⟩
    named := fun _ _ hp => hp }
  exact hall id c.plain (constraintAt?_eq_some.2 ⟨c, hc, hrole, rfl⟩)

end Spec

end ElasticLayout
