import ElasticLayout.Proofs.Loading
import ElasticLayout.Proofs.Meaning

/-!
# Left sides as they are stored

The caller may name a variable more than once in a left side.  What is stored names each variable
once, and in exact arithmetic it has the value of what was given, whatever the variables are.

* `evaluate_mergeSummands` -- merging keeps the value;
* `Constraint.StoresLeft` -- what a constraint keeps of the left side that the caller gave;
* `Spec.Reachable.addConstraint_stores`, `Spec.Reachable.setLeft_stores` -- a new constraint and a
  changed one store the left side;
* `Spec.StoresMerged` -- what becomes of the left sides that a specification is given;
* `merged_left_sides` -- the main result.
-/

namespace ElasticLayout

/-! ### Values -/

theorem evaluate_addSummand (term : Summand ℝ) (merged : List (Summand ℝ)) (y : VariableId → ℝ) :
    evaluate (addSummand term merged) y = evaluate merged y + term.coefficient * y term.var := by
  induction merged with
  | nil =>
    show evaluate [term] y = evaluate [] y + term.coefficient * y term.var
    rw [evaluate_cons, add_comm]
  | cons first rest ih =>
    unfold addSummand
    split
    · rename_i hvar
      rw [evaluate_cons, evaluate_cons, hvar]
      ring
    · rw [evaluate_cons, evaluate_cons, ih, add_assoc]

/-- **Merging keeps the value** of a left side, at every valuation. -/
theorem evaluate_mergeSummands (terms : List (Summand ℝ)) (y : VariableId → ℝ) :
    evaluate (mergeSummands terms) y = evaluate terms y := by
  -- Merging goes from left to right, so the induction takes the terms off at the end.
  induction terms using List.reverseRecOn with
  | nil => rfl
  | append_singleton terms term ih =>
    rw [mergeSummands_concat, evaluate_addSummand, ih, evaluate_append, evaluate_cons,
      evaluate_nil, add_zero]

/-! ### What a constraint stores -/

variable {α : Type}

/-- The constraint of the caller stores a left side that was given: merged, with the slack of the
constraint behind it. -/
structure Constraint.StoresLeft [Add α] (c : Constraint α) (given : List (Summand α)) : Prop where
  role : c.role = .user
  own : c.ownTerms = mergeSummands given
  left : c.left = mergeSummands given ++ c.slackTerms

namespace Constraint.StoresLeft

variable {c : Constraint ℝ} {given : List (Summand ℝ)}

theorem userValue_eq (h : c.StoresLeft given) (y : VariableId → ℝ) :
    c.userValue y = evaluate given y := by
  unfold userValue
  rw [h.own, evaluate_mergeSummands]

theorem evaluate_left (h : c.StoresLeft given) (y : VariableId → ℝ) :
    evaluate c.left y = evaluate given y + evaluate c.slackTerms y := by
  rw [h.left, evaluate_append, evaluate_mergeSummands]

end Constraint.StoresLeft

namespace Spec

variable [Scalar α] {s t : Spec α} {k : ConstraintId} {coefficients : List α}
  {ids : List VariableId}

/-- A constraint that the caller has with a merged left side stores it. -/
theorem exists_storesLeft (h : t.registry.Owned none) {m : PlainModel α} {p : PlainConstraint α}
    {given : List (Summand α)} (hplain : t.plain = m.putConstraint k (some p))
    (hp : p.left = mergeSummands given) :
    ∃ c, t.getConstraint? k = some c ∧ c.StoresLeft given := by
  have hk : t.plain.constraintAt? k = some p := by
    rw [hplain]
    exact Function.update_self ..
  obtain ⟨c, hc, hrole, rfl⟩ := constraintAt?_eq_some.1 hk
  have hown : c.ownTerms = mergeSummands given := hp
  exact ⟨c, hc, hrole, hown, hown ▸ left_eq_ownTerms_append h hc⟩

/-- What becomes of the left sides that a specification is given: which of them are accepted, and
that those are stored. -/
structure StoresMerged (s : Spec α) : Prop where
  /-- A constraint is added if all its arguments pass their checks. -/
  added_iff : ∀ coefficients ids relation right above below,
    (∃ k t, s.addConstraint coefficients ids relation right above below = .ok (k, t)) ↔
      s.Admits coefficients ids ∧ Scalar.isFinite right = true ∧ isPenalty above = true ∧
        isPenalty below = true
  /-- Then the new constraint stores the left side. -/
  added : ∀ coefficients ids relation right above below k t,
    s.addConstraint coefficients ids relation right above below = .ok (k, t) → t.Addressable →
      ∃ c, t.getConstraint? k = some c ∧
        c.StoresLeft (List.zipWith Summand.mk coefficients ids)
  /-- A left side is replaced if the constraint and the variables are the caller's. -/
  replaced_iff : ∀ k coefficients ids, (∃ t, s.setLeft k coefficients ids = .ok t) ↔
    s.isUserConstraint k = true ∧ s.Admits coefficients ids
  /-- Then the constraint stores the new one. -/
  replaced : ∀ k coefficients ids t, s.setLeft k coefficients ids = .ok t → t.Addressable →
    ∃ c, t.getConstraint? k = some c ∧ c.StoresLeft (List.zipWith Summand.mk coefficients ids)

variable [RangeScalar α]

theorem Reachable.addConstraint_stores (hs : s.Reachable) {relation : Relation}
    {right above below : α}
    (hadd : s.addConstraint coefficients ids relation right above below = .ok (k, t))
    (hroom : t.Addressable) : ∃ c, t.getConstraint? k = some c ∧
      c.StoresLeft (List.zipWith Summand.mk coefficients ids) := by
  obtain ⟨htidy, howned⟩ := hs.tidy_owned
  have howned' := (step_of_addConstraint hadd).owned htidy howned hroom
  exact exists_storesLeft howned' (plain_addConstraint htidy howned hadd hroom) rfl

theorem Reachable.setLeft_stores (hs : s.Reachable)
    (hset : s.setLeft k coefficients ids = .ok t) (hroom : t.Addressable) :
    ∃ c, t.getConstraint? k = some c ∧
      c.StoresLeft (List.zipWith Summand.mk coefficients ids) := by
  obtain ⟨htidy, howned⟩ := hs.tidy_owned
  obtain ⟨⟨hid, hadmits⟩, rfl⟩ := setLeft_eq_ok_iff.1 hset
  have howned' := (Step.setLeft s k _ hid hadmits.isUserVariable).owned htidy howned hroom
  obtain ⟨c, hc, hrole⟩ := (s.isUserConstraint_iff k).1 hid
  have hplain := plain_mutate htidy howned hc hrole (isUserChange_setLeft hadmits.isUserVariable)
    hroom
  exact exists_storesLeft howned' hplain rfl

theorem Reachable.storesMerged (hs : s.Reachable) : s.StoresMerged where
  added_iff coefficients ids relation right above below := by
    simp only [addConstraint_eq_ok_iff]
    exact ⟨fun ⟨_, _, hchecked, _⟩ => hchecked, fun hchecked => ⟨_, _, hchecked, rfl⟩⟩
  added coefficients ids relation right above below k t := hs.addConstraint_stores
  replaced_iff k coefficients ids := by
    simp only [setLeft_eq_ok_iff]
    exact ⟨fun ⟨_, hchecked, _⟩ => hchecked, fun hchecked => ⟨_, hchecked, rfl⟩⟩
  replaced k coefficients ids t := hs.setLeft_stores

end Spec

/-! ### Main result -/

/-- **Merged left sides.**  Merging leaves every variable once, in the order of the first mentions,
with the sum of its coefficients from left to right; nothing else has these properties, and merging
again changes nothing.  In exact arithmetic it keeps the value at every valuation.  Constraints that
are added, and left sides that are replaced, are stored merged; hence what is stored has the value
of what was given, up to the slack of the constraint. -/
theorem merged_left_sides :
    (∀ (α : Type) [Add α] (terms : List (Summand α)),
      (∀ merged, MergerOf terms merged ↔ merged = mergeSummands terms) ∧
      ((mergeSummands terms).map (·.var)).Nodup ∧
      ((mergeSummands terms).map (·.var)).Pairwise (fun u v =>
        (terms.map (·.var)).idxOf u < (terms.map (·.var)).idxOf v) ∧
      mergeSummands (mergeSummands terms) = mergeSummands terms) ∧
    (∀ (terms : List (Summand ℝ)) (y : VariableId → ℝ),
      evaluate (mergeSummands terms) y = evaluate terms y) ∧
    (∀ (α : Type) [Scalar α] [RangeScalar α] (s : Spec α), s.Reachable → s.StoresMerged) ∧
    ∀ (c : Constraint ℝ) (given : List (Summand ℝ)), c.StoresLeft given → ∀ y,
      c.userValue y = evaluate given y ∧
        evaluate c.left y = evaluate given y + evaluate c.slackTerms y := by
  refine ⟨fun _ _ terms => ⟨fun _ => mergerOf_iff, ?_, ?_, ?_⟩, evaluate_mergeSummands,
    fun _ _ _ _ hs => hs.storesMerged, fun _ _ hc y => ⟨hc.userValue_eq y, hc.evaluate_left y⟩⟩
  · exact mergeSummands_nodup terms
  · exact mergeSummands_pairwise terms
  · exact mergeSummands_mergeSummands terms

/-- A soft `x + 2y + 3x <= 5` is stored as `4x + 2y`, with its slack; when its left side is replaced
by `y - y`, what is stored has the value zero. -/
theorem merged_left_sides_of_repeated :
    let s : Spec ℝ := ({ options := .default } : Spec ℝ).run [.addVariable none, .addVariable none]
    let x : VariableId := ⟨⟨0, 0⟩⟩
    let y : VariableId := ⟨⟨1, 0⟩⟩
    s.Reachable ∧ ∃ k t c u d, s.addConstraint [1, 2, 3] [x, y, x] .le 5 4 0 = .ok (k, t) ∧
      t.getConstraint? k = some c ∧ c.StoresLeft [⟨1, x⟩, ⟨2, y⟩, ⟨3, x⟩] ∧
      (∀ a, evaluate c.left a = 4 * a x + 2 * a y + evaluate c.slackTerms a) ∧
      t.setLeft k [1, -1] [y, y] = .ok u ∧ u.getConstraint? k = some d ∧
      d.StoresLeft [⟨1, y⟩, ⟨-1, y⟩] ∧ ∀ a, d.userValue a = 0 := by
  intro s x y
  obtain ⟨-, -, hcalls, hstored⟩ := merged_left_sides
  have hbegun : ∀ history : List (Operation ℝ), history.length ≤ 4 →
      (({ options := .default } : Spec ℝ).run history).Reachable := fun history hlength =>
    Spec.reachable_run .default ((Nat.mul_le_mul_right 8 hlength).trans (by decide))
  have hs : s.Reachable := hbegun _ (by decide)
  -- The constraint is added.
  have hx : s.isUserVariable x = true := rfl
  have hy : s.isUserVariable y = true := rfl
  obtain ⟨k, t, hadd⟩ := ((hcalls ℝ s hs).added_iff [1, 2, 3] [x, y, x] .le 5 4 0).2
    ⟨⟨rfl, by simp [hx, hy]⟩, rfl, Spec.isPenalty_iff.2 (by norm_num), Spec.isPenalty_iff.2 le_rfl⟩
  have hadded : (s.perform (.addConstraint [1, 2, 3] [x, y, x] .le 5 4 0)).1 = t :=
    congrArg (fun outcome => (s.afterAddition outcome).1) hadd
  have ht : t.Reachable := by
    rw [← hadded]
    exact hbegun [.addVariable none, .addVariable none,
      .addConstraint [1, 2, 3] [x, y, x] .le 5 4 0] (Nat.le_succ 3)
  obtain ⟨c, hc, hstores⟩ := (hcalls ℝ s hs).added _ _ _ _ _ _ k t hadd ht.1
  -- Its left side is replaced.
  have hkept : t.isUserVariable y = true := by
    obtain ⟨htidy, howned⟩ := hs.tidy_owned
    rw [Spec.isUserVariable_eq, Spec.plain_addConstraint htidy howned hadd ht.1]
    exact (s.isUserVariable_eq y).symm.trans hy
  obtain ⟨u, hset⟩ := ((hcalls ℝ t ht).replaced_iff k [1, -1] [y, y]).2
    ⟨(t.isUserConstraint_iff k).2 ⟨c, hc, hstores.role⟩, rfl, by simp [hkept]⟩
  have hchanged : (t.perform (.setLeft k [1, -1] [y, y])).1 = u :=
    congrArg (fun outcome => (t.afterChange outcome).1) hset
  have hu : u.Reachable := by
    rw [← hchanged, ← hadded]
    exact hbegun [.addVariable none, .addVariable none,
      .addConstraint [1, 2, 3] [x, y, x] .le 5 4 0, .setLeft k [1, -1] [y, y]] le_rfl
  obtain ⟨d, hd, hreplaced⟩ := (hcalls ℝ t ht).replaced k _ _ u hset hu.1
  refine ⟨hs, k, t, c, u, d, hadd, hc, hstores, fun a => ?_, hset, hd, hreplaced, fun a => ?_⟩
  · rw [(hstored c _ hstores a).2]
    simp
    ring
  · rw [(hstored d _ hreplaced a).1]
    simp

end ElasticLayout
