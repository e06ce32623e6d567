import ElasticLayout.Proofs.ExactScalar
import ElasticLayout.Proofs.PlainHistory

/-!
# Ranges and their bound constraints

A range passes a check before it is set, so that its ends are numbers, the right way round; and each
narrowed end has one bound constraint, which stays the same as long as the end stays narrowed.

* `RangeOrder` -- what proper ranges need of the comparisons, with instances for both scalars;
* `Spec.Step.properRanges` -- every step keeps the ranges proper;
* `Spec.RangeEnforced` -- what a live variable has to do with its bound constraints;
* `Spec.ChangesRange` -- what a change of a range does;
* `Spec.Reachable.ranges_enforced` -- the main result.
-/

namespace ElasticLayout

/-- What proper ranges need of the comparisons. -/
class RangeOrder (α : Type) [Scalar α] : Prop extends RangeScalar α where
  /-- Of two numbers that are not in the one order, the other holds. -/
  le_of_not_lt : ∀ {a b : α}, Scalar.isNaN a = false → Scalar.isNaN b = false → ¬b < a → a ≤ b
  /-- The default range would pass the check. -/
  isRange_default : Spec.isRange (Variable.defaultLower : α) Variable.defaultUpper = true
  /-- The range of a slack would pass the check. -/
  isRange_slack : Spec.isRange (0 : α) Variable.slackUpper = true

/-! ### Comparisons in double precision -/

namespace DoubleOrder

/-- Comparing the other way round turns the answer round. -/
theorem compare_swap (x y : Float.Model.UnpackedFloat) :
    y.compare x = (x.compare y).map Ordering.swap := by
  have hfinite : ∀ (m n : Nat) (e f : Int), (compare f e).then (compare n m)
      = ((compare e f).then (compare m n)).swap := by
    intro m n e f
    rw [Ordering.swap_then, ← Std.OrientedCmp.eq_swap, ← Std.OrientedCmp.eq_swap]
  rcases x with (_ | _) | _ | _ | ⟨_ | _, m, e, _⟩ <;>
    rcases y with (_ | _) | _ | _ | ⟨_ | _, n, f, _⟩ <;>
    first
    | rfl
    | exact congrArg (fun o => some (Ordering.swap o)) (hfinite m n e f)
    | exact congrArg some (hfinite m n e f)

/-- Only what is no number does not compare. -/
theorem isNaN_of_compare_eq_none {x y : Float.Model.UnpackedFloat} (h : x.compare y = none) :
    x.isNaN = true ∨ y.isNaN = true := by
  rcases x with (_ | _) | _ | _ | ⟨_ | _, _, _, _⟩ <;>
    rcases y with (_ | _) | _ | _ | ⟨_ | _, _, _, _⟩ <;>
    first
    | exact .inl rfl
    | exact .inr rfl
    | exact absurd h (by simp [Float.Model.UnpackedFloat.compare])

theorem lt_iff {a b : Float} :
    a < b ↔ a.toModel.unpack.compare b.toModel.unpack = some .lt := by
  show decide (a.toModel < b.toModel) = true ↔ _
  rw [decide_eq_true_iff]
  exact beq_iff_eq

theorem le_iff {a b : Float} :
    a ≤ b ↔ (a.toModel.unpack.compare b.toModel.unpack).any (·.isLE) = true := by
  show decide (a.toModel ≤ b.toModel) = true ↔ _
  rw [decide_eq_true_iff]
  rfl

theorem le_of_not_lt {a b : Float} (ha : a.isNaN = false) (hb : b.isNaN = false) (h : ¬b < a) :
    a ≤ b := by
  rw [lt_iff, compare_swap] at h
  rw [le_iff]
  cases hab : a.toModel.unpack.compare b.toModel.unpack with
  | none =>
    have hnan : a.isNaN = true ∨ b.isNaN = true := isNaN_of_compare_eq_none hab
    rw [ha, hb] at hnan
    exact absurd hnan (by simp)
  | some o =>
    rw [hab] at h
    cases o with
    | lt => rfl
    | eq => rfl
    | gt => exact absurd rfl h

end DoubleOrder

instance : RangeOrder Float where
  le_of_not_lt := DoubleOrder.le_of_not_lt
  isRange_default := by decide
  isRange_slack := by decide

instance : RangeOrder ℝ where
  le_of_not_lt := fun _ _ h => not_lt.1 h
  isRange_default := by
    have h : ¬(20000.0 : ℝ) < -20000.0 := by norm_num
    show (true && true && !decide ((20000.0 : ℝ) < -20000.0)) = true
    rw [decide_eq_false h]
    rfl
  isRange_slack := by
    have h : ¬(20000.0 : ℝ) < 0 := by norm_num
    show (true && true && !decide ((20000.0 : ℝ) < 0)) = true
    rw [decide_eq_false h]
    rfl

namespace Spec

variable {α : Type} [Scalar α]

/-! ### Every range has passed the check -/

/-- The ranges of the variables of the caller are proper. -/
def ProperRanges (s : Spec α) : Prop :=
  ∀ id x, s.plainVariable? id = some x → isRange x.lower x.upper = true

theorem ProperRanges.congr {s t : Spec α} (h : s.ProperRanges)
    (hsame : t.plainVariable? = s.plainVariable?) : t.ProperRanges := by
  unfold ProperRanges
  rw [hsame]
  exact h

/-- A proper range is put in the place of one. -/
theorem ProperRanges.update {s t : Spec α} (h : s.ProperRanges) {id : VariableId}
    {new : Option (PlainVariable α)} (hnew : ∀ x, new = some x → isRange x.lower x.upper = true)
    (ht : t.plainVariable? = Function.update s.plainVariable? id new) : t.ProperRanges := by
  intro v x hx
  rw [ht, Function.update_apply] at hx
  split at hx
  · exact hnew x hx
  · exact h v x hx

variable [RangeOrder α]

/-- A constraint of the caller is changed. -/
theorem ProperRanges.mutate {s : Spec α} (h : s.ProperRanges) (hs : s.Tidy)
    (howned : s.registry.Owned none) {id : ConstraintId} (hid : s.isUserConstraint id = true)
    {change : Constraint α → Constraint α} (hchange : s.IsUserChange change)
    (hroom : (s.mutate id change).Addressable) : (s.mutate id change).ProperRanges := by
  obtain ⟨c, hc, hrole⟩ := (s.isUserConstraint_iff id).1 hid
  exact h.congr (plainVariable?_mutate hs howned hc hrole hchange hroom)

/-- **Every step keeps the ranges proper.** -/
theorem Step.properRanges {s t : Spec α} (hs : s.Tidy) (howned : s.registry.Owned none)
    (h : s.ProperRanges) (hstep : s.Step t) (hroom : t.Addressable) : t.ProperRanges := by
  cases hstep with
  | stay => exact h
  | addVariable label =>
    refine h.update ?_ (plainVariable?_insertVariable hs hroom.1)
    rintro x ⟨⟩
    exact RangeOrder.isRange_default
  | removeVariable id hid =>
    have haddressable : s.Addressable := ((Evolves.foldl_zero evolves_drop _ s).trans
      (evolves_dropVariable _ id)).addressable hroom
    exact h.update (by simp)
      (congrArg PlainModel.variableAt? (plain_removeVariable haddressable howned hid))
  | nameVariable id label =>
    intro v x hx
    obtain ⟨w, hw, hslack, rfl⟩ := plainVariable?_eq_some.1 hx
    rw [getVariable?_modifyVariable] at hw
    split at hw
    · obtain ⟨u, hu, rfl⟩ := Option.map_eq_some_iff.1 hw
      exact h id ⟨u.lower, u.upper, u.label⟩ (plainVariable?_eq_some.2 ⟨u, hu, hslack, rfl⟩)
    · exact h v _ (plainVariable?_eq_some.2 ⟨w, hw, hslack, rfl⟩)
  | setRange id lower upper hid hrange =>
    obtain ⟨v, hv, hslack⟩ := (s.isUserVariable_iff id).1 hid
    have hx := plainVariable?_eq_some.2 ⟨v, hv, hslack, rfl⟩
    refine h.update ?_ (congrArg PlainModel.variableAt? (plain_applyRange hs howned hx hroom))
    rintro x ⟨⟩
    exact hrange
  | addConstraint left relation right above below hleft =>
    exact h.congr (plainVariable?_register hs _ hroom)
  | removeConstraint id hid => exact h.congr (plainVariable?_drop howned id)
  | setLeft id left hid hleft =>
    exact h.mutate hs howned hid (isUserChange_setLeft hleft) hroom
  | setRelation id relation hid =>
    exact h.mutate hs howned hid
      ⟨fun _ => rfl, fun _ => rfl, fun _ => rfl, fun _ _ => .inl⟩ hroom
  | setRight id right hid =>
    exact h.mutate hs howned hid
      ⟨fun _ => rfl, fun _ => rfl, fun _ => rfl, fun _ _ => .inl⟩ hroom
  | setPenalties id above below hid =>
    exact h.mutate hs howned hid
      ⟨fun _ => rfl, fun _ => rfl, fun _ => rfl, fun _ _ => .inl⟩ hroom
  | nameConstraint id label => exact h.congr (s.plainVariable?_modifyConstraint id _)
  | solve => exact h.congr s.plainVariable?_solve
  | query width height target unbounded hquery =>
    exact h.congr (congrArg PlainModel.variableAt? (plain_sizeQuery hs howned hquery hroom))

/-- The range of a live variable is proper: that of a slack never changes, and the others have
passed the check. -/
theorem Reachable.isRange {s : Spec α} (h : s.Reachable) {id : VariableId} {v : Variable α}
    (hv : s.getVariable? id = some v) : Spec.isRange v.lower v.upper = true := by
  obtain ⟨-, howned, hproper⟩ := h.owned_induction (P := ProperRanges)
    (fun options id x hx => by
      obtain ⟨v, hv, -⟩ := plainVariable?_eq_some.1 hx
      exact absurd hv (by simp [getVariable?, SlotStore.get?]))
    fun s t hs howned hproper hstep hroom => hstep.properRanges hs howned hproper hroom
  cases hslack : v.isSlack with
  | false => exact hproper id _ (plainVariable?_eq_some.2 ⟨v, hv, hslack, rfl⟩)
  | true =>
    obtain ⟨k, c, e, hk, he, rfl⟩ := howned.slack_owner id _ (registry_extent?_eq_some hv) hslack
    obtain ⟨x, hx, -, hlower, hupper⟩ := (howned.owns k c e hk he).slack
    obtain rfl := Option.some.inj ((registry_extent?_eq_some hv).symm.trans hx)
    rw [show v.lower = 0 from hlower, show v.upper = Variable.slackUpper from hupper]
    exact RangeOrder.isRange_slack

/-! ### Bound constraints -/

/-- One end of the range of a variable has a bound constraint if it is narrowed, and only then: a
live constraint on the variable alone, which is never soft. -/
structure EndEnforced (s : Spec α) (id : VariableId) (bound : Option ConstraintId)
    (relation : Relation) (limit : α) (narrowed : Prop) : Prop where
  exists_iff : (∃ k, bound = some k) ↔ narrowed
  constraint : ∀ k, bound = some k → ∃ c, s.getConstraint? k = some c ∧ c.role = .bound id ∧
    c.left = [⟨1, id⟩] ∧ c.relation = relation ∧ c.right = limit ∧ c.isSoft = false

/-- The range of a variable has numbers for ends, the right way round, and both ends are enforced.
-/
structure RangeEnforced (s : Spec α) (id : VariableId) (v : Variable α) : Prop where
  isNaN_lower : Scalar.isNaN v.lower = false
  isNaN_upper : Scalar.isNaN v.upper = false
  lower_le_upper : v.lower ≤ v.upper
  lowerEnd : s.EndEnforced id v.lowerBound .ge v.lower (Variable.defaultLower < v.lower)
  upperEnd : s.EndEnforced id v.upperBound .le v.upper (v.upper < Variable.defaultUpper)

theorem endEnforced {s : Spec α} {id : VariableId} {bound : Option ConstraintId}
    {relation : Relation} {limit : α} {narrowed : Prop}
    (h : s.registry.EndKept id bound relation limit narrowed) :
    s.EndEnforced id bound relation limit narrowed where
  exists_iff := by
    rw [← Option.isSome_iff_exists]
    exact h.1
  constraint := by
    intro k hk
    obtain ⟨c, hc, hbound⟩ := h.2 k hk
    exact ⟨c, hc, hbound.role, hbound.left, hbound.relation, hbound.right, hbound.isSoft⟩

theorem rangeEnforced {s : Spec α} (howned : s.registry.Owned none) {id : VariableId}
    {v : Variable α} (hv : s.getVariable? id = some v) (hrange : isRange v.lower v.upper = true) :
    s.RangeEnforced id v := by
  unfold Spec.isRange at hrange
  simp only [Bool.and_eq_true, Bool.not_eq_true', decide_eq_false_iff_not] at hrange
  obtain ⟨⟨hlower, hupper⟩, hle⟩ := hrange
  have hkept := howned.range id _ (registry_extent?_eq_some hv)
  exact ⟨hlower, hupper, RangeOrder.le_of_not_lt hlower hupper hle, endEnforced hkept.lower,
    endEnforced hkept.upper⟩

theorem Reachable.rangeEnforced {s : Spec α} (h : s.Reachable) {id : VariableId} {v : Variable α}
    (hv : s.getVariable? id = some v) : s.RangeEnforced id v :=
  Spec.rangeEnforced h.tidy_owned.2 hv (h.isRange hv)

/-! ### Changes of a range -/

/-- The range of a variable is changed, and an end that stays narrowed keeps its bound constraint.
-/
structure ChangesRange (s t : Spec α) (id : VariableId) (v w : Variable α) : Prop where
  before : s.getVariable? id = some v
  after : t.getVariable? id = some w
  lowerBound : Variable.defaultLower < v.lower → Variable.defaultLower < w.lower →
    ∃ k, v.lowerBound = some k ∧ w.lowerBound = some k
  upperBound : v.upper < Variable.defaultUpper → w.upper < Variable.defaultUpper →
    ∃ k, v.upperBound = some k ∧ w.upperBound = some k

omit [RangeOrder α] in
/-- A bound constraint that is still needed stays. -/
theorem syncBound_some {s t : Spec α} {id : VariableId} {k : ConstraintId} {relation : Relation}
    {limit : α} {needed : Bool} {bound : Option ConstraintId} (hneeded : needed = true)
    (h : s.syncBound id (some k) relation limit needed = (bound, t)) : bound = some k := by
  rw [hneeded] at h
  exact (congrArg Prod.fst h).symm

theorem Reachable.changesRange {s : Spec α} (h : s.Reachable) {id : VariableId} {v : Variable α}
    (hv : s.getVariable? id = some v) (hslack : v.isSlack = false) (lower upper : α) :
    ∃ w, s.ChangesRange (s.applyRange id lower upper) id v w ∧ w.lower = lower ∧
      w.upper = upper := by
  obtain ⟨s₁, s₂, s₃, lowerBound, upperBound, hstages⟩ := exists_rangeStages hv lower upper
  -- The ends are seen in the table, the links by the last stage.
  have hplain : (s.applyRange id lower upper).plainVariable? id = some ⟨lower, upper, v.label⟩ := by
    rw [plainVariable?_applyRange, Function.update_self,
      plainVariable?_eq_some.2 ⟨v, hv, hslack, rfl⟩]
    rfl
  obtain ⟨w, hw, -, hends⟩ := plainVariable?_eq_some.1 hplain
  obtain ⟨hlower, hupper, -⟩ := PlainVariable.mk.inj hends
  have hlinks := hw
  rw [hstages.links, getVariable?_modifyVariable, if_pos rfl] at hlinks
  obtain ⟨u, -, rfl⟩ := Option.map_eq_some_iff.1 hlinks
  have henforced := h.rangeEnforced hv
  refine ⟨_, ⟨hv, hw, fun hbefore hafter => ?_, fun hbefore hafter => ?_⟩, hlower.symm,
    hupper.symm⟩
  · obtain ⟨k, hk⟩ := henforced.lowerEnd.exists_iff.2 hbefore
    have hsync := hstages.lowerEnd
    rw [hk] at hsync
    rw [← hlower] at hafter
    exact ⟨k, hk, syncBound_some (decide_eq_true hafter) hsync⟩
  · obtain ⟨k, hk⟩ := henforced.upperEnd.exists_iff.2 hbefore
    have hsync := hstages.upperEnd
    rw [hk] at hsync
    rw [← hupper] at hafter
    exact ⟨k, hk, syncBound_some (decide_eq_true hafter) hsync⟩

theorem Reachable.changesRange_of_setRange {s t : Spec α} (h : s.Reachable) {id : VariableId}
    {lower upper : α} (hset : s.setRange id lower upper = .ok t) :
    ∃ v w, s.ChangesRange t id v w ∧ w.lower = lower ∧ w.upper = upper := by
  obtain ⟨huser, -, rfl⟩ := setRange_ok hset
  obtain ⟨v, hv, hslack⟩ := (s.isUserVariable_iff id).1 huser
  exact ⟨v, h.changesRange hv hslack lower upper⟩

/-- **Ranges are enforced**, after every history of calls: the ends of the range of a live variable
are numbers, the right way round; each narrowed end has a bound constraint, which is never soft, and
an end that is not narrowed has none; there are no other bound constraints; and a change of a range
that keeps an end narrowed keeps its bound constraint under its handle. -/
theorem Reachable.ranges_enforced {s : Spec α} (h : s.Reachable) :
    (∀ id v, s.getVariable? id = some v → s.RangeEnforced id v) ∧
    (∀ k c id, s.getConstraint? k = some c → c.role = .bound id →
      ∃ v, s.getVariable? id = some v ∧ (v.lowerBound = some k ∨ v.upperBound = some k)) ∧
    (∀ id lower upper t, s.setRange id lower upper = .ok t →
      ∃ v w, s.ChangesRange t id v w ∧ w.lower = lower ∧ w.upper = upper) ∧
    (∀ id lower t, s.setLower id lower = .ok t →
      ∃ v w, s.ChangesRange t id v w ∧ w.lower = lower ∧ w.upper = v.upper) ∧
    (∀ id upper t, s.setUpper id upper = .ok t →
      ∃ v w, s.ChangesRange t id v w ∧ w.lower = v.lower ∧ w.upper = upper) := by
  refine ⟨fun id v hv => h.rangeEnforced hv, fun k c id hk hrole => ?_,
    fun id lower upper t hset => h.changesRange_of_setRange hset, fun id lower t hset => ?_,
    fun id upper t hset => ?_⟩
  · obtain ⟨x, hx, hmem⟩ := h.tidy_owned.2.bound k c id hk hrole
    obtain ⟨v, hv, rfl⟩ := getVariable?_of_extent? hx
    exact ⟨v, hv, hmem⟩
  · unfold setLower at hset
    split at hset
    · rename_i x hx
      obtain ⟨v, w, hchange, hlower, hupper⟩ := h.changesRange_of_setRange hset
      obtain rfl := Option.some.inj (hx.symm.trans hchange.before)
      exact ⟨x, w, hchange, hlower, hupper⟩
    · exact absurd hset (by simp)
  · unfold setUpper at hset
    split at hset
    · rename_i x hx
      obtain ⟨v, w, hchange, hlower, hupper⟩ := h.changesRange_of_setRange hset
      obtain rfl := Option.some.inj (hx.symm.trans hchange.before)
      exact ⟨x, w, hchange, hlower, hupper⟩
    · exact absurd hset (by simp)

/-- A variable between five and infinity: its lower end is enforced by the constraint `0`, which
stays when the end moves to seven. -/
theorem ranges_enforced_of_half_line :
    let s : Spec Float := ({ options := .default } : Spec Float).run
      [.addVariable none, .setRange ⟨⟨0, 0⟩⟩ 5 (1 / 0)]
    s.Reachable ∧ (∃ v, s.getVariable? ⟨⟨0, 0⟩⟩ = some v ∧ s.RangeEnforced ⟨⟨0, 0⟩⟩ v) ∧
      ∃ t v w, s.setLower ⟨⟨0, 0⟩⟩ 7 = .ok t ∧ s.ChangesRange t ⟨⟨0, 0⟩⟩ v w ∧ w.lower = 7 ∧
        v.lowerBound = some ⟨⟨0, 0⟩⟩ ∧ w.lowerBound = some ⟨⟨0, 0⟩⟩ := by
  intro s
  have hs : s.Reachable := reachable_run _ (by decide)
  obtain ⟨henforced, -, -, hsetLower, -⟩ := Reachable.ranges_enforced hs
  have hlive : (s.getVariable? ⟨⟨0, 0⟩⟩).isSome = true := by decide
  obtain ⟨v, hv⟩ := Option.isSome_iff_exists.1 hlive
  have hset : (s.setLower ⟨⟨0, 0⟩⟩ 7).toOption.isSome = true := by decide
  obtain ⟨t, ht⟩ : ∃ t, s.setLower ⟨⟨0, 0⟩⟩ 7 = .ok t := by
    cases hresult : s.setLower ⟨⟨0, 0⟩⟩ 7 with
    | error e =>
      rw [hresult] at hset
      exact absurd hset (by simp [Except.toOption])
    | ok t => exact ⟨t, rfl⟩
  obtain ⟨v', w, hchange, hlower, -⟩ := hsetLower _ _ _ ht
  obtain rfl := Option.some.inj (hv.symm.trans hchange.before)
  have hbound : v.lowerBound = some ⟨⟨0, 0⟩⟩ := by
    have hhandle : (s.getVariable? ⟨⟨0, 0⟩⟩).map (·.lowerBound) = some (some ⟨⟨0, 0⟩⟩) := by decide
    rw [hv] at hhandle
    exact Option.some.inj hhandle
  have hnarrow : (s.getVariable? ⟨⟨0, 0⟩⟩).all fun v => Variable.defaultLower < v.lower := by decide
  rw [hv] at hnarrow
  obtain ⟨k, hk, hk'⟩ := hchange.lowerBound (of_decide_eq_true hnarrow) (by rw [hlower]; decide)
  obtain rfl : k = ⟨⟨0, 0⟩⟩ := Option.some.inj (hk.symm.trans hbound)
  exact ⟨hs, ⟨v, hv, henforced _ v hv⟩, t, v, w, ht, hchange, hlower, hbound, hk'⟩

end Spec

end ElasticLayout
