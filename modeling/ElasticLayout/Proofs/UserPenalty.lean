import ElasticLayout.Proofs.Columns
import ElasticLayout.Proofs.UserView

/-!
# What the caller said

The caller of a specification speaks of constraints and ranges, not of slacks.  What he said holds
at some values of his variables or it does not, and the violations of his soft constraints have a
penalty.  Both depend only on what he sees of the specification.

* `Constraint.violation`, `Constraint.weight` -- how far, and how badly, a constraint is violated;
* `Spec.UserHolds`, `Spec.userPenalty` -- what the caller said;
* `userCost`, `Spec.userPenalty_eq_sum` -- the penalty as a sum over what the caller sees;
* `Spec.view_perform_addConstraint` -- an added constraint is seen;
* `Spec.pulled`, `Spec.pulledView` -- a variable that is pulled beyond a limit.
-/

namespace ElasticLayout

open Linear

attribute [local instance] atLeastTwo_two

/-! ### Violations -/

namespace Constraint

/-- The left side of the caller at a valuation. -/
noncomputable def userValue (c : Constraint ℝ) (a : VariableId → ℝ) : ℝ := evaluate c.ownTerms a

/-- How far a constraint is violated. -/
noncomputable def violation (c : Constraint ℝ) (a : VariableId → ℝ) : ℝ :=
  match c.relation with
  | .le => max 0 (c.userValue a - c.right)
  | .ge => max 0 (c.right - c.userValue a)
  | .eq => |c.userValue a - c.right|

/-- The weight of the two penalties. -/
noncomputable def weight (c : Constraint ℝ) : ℝ := weightFor c.penaltyAbove c.penaltyBelow

theorem violation_nonneg (c : Constraint ℝ) (a : VariableId → ℝ) : 0 ≤ c.violation a := by
  unfold violation
  split
  · exact le_max_left _ _
  · exact le_max_left _ _
  · exact abs_nonneg _

theorem violation_congr {c : Constraint ℝ} {a b : VariableId → ℝ}
    (h : ∀ term ∈ c.ownTerms, a term.var = b term.var) : c.violation a = c.violation b := by
  have hvalue : c.userValue a = c.userValue b := evaluate_congr h
  unfold violation
  rw [hvalue]

theorem weight_pos_iff {c : Constraint ℝ} : 0 < c.weight ↔ c.isSoft = true := by
  unfold weight isSoft
  rw [weightFor_pos_iff]
  simp

end Constraint

namespace Spec

/-! ### What the caller said -/

/-- The hard constraints of the caller and the narrowed ends of ranges hold. -/
structure UserHolds (s : Spec ℝ) (a : VariableId → ℝ) : Prop where
  /-- The hard constraints. -/
  constraints : ∀ id c, s.getConstraint? id = some c → c.role = .user → c.isSoft = false →
    c.relation.Holds (c.userValue a) c.right
  /-- The lower ends. -/
  lower : ∀ id v, s.getVariable? id = some v → v.isSlack = false →
    Variable.defaultLower < v.lower → v.lower ≤ a id
  /-- The upper ends. -/
  upper : ∀ id v, s.getVariable? id = some v → v.isSlack = false →
    v.upper < Variable.defaultUpper → a id ≤ v.upper

/-- The constraints of the caller. -/
def userConstraints (s : Spec ℝ) : List (Constraint ℝ) :=
  (s.constraintList.map (·.2)).filter (·.role == .user)

/-- The penalty of the soft constraints of the caller: equalities at their deviation, inequalities
at their violation. -/
noncomputable def userPenalty (s : Spec ℝ) (a : VariableId → ℝ) : ℝ :=
  1 / 2 * ((s.userConstraints.filter (·.isObjectiveTerm)).map fun c =>
    c.weight ^ 2 * (c.userValue a - c.right) ^ 2).sum +
  1 / 2 * ((s.userConstraints.filter (·.isSoftInequality)).map fun c =>
    c.weight ^ 2 * c.violation a ^ 2).sum

theorem UserHolds.congr {s : Spec ℝ} (h : s.registry.Owned none) {a b : VariableId → ℝ}
    (hab : ∀ id v, s.getVariable? id = some v → v.isSlack = false → a id = b id)
    (ha : s.UserHolds a) : s.UserHolds b where
  constraints := by
    intro id c hc hrole hsoft
    have hvalue : c.userValue a = c.userValue b := by
      refine evaluate_congr fun term hterm => ?_
      obtain ⟨x, hx, hslack⟩ := h.own id c hc hrole term hterm
      obtain ⟨v, hv, rfl⟩ := getVariable?_of_extent? hx
      exact hab term.var v hv hslack
    rw [← hvalue]
    exact ha.constraints id c hc hrole hsoft
  lower := by
    intro id v hv hslack hnarrow
    rw [← hab id v hv hslack]
    exact ha.lower id v hv hslack hnarrow
  upper := by
    intro id v hv hslack hnarrow
    rw [← hab id v hv hslack]
    exact ha.upper id v hv hslack hnarrow

end Spec

/-! ### The penalty as a sum -/

/-- What a constraint that the caller sees adds to the penalty, times two. -/
noncomputable def userCost (a : VariableId → ℝ) : Option (Constraint ℝ) → ℝ
  | some c => c.weight ^ 2 * c.violation a ^ 2
  | none => 0

@[simp] theorem Constraint.weight_shown (c : Constraint ℝ) : c.shown.weight = c.weight := rfl

@[simp] theorem Constraint.violation_shown (c : Constraint ℝ) (a : VariableId → ℝ) :
    c.shown.violation a = c.violation a := rfl

theorem Constraint.weight_eq_zero {c : Constraint ℝ} (h : c.isSoft = false) : c.weight = 0 := by
  refine le_antisymm (not_lt.1 ?_) weightFor_nonneg
  rw [weight_pos_iff, h]
  simp

theorem Constraint.violation_sq_of_eq {c : Constraint ℝ} (h : c.relation = .eq)
    (a : VariableId → ℝ) : c.violation a ^ 2 = (c.userValue a - c.right) ^ 2 := by
  unfold violation
  rw [h]
  exact sq_abs _

namespace Spec

theorem isSoftInequality_of_isObjectiveTerm {c : Constraint ℝ} (h : c.isObjectiveTerm = true) :
    c.isSoftInequality = false := by
  rw [← Bool.not_eq_true, Constraint.isSoftInequality_iff]
  exact fun hinequality => hinequality.2 (Constraint.isObjectiveTerm_iff.1 h).2

/-- Every constraint of the caller counts with its weight and its violation; the hard ones have no
weight. -/
theorem userPenalty_eq_sum_userConstraints (s : Spec ℝ) (a : VariableId → ℝ) :
    s.userPenalty a
      = 1 / 2 * (s.userConstraints.map fun c => c.weight ^ 2 * c.violation a ^ 2).sum := by
  unfold userPenalty
  rw [sum_map_filter, sum_map_filter, ← mul_add, ← List.sum_map_add]
  congr 2
  refine List.map_congr_left fun c _ => ?_
  cases hsoft : c.isSoft with
  | false =>
    rw [c.weight_eq_zero hsoft]
    simp
  | true =>
    cases hterm : c.isObjectiveTerm with
    | true =>
      rw [isSoftInequality_of_isObjectiveTerm hterm,
        c.violation_sq_of_eq (Constraint.isObjectiveTerm_iff.1 hterm).2]
      simp
    | false =>
      have hinequality : c.isSoftInequality = true := by
        refine Constraint.isSoftInequality_iff.2 ⟨hsoft, fun hrelation => ?_⟩
        rw [Constraint.isObjectiveTerm_iff.2 ⟨hsoft, hrelation⟩] at hterm
        exact absurd hterm (by simp)
      rw [hinequality]
      simp

/-- **The penalty is a sum over what the caller sees.** -/
theorem userPenalty_eq_sum {s : Spec ℝ} (haddressable : s.Addressable) {ks : Finset ConstraintId}
    (hks : ∀ k, k ∈ ks ↔ (s.registry.view.constraint? k).isSome = true) (a : VariableId → ℝ) :
    s.userPenalty a = 1 / 2 * ∑ k ∈ ks, userCost a (s.registry.view.constraint? k) := by
  have hmem : ∀ {k c}, (k, c) ∈ s.constraintList ↔ s.registry.constraint? k = some c :=
    mem_constraintList haddressable
  have hhandles : ks = ((s.constraintList.filter (·.2.role == .user)).map (·.1)).toFinset := by
    ext k
    rw [hks, List.mem_toFinset, List.mem_map, Option.isSome_iff_exists]
    constructor
    · rintro ⟨c, hc⟩
      obtain ⟨d, hd, hrole, -⟩ := Registry.exists_of_view_constraint? hc
      exact ⟨(k, d), List.mem_filter.2 ⟨hmem.2 hd, by simp [hrole]⟩, rfl⟩
    · rintro ⟨⟨k, d⟩, hfilter, rfl⟩
      obtain ⟨hd, hrole⟩ := List.mem_filter.1 hfilter
      exact ⟨_, Registry.view_constraint?_eq_some (hmem.1 hd) (by simpa using hrole)⟩
  have hnodup : ((s.constraintList.filter (·.2.role == .user)).map (·.1)).Nodup :=
    (constraintList_nodup haddressable).sublist (List.filter_sublist.map _)
  rw [userPenalty_eq_sum_userConstraints, hhandles, List.sum_toFinset _ hnodup, List.map_map]
  unfold userConstraints
  rw [List.filter_map, List.map_map]
  congr 2
  refine List.map_congr_left fun p hp => ?_
  obtain ⟨hd, hrole⟩ := List.mem_filter.1 hp
  show p.2.weight ^ 2 * p.2.violation a ^ 2 = userCost a (s.registry.view.constraint? p.1)
  rw [Registry.view_constraint?_eq_some (hmem.1 hd) (by simpa using hrole)]
  rfl

theorem exists_userHandles {s : Spec ℝ} (haddressable : s.Addressable) :
    ∃ ks : Finset ConstraintId,
      ∀ k, k ∈ ks ↔ (s.registry.view.constraint? k).isSome = true := by
  refine ⟨((s.constraintList.map (·.1)).filter fun k =>
    (s.registry.view.constraint? k).isSome).toFinset, fun k => ?_⟩
  rw [List.mem_toFinset, List.mem_filter, and_iff_right_iff_imp]
  intro hk
  obtain ⟨c, hc⟩ := Option.isSome_iff_exists.1 hk
  obtain ⟨d, hd, -⟩ := Registry.exists_of_view_constraint? hc
  exact List.mem_map.2 ⟨(k, d), (mem_constraintList haddressable).2 hd, rfl⟩

/-- Whether what the caller said holds depends on what he sees. -/
theorem userHolds_iff (s : Spec ℝ) (a : VariableId → ℝ) : s.UserHolds a ↔
    (∀ k c, s.registry.view.constraint? k = some c → c.isSoft = false →
      c.relation.Holds (c.userValue a) c.right) ∧
    ∀ id range, s.registry.view.range? id = some range →
      (Variable.defaultLower < range.1 → range.1 ≤ a id) ∧
      (range.2 < Variable.defaultUpper → a id ≤ range.2) := by
  have hrange : ∀ {id v}, s.getVariable? id = some v → v.isSlack = false →
      s.registry.view.range? id = some (v.lower, v.upper) := by
    intro id v hv hslack
    rw [Registry.view_range?, registry_extent?_eq_some hv, Option.bind_some]
    exact if_neg (by simp [Variable.extent, hslack])
  constructor
  · intro h
    constructor
    · intro k c hc hsoft
      obtain ⟨d, hd, hrole, rfl⟩ := Registry.exists_of_view_constraint? hc
      exact h.constraints k d hd hrole hsoft
    · intro id range hid
      obtain ⟨x, hx, hx'⟩ := Option.bind_eq_some_iff.1 hid
      obtain ⟨v, hv, rfl⟩ := getVariable?_of_extent? hx
      unfold Registry.range? at hx'
      split at hx'
      · exact absurd hx' (by simp)
      · rename_i hslack
        have hslack : v.isSlack = false := by simpa [Variable.extent] using hslack
        obtain rfl := Option.some.inj hx'
        exact ⟨h.lower id v hv hslack, h.upper id v hv hslack⟩
  · rintro ⟨hconstraints, hranges⟩
    exact {
      constraints := fun k c hc hrole hsoft =>
        hconstraints k c.shown (Registry.view_constraint?_eq_some hc hrole) hsoft
      lower := fun id v hv hslack => (hranges id _ (hrange hv hslack)).1
      upper := fun id v hv hslack => (hranges id _ (hrange hv hslack)).2 }

/-! ### A variable pulled beyond a limit -/

theorem addConstraint_eq_ok {s : Spec ℝ} {coefficients : List ℝ} {ids : List VariableId}
    (hlength : coefficients.length = ids.length) (hids : ∀ id ∈ ids, s.isUserVariable id = true)
    (relation : Relation) (right : ℝ) {above below : ℝ} (habove : 0 ≤ above)
    (hbelow : 0 ≤ below) : s.addConstraint coefficients ids relation right above below
      = .ok (s.register (.fresh (List.zipWith Summand.mk coefficients ids) relation right above
        below .user)) :=
  addConstraint_eq_ok_iff.2 ⟨⟨⟨hlength, hids⟩, rfl, isPenalty_iff.2 habove,
    isPenalty_iff.2 hbelow⟩, rfl⟩

theorem isUserVariable_of_view {s : Spec ℝ} {id : VariableId}
    (h : (s.registry.view.range? id).isSome = true) : s.isUserVariable id = true := by
  obtain ⟨range, hrange⟩ := Option.isSome_iff_exists.1 h
  obtain ⟨x, hx, hx'⟩ := Option.bind_eq_some_iff.1 hrange
  refine (s.isUserVariable_iff_extent? id).2 ⟨x, hx, ?_⟩
  unfold Registry.range? at hx'
  split at hx'
  · exact absurd hx' (by simp)
  · rename_i hslack
    simpa using hslack

/-- An added constraint is seen under a fresh handle. -/
theorem view_perform_addConstraint {s : Spec ℝ} (hs : s.Reachable) {coefficients : List ℝ}
    {ids : List VariableId} (hlength : coefficients.length = ids.length)
    (hids : ∀ id ∈ ids, (s.registry.view.range? id).isSome = true) {relation : Relation}
    {right above below : ℝ} (habove : 0 ≤ above) (hbelow : 0 ≤ below)
    (hroom :
      (s.perform (.addConstraint coefficients ids relation right above below)).1.Addressable) :
    ∃ id, s.registry.view.constraint? id = none ∧
      (s.perform (.addConstraint coefficients ids relation right above below)).1.registry.view
        = { s.registry.view with
          constraint? := Function.update s.registry.view.constraint? id
            (some (.fresh (List.zipWith Summand.mk coefficients ids) relation right above below
              .user)) } := by
  obtain ⟨htidy, h⟩ := hs.tidy_owned
  obtain ⟨c, hc⟩ : ∃ c : Constraint ℝ, c = .fresh (List.zipWith Summand.mk coefficients ids)
    relation right above below .user := ⟨_, rfl⟩
  have huser : ∀ id ∈ ids, s.isUserVariable id = true :=
    fun id hid => isUserVariable_of_view (hids id hid)
  have hperform : (s.perform (.addConstraint coefficients ids relation right above below)).1
      = (s.register c).2 := by
    show (s.afterAddition (s.addConstraint coefficients ids relation right above below)).1 = _
    rw [addConstraint_eq_ok hlength huser relation right habove hbelow, hc]
    rfl
  rw [hperform] at hroom ⊢
  rw [← hc]
  have hplace : (s.place c).2.Addressable := (evolves_attach _ _).addressable hroom
  have hfresh := (registry_place htidy hplace).1
  refine ⟨(s.register c).1, ?_, view_register htidy h (by rw [hc]; rfl) (by rw [hc]; rfl)
    (by rw [hc]; rfl) ?_ hroom⟩
  · show (s.registry.constraint? (s.place c).1).bind Registry.shown? = none
    rw [hfresh]
    rfl
  · have hadmits : s.Admits coefficients ids := ⟨hlength, huser⟩
    rw [hc]
    exact isUserVariable_of_mem_mergeSummands hadmits.isUserVariable

/-- A variable that should be at most 100, at a penalty of 4, and should be 150. -/
def pulled : List (Operation ℝ) :=
  [.addVariable none, .addConstraint [1] [⟨⟨0, 0⟩⟩] .le 100 4 0,
    .addConstraint [1] [⟨⟨0, 0⟩⟩] .eq 150 1 1]

/-- The limit of the pulled variable. -/
noncomputable def pulledLimit (above below : ℝ) : Constraint ℝ :=
  .fresh [⟨1, ⟨⟨0, 0⟩⟩⟩] .le 100 above below .user

/-- What the caller sees of the pulled variable. -/
noncomputable def pulledView (limit target : ConstraintId) (above below : ℝ) : UserView ℝ where
  constraint? := Function.update (Function.update (fun _ => none) target
    (some (.fresh [⟨1, ⟨⟨0, 0⟩⟩⟩] .eq 150 1 1 .user))) limit (some (pulledLimit above below))
  range? := Function.update (fun _ => none) ⟨⟨0, 0⟩⟩
    (some (Variable.defaultLower, Variable.defaultUpper))

theorem view_pulled : ∃ limit target : ConstraintId, target ≠ limit ∧
    (({ options := .default } : Spec ℝ).run pulled).registry.view
      = pulledView limit target 4 0 := by
  obtain ⟨s₀, hs₀⟩ : ∃ s : Spec ℝ, s = { options := .default } := ⟨_, rfl⟩
  have hbegun : ∀ n, (s₀.run (pulled.take n)).Reachable := by
    intro n
    rw [hs₀]
    refine reachable_run .default ?_
    have hlength : (pulled.take n).length ≤ 3 := List.length_take_le' n pulled
    exact (Nat.mul_le_mul_right 8 hlength).trans (by decide)
  have hview₁ : (s₀.run (pulled.take 1)).registry.view = {
      constraint? := fun _ => none
      range? := Function.update (fun _ => none) ⟨⟨0, 0⟩⟩
        (some (Variable.defaultLower, Variable.defaultUpper)) } := by
    have hview := view_addVariable (hbegun 0).tidy_owned.1 none (hbegun 1).1
    rw [hs₀] at hview ⊢
    exact hview
  have hids : ∀ id ∈ [(⟨⟨0, 0⟩⟩ : VariableId)],
      ((s₀.run (pulled.take 1)).registry.view.range? id).isSome = true := by
    simp [hview₁]
  obtain ⟨limit, -, hview₂⟩ := view_perform_addConstraint (hbegun 1) rfl hids
    (by norm_num : (0 : ℝ) ≤ 4) le_rfl (hbegun 2).1
  have hview₂ : (s₀.run (pulled.take 2)).registry.view = {
      constraint? := Function.update (fun _ => none) limit (some (pulledLimit 4 0))
      range? := Function.update (fun _ => none) ⟨⟨0, 0⟩⟩
        (some (Variable.defaultLower, Variable.defaultUpper)) } := by
    rw [hview₁] at hview₂
    exact hview₂
  have hids₂ : ∀ id ∈ [(⟨⟨0, 0⟩⟩ : VariableId)],
      ((s₀.run (pulled.take 2)).registry.view.range? id).isSome = true := by
    simp [hview₂]
  obtain ⟨target, hfresh, hview₃⟩ := view_perform_addConstraint (hbegun 2) rfl hids₂
    zero_le_one zero_le_one (hbegun 3).1
  have hne : target ≠ limit := by
    rintro rfl
    rw [hview₂] at hfresh
    simp at hfresh
  refine ⟨limit, target, hne, ?_⟩
  rw [hview₂] at hview₃
  rw [← hs₀]
  refine hview₃.trans ?_
  unfold pulledView
  rw [Function.update_comm hne]
  rfl

section Pulled

variable {s : Spec ℝ} {limit target : ConstraintId} {above below d : ℝ}

theorem pulledView_constraint?_eq_some {k : ConstraintId} {c : Constraint ℝ}
    (h : (pulledView limit target above below).constraint? k = some c) :
    k = limit ∧ c = pulledLimit above below ∨
      k = target ∧ c = .fresh [⟨1, ⟨⟨0, 0⟩⟩⟩] .eq 150 1 1 .user := by
  unfold pulledView at h
  simp only [Function.update_apply] at h
  split at h
  · exact .inl ⟨‹_›, (Option.some.inj h).symm⟩
  · split at h
    · exact .inr ⟨‹_›, (Option.some.inj h).symm⟩
    · exact absurd h (by simp)

/-- The limit as it is stored. -/
theorem exists_limit_of_pulledView (hview : s.registry.view = pulledView limit target above below) :
    ∃ c, s.registry.constraint? limit = some c ∧ c.role = .user ∧
      c.shown = pulledLimit above below :=
  Registry.exists_of_view_constraint? (by rw [hview]; exact Function.update_self ..)

/-- The value of the pulled variable. -/
theorem userValue_of_pulledLimit {c : Constraint ℝ} (hshown : c.shown = pulledLimit above below)
    (a : VariableId → ℝ) : c.userValue a = a ⟨⟨0, 0⟩⟩ := by
  have hvalue : c.userValue a = (pulledLimit above below).userValue a := by
    rw [← hshown]
    rfl
  rw [hvalue]
  show evaluate [⟨1, ⟨⟨0, 0⟩⟩⟩] a = _
  rw [evaluate_cons, evaluate_nil, one_mul, add_zero]

/-- How far the pulled variable is beyond its limit. -/
theorem violation_of_pulledLimit {c : Constraint ℝ} (hshown : c.shown = pulledLimit above below)
    (a : VariableId → ℝ) : c.violation a = max 0 (a ⟨⟨0, 0⟩⟩ - 100) := by
  rw [← Constraint.violation_shown, hshown]
  show max 0 ((pulledLimit above below).userValue a - 100) = _
  rw [userValue_of_pulledLimit (Constraint.shown_of_rigid rfl)]

/-- Nothing hard was said of the pulled variable. -/
theorem userHolds_of_pulledView (hview : s.registry.view = pulledView limit target above below)
    (hsoft : 0 < weightFor above below) (a : VariableId → ℝ) : s.UserHolds a := by
  refine (userHolds_iff s a).2 ⟨fun k c hc hhard => ?_, fun id range hrange => ?_⟩
  · rw [hview] at hc
    obtain ⟨-, rfl⟩ | ⟨-, rfl⟩ := pulledView_constraint?_eq_some hc
    · have hweight : 0 < (pulledLimit above below).weight := hsoft
      rw [Constraint.weight_pos_iff, hhard] at hweight
      exact absurd hweight (by simp)
    · have hweight : 0 < (Constraint.fresh [⟨1, ⟨⟨0, 0⟩⟩⟩] .eq 150 1 1 .user :
          Constraint ℝ).weight := weightFor_pos_iff.2 (.inl one_pos)
      rw [Constraint.weight_pos_iff, hhard] at hweight
      exact absurd hweight (by simp)
  · rw [hview] at hrange
    unfold pulledView at hrange
    simp only [Function.update_apply] at hrange
    split at hrange
    · obtain rfl := Option.some.inj hrange
      exact ⟨fun h => absurd h (lt_irrefl _), fun h => absurd h (lt_irrefl _)⟩
    · exact absurd hrange (by simp)

/-- The penalty of the pulled variable. -/
theorem userPenalty_of_pulledView (hroom : s.Addressable) (hne : target ≠ limit)
    (hview : s.registry.view = pulledView limit target above below) (a : VariableId → ℝ) :
    s.userPenalty a = 1 / 2 * (weightFor above below ^ 2 * (max 0 (a ⟨⟨0, 0⟩⟩ - 100)) ^ 2
      + (a ⟨⟨0, 0⟩⟩ - 150) ^ 2) := by
  have hks : ∀ k, k ∈ ({limit, target} : Finset ConstraintId)
      ↔ (s.registry.view.constraint? k).isSome = true := by
    intro k
    rw [hview, Finset.mem_insert, Finset.mem_singleton]
    unfold pulledView
    simp only [Function.update_apply]
    split_ifs <;> simp [*]
  rw [userPenalty_eq_sum hroom hks, Finset.sum_pair hne.symm, hview]
  have hlimit : (pulledView limit target above below).constraint? limit
      = some (pulledLimit above below) := Function.update_self ..
  have htarget : (pulledView limit target above below).constraint? target
      = some (.fresh [⟨1, ⟨⟨0, 0⟩⟩⟩] .eq 150 1 1 .user) :=
    (Function.update_of_ne hne ..).trans (Function.update_self ..)
  have hvalue : ∀ c : Constraint ℝ, c.left = [⟨1, ⟨⟨0, 0⟩⟩⟩] → c.elastic = none →
      c.userValue a = a ⟨⟨0, 0⟩⟩ := by
    intro c hleft helastic
    unfold Constraint.userValue
    rw [Constraint.ownTerms_of_rigid helastic, hleft, evaluate_cons, evaluate_nil, one_mul,
      add_zero]
  have hweight : weightFor (1 : ℝ) 1 = 1 := by
    rw [weightFor_of_pos one_pos one_pos]
    norm_num
  rw [hlimit, htarget]
  congr 2
  · show weightFor above below ^ 2 * (max 0 ((pulledLimit above below).userValue a - 100)) ^ 2 = _
    rw [hvalue _ rfl rfl]
  · show weightFor (1 : ℝ) 1 ^ 2 * (Constraint.violation _ a) ^ 2 = _
    rw [Constraint.violation_sq_of_eq rfl, hvalue _ rfl rfl, hweight, one_pow, one_mul]
    rfl

end Pulled

end Spec

end ElasticLayout
