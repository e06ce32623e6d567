import ElasticLayout.Proofs.Meaning

/-!
# More penalty, less violation

In exact arithmetic, a larger weight of a soft constraint never makes the optimum violate it more.
The weight of two penalties is their sum, but half of it if both are positive; so raising penalties
raises the weight, except that a one-sided penalty may lose weight when it becomes two-sided.

* `Spec.IsUserMinimizer` -- values of the variables that the caller would call optimal;
* `Spec.isUserMinimizer_valuation`, `Spec.isMinimizer_slackPoint` -- they are the minimizers of the
  problem, without their slacks;
* `Spec.violation_antitone_weight` -- a larger weight;
* `Spec.Reachable.violation_le_of_penalties_le` -- larger penalties;
* `Spec.violation_not_antitone` -- a one-sided penalty that becomes two-sided.
-/

namespace ElasticLayout

attribute [local instance] atLeastTwo_two

namespace Spec

/-! ### Minimizers -/

/-- Values of the variables that keep what the caller said, at the least penalty. -/
structure IsUserMinimizer (s : Spec ℝ) (a : VariableId → ℝ) : Prop where
  holds : s.UserHolds a
  least : ∀ b, s.UserHolds b → s.userPenalty a ≤ s.userPenalty b

/-- A minimizer of the problem is one for the caller. -/
theorem isUserMinimizer_valuation {s : Spec ℝ} (h : s.registry.Owned none)
    (haddressable : s.Addressable) {x : s.problem.Point} (hx : s.problem.IsMinimizer x) :
    s.IsUserMinimizer (s.valuation x) := by
  have hextends : s.Extends (s.valuation x) x := fun _ _ _ _ _ => rfl
  refine ⟨hextends.userHolds h haddressable hx.holds, fun b hb => ?_⟩
  calc s.userPenalty (s.valuation x) ≤ s.problem.penalty x :=
        userPenalty_le h haddressable hextends hx.holds
    _ ≤ s.problem.penalty (s.slackPoint b) :=
        hx.penalty_le s.problem_isFull (holds_slackPoint h haddressable hb)
    _ = s.userPenalty b := penalty_slackPoint h haddressable b

/-- A minimizer for the caller is one of the problem, with the slacks that belong to it. -/
theorem isMinimizer_slackPoint {s : Spec ℝ} (h : s.registry.Owned none)
    (haddressable : s.Addressable) {a : VariableId → ℝ} (ha : s.IsUserMinimizer a) :
    s.problem.IsMinimizer (s.slackPoint a) := by
  refine ⟨holds_slackPoint h haddressable ha.holds, fun f hf y hy => ?_⟩
  obtain ⟨g, hg, hvalue⟩ := Problem.objective?_value s.problem_isFull.rowsFit
  obtain rfl := Option.some.inj (hf.symm.trans hg)
  have hextends : s.Extends (s.valuation y) y := fun _ _ _ _ _ => rfl
  have hle : s.problem.penalty (s.slackPoint a) ≤ s.problem.penalty y :=
    calc s.problem.penalty (s.slackPoint a) = s.userPenalty a :=
          penalty_slackPoint h haddressable a
      _ ≤ s.userPenalty (s.valuation y) :=
          ha.least _ (hextends.userHolds h haddressable hy)
      _ ≤ s.problem.penalty y := userPenalty_le h haddressable hextends hy
  rw [hvalue, hvalue]
  linarith

/-- The point with these slacks violates a constraint as the valuation does. -/
theorem violation_slackPoint {s : Spec ℝ} (h : s.registry.Owned none) (haddressable : s.Addressable)
    {id : ConstraintId} {c : Constraint ℝ} (hc : s.getConstraint? id = some c)
    (hrole : c.role = .user) (a : VariableId → ℝ) :
    c.violation (s.valuation (s.slackPoint a)) = c.violation a := by
  refine Constraint.violation_congr fun term hterm => ?_
  obtain ⟨x, hx, hslack⟩ := h.own id c hc hrole term hterm
  obtain ⟨v, hv, rfl⟩ := getVariable?_of_extent? hx
  have hcolumn : term.var ∈ s.columns := mem_columns.2 ⟨c, (mem_participants h haddressable).2
    ⟨id, hc⟩, term, Constraint.mem_ownTerms_subset hterm, rfl⟩
  exact extends_slackPoint h haddressable a term.var v hcolumn hv hslack

end Spec

/-! ### Halfway between two valuations -/

/-- The valuation halfway between two. -/
noncomputable def halfway (a b : VariableId → ℝ) (id : VariableId) : ℝ := (a id + b id) / 2

theorem evaluate_halfway (terms : List (Summand ℝ)) (a b : VariableId → ℝ) :
    evaluate terms (halfway a b) = (evaluate terms a + evaluate terms b) / 2 := by
  induction terms with
  | nil => simp
  | cons term terms ih =>
    rw [evaluate_cons, evaluate_cons, evaluate_cons, ih]
    unfold halfway
    ring

theorem Constraint.userValue_halfway (c : Constraint ℝ) (a b : VariableId → ℝ) :
    c.userValue (halfway a b) = (c.userValue a + c.userValue b) / 2 :=
  evaluate_halfway _ a b

/-- Violations are convex. -/
theorem Constraint.violation_halfway_le (c : Constraint ℝ) (a b : VariableId → ℝ) :
    c.violation (halfway a b) ≤ (c.violation a + c.violation b) / 2 := by
  unfold violation
  rw [c.userValue_halfway]
  cases c.relation with
  | le =>
    have ha := le_max_left 0 (c.userValue a - c.right)
    have hb := le_max_left 0 (c.userValue b - c.right)
    have ha' := le_max_right 0 (c.userValue a - c.right)
    have hb' := le_max_right 0 (c.userValue b - c.right)
    exact max_le (by linarith) (by linarith)
  | ge =>
    have ha := le_max_left 0 (c.right - c.userValue a)
    have hb := le_max_left 0 (c.right - c.userValue b)
    have ha' := le_max_right 0 (c.right - c.userValue a)
    have hb' := le_max_right 0 (c.right - c.userValue b)
    exact max_le (by linarith) (by linarith)
  | eq =>
    have ha := le_abs_self (c.userValue a - c.right)
    have hb := le_abs_self (c.userValue b - c.right)
    have ha' := neg_le_abs (c.userValue a - c.right)
    have hb' := neg_le_abs (c.userValue b - c.right)
    exact abs_le'.2 ⟨by linarith, by linarith⟩

theorem sq_half_add_le (u v : ℝ) : ((u + v) / 2) ^ 2 ≤ (u ^ 2 + v ^ 2) / 2 := by
  nlinarith [sq_nonneg (u - v)]

/-- Costs are convex. -/
theorem userCost_halfway_le (a b : VariableId → ℝ) (o : Option (Constraint ℝ)) :
    userCost (halfway a b) o ≤ (userCost a o + userCost b o) / 2 := by
  cases o with
  | none => simp [userCost]
  | some c =>
    have hsq : c.violation (halfway a b) ^ 2 ≤ (c.violation a ^ 2 + c.violation b ^ 2) / 2 :=
      (pow_le_pow_left₀ (c.violation_nonneg _) (c.violation_halfway_le a b) 2).trans
        (sq_half_add_le _ _)
    have hmul := mul_le_mul_of_nonneg_left hsq (sq_nonneg c.weight)
    unfold userCost
    linarith

theorem Relation.Holds.halfway {relation : Relation} {u v right : ℝ}
    (hu : relation.Holds u right) (hv : relation.Holds v right) :
    relation.Holds ((u + v) / 2) right := by
  cases relation <;> unfold Holds at hu hv ⊢ <;> linarith

namespace Spec

/-- What the caller said holds halfway between two valuations where it holds. -/
theorem UserHolds.halfway {s : Spec ℝ} {a b : VariableId → ℝ} (ha : s.UserHolds a)
    (hb : s.UserHolds b) : s.UserHolds (halfway a b) where
  constraints := by
    intro id c hc hrole hsoft
    rw [c.userValue_halfway]
    exact (ha.constraints id c hc hrole hsoft).halfway (hb.constraints id c hc hrole hsoft)
  lower := by
    intro id v hv hslack hnarrow
    have h₁ := ha.lower id v hv hslack hnarrow
    have h₂ := hb.lower id v hv hslack hnarrow
    unfold ElasticLayout.halfway
    linarith
  upper := by
    intro id v hv hslack hnarrow
    have h₁ := ha.upper id v hv hslack hnarrow
    have h₂ := hb.upper id v hv hslack hnarrow
    unfold ElasticLayout.halfway
    linarith

/-! ### A larger weight -/

/-- Two optima `x` and `x'` of objectives that weigh one violation by `w` and by `w'`, and a point
halfway between them: the larger weight has the smaller violation. -/
theorem violation_le_of_optimal {w w' v v' rest rest' vm restm : ℝ} (hw : 0 < w) (hww' : w ≤ w')
    (hv : 0 ≤ v) (hvm : 0 ≤ vm) (hvm' : vm ≤ (v + v') / 2) (hrestm : restm ≤ (rest + rest') / 2)
    (hx : w ^ 2 * v ^ 2 + rest ≤ w ^ 2 * v' ^ 2 + rest')
    (hm : w ^ 2 * v ^ 2 + rest ≤ w ^ 2 * vm ^ 2 + restm)
    (hx' : w' ^ 2 * v' ^ 2 + rest' ≤ w' ^ 2 * v ^ 2 + rest) : v' ≤ v := by
  by_contra hlt
  have hlt : v < v' := not_le.1 hlt
  have hsq : v ^ 2 < v' ^ 2 := pow_lt_pow_left₀ hlt hv two_ne_zero
  have hwsq : w ^ 2 ≤ w' ^ 2 := pow_le_pow_left₀ hw.le hww' 2
  -- The two optima together leave no room for a larger weight.
  have hsame : w' ^ 2 = w ^ 2 := by
    refine le_antisymm (not_lt.1 fun hlarger => ?_) hwsq
    have hproduct := mul_pos (sub_pos.2 hlarger) (sub_pos.2 hsq)
    nlinarith
  rw [hsame] at hx'
  -- With one weight both are optimal, and halfway between them it is better.
  have hvmsq : vm ^ 2 ≤ ((v + v') / 2) ^ 2 := pow_le_pow_left₀ hvm hvm' 2
  have hscaled := mul_le_mul_of_nonneg_left hvmsq (sq_nonneg w)
  have hgap := mul_pos (pow_pos hw 2) (pow_pos (sub_pos.2 hlt) 2)
  nlinarith

/-- What the caller sees of the constraints where one of them was replaced. -/
theorem view_constraint?_of_update {s t : Spec ℝ} {id : ConstraintId} {d : Constraint ℝ}
    (hview : t.registry.view = { s.registry.view with
      constraint? := Function.update s.registry.view.constraint? id (some d) }) (k : ConstraintId) :
    t.registry.view.constraint? k = if k = id then some d else s.registry.view.constraint? k := by
  rw [hview]
  exact Function.update_apply _ _ _ _

/-- A soft constraint that is replaced by a soft one rules out no valuation. -/
theorem userHolds_iff_of_update {s t : Spec ℝ} {id : ConstraintId} {c d : Constraint ℝ}
    (hc : s.registry.view.constraint? id = some c)
    (hview : t.registry.view = { s.registry.view with
      constraint? := Function.update s.registry.view.constraint? id (some d) })
    (hsoft : c.isSoft = true) (hsoft' : d.isSoft = true) (b : VariableId → ℝ) :
    t.UserHolds b ↔ s.UserHolds b := by
  rw [userHolds_iff, userHolds_iff]
  refine and_congr ?_ (by rw [hview])
  constructor
  · intro h k e he hhard
    refine h k e ?_ hhard
    rw [view_constraint?_of_update hview, if_neg]
    · exact he
    · rintro rfl
      obtain rfl := Option.some.inj (hc.symm.trans he)
      exact absurd (hsoft.symm.trans hhard) (by simp)
  · intro h k e he hhard
    rw [view_constraint?_of_update hview] at he
    split at he
    · obtain rfl := Option.some.inj he
      exact absurd (hsoft'.symm.trans hhard) (by simp)
    · exact h k e he hhard

/-- The penalty of one constraint, apart from what all others add to it. -/
theorem exists_penalty_split {s t : Spec ℝ} (hsroom : s.Addressable) (htroom : t.Addressable)
    {id : ConstraintId} {c d : Constraint ℝ} (hc : s.registry.view.constraint? id = some c)
    (hview : t.registry.view = { s.registry.view with
      constraint? := Function.update s.registry.view.constraint? id (some d) }) :
    ∃ rest : (VariableId → ℝ) → ℝ,
      (∀ b, s.userPenalty b = 1 / 2 * (c.weight ^ 2 * c.violation b ^ 2 + rest b)) ∧
      (∀ b, t.userPenalty b = 1 / 2 * (d.weight ^ 2 * d.violation b ^ 2 + rest b)) ∧
      ∀ a a', rest (halfway a a') ≤ (rest a + rest a') / 2 := by
  obtain ⟨ks, hks⟩ := exists_userHandles hsroom
  have hid : id ∈ ks := by
    rw [hks, hc]
    rfl
  have hks' : ∀ k, k ∈ ks ↔ (t.registry.view.constraint? k).isSome = true := by
    intro k
    rw [view_constraint?_of_update hview]
    split
    · rename_i hk
      simp [hk, hid]
    · exact hks k
  refine ⟨fun b => ∑ k ∈ ks.erase id, userCost b (s.registry.view.constraint? k), fun b => ?_,
    fun b => ?_, fun a a' => ?_⟩
  · rw [userPenalty_eq_sum hsroom hks, ← Finset.add_sum_erase ks _ hid, hc]
    rfl
  · rw [userPenalty_eq_sum htroom hks', ← Finset.add_sum_erase ks _ hid,
      view_constraint?_of_update hview, if_pos rfl]
    congr 2
    refine Finset.sum_congr rfl fun k hk => ?_
    rw [view_constraint?_of_update hview, if_neg (Finset.ne_of_mem_erase hk)]
  · rw [← Finset.sum_add_distrib, Finset.sum_div]
    exact Finset.sum_le_sum fun k _ => userCost_halfway_le a a' _

/-- **A larger weight never gives a larger violation.**  The two specifications show the caller the
same but for the penalties of one soft constraint. -/
theorem violation_antitone_weight {s t : Spec ℝ} (hs : s.registry.Owned none)
    (ht : t.registry.Owned none) (hsroom : s.Addressable) (htroom : t.Addressable)
    {id : ConstraintId} {c d : Constraint ℝ} (hc : s.registry.view.constraint? id = some c)
    (hview : t.registry.view = { s.registry.view with
      constraint? := Function.update s.registry.view.constraint? id (some d) })
    (hsoft : c.isSoft = true) (hweight : c.weight ≤ d.weight)
    (hviolation : d.violation = c.violation) {x : s.problem.Point} {x' : t.problem.Point}
    (hx : s.problem.IsMinimizer x) (hx' : t.problem.IsMinimizer x') :
    c.violation (t.valuation x') ≤ c.violation (s.valuation x) := by
  have hw : 0 < c.weight := Constraint.weight_pos_iff.2 hsoft
  have hsoft' : d.isSoft = true := Constraint.weight_pos_iff.1 (hw.trans_le hweight)
  obtain ⟨a, ha⟩ : ∃ a, a = s.valuation x := ⟨_, rfl⟩
  obtain ⟨a', ha'⟩ : ∃ a', a' = t.valuation x' := ⟨_, rfl⟩
  have hmin : s.IsUserMinimizer a := ha ▸ isUserMinimizer_valuation hs hsroom hx
  have hmin' : t.IsUserMinimizer a' := ha' ▸ isUserMinimizer_valuation ht htroom hx'
  have hholds := userHolds_iff_of_update hc hview hsoft hsoft'
  obtain ⟨rest, hpenalty, hpenalty', hrest⟩ := exists_penalty_split hsroom htroom hc hview
  rw [hviolation] at hpenalty'
  -- Each minimizer against the other, and the first against the point halfway.
  have h₁ := hmin.least a' ((hholds a').1 hmin'.holds)
  have h₂ := hmin.least _ (hmin.holds.halfway ((hholds a').1 hmin'.holds))
  have h₃ := hmin'.least a ((hholds a).2 hmin.holds)
  rw [hpenalty, hpenalty] at h₁ h₂
  rw [hpenalty', hpenalty'] at h₃
  rw [← ha, ← ha']
  exact violation_le_of_optimal hw hweight (c.violation_nonneg a) (c.violation_nonneg _)
    (c.violation_halfway_le a a') (hrest a a') (by linarith) (by linarith) (by linarith)

/-! ### Larger penalties -/

/-- Larger penalties have a larger weight, unless a one-sided penalty becomes a two-sided one that
is less than twice as large. -/
theorem weightFor_le_of_penalties_le {above below above' below' : ℝ} (habove : above ≤ above')
    (hbelow : below ≤ below') (hside : 0 < above' → 0 < below' →
      0 < above ∧ 0 < below ∨ 2 * weightFor above below ≤ above' + below') :
    weightFor above below ≤ weightFor above' below' := by
  unfold weightFor at hside ⊢
  dsimp only at hside ⊢
  by_cases ha : 0 < above <;> by_cases hb : 0 < below <;> by_cases ha' : 0 < above' <;>
    by_cases hb' : 0 < below' <;> simp only [ha, hb, ha', hb', if_true, if_false, and_true,
      and_false, forall_const, true_or, false_or] at hside ⊢ <;>
    norm_num at hside ⊢ <;> linarith

theorem setPenalties_ok {s t : Spec ℝ} {id : ConstraintId} {above below : ℝ}
    (h : s.setPenalties id above below = .ok t) :
    t = s.mutate id fun c => { c with penaltyAbove := above, penaltyBelow := below } :=
  (setPenalties_eq_ok_iff.1 h).2.symm

theorem isUserChange_penalties (s : Spec ℝ) (above below : ℝ) :
    s.IsUserChange fun c => { c with penaltyAbove := above, penaltyBelow := below } :=
  ⟨fun _ => rfl, fun _ => rfl, fun _ => rfl, fun _ _ => .inl⟩

/-- **Larger penalties never give a larger violation**, unless a one-sided penalty becomes a
two-sided one that is less than twice as large. -/
theorem Reachable.violation_le_of_penalties_le {s t : Spec ℝ} (hs : s.Reachable)
    {id : ConstraintId} {c : Constraint ℝ} (hc : s.getConstraint? id = some c)
    (hrole : c.role = .user) (hsoft : c.isSoft = true) {above below : ℝ}
    (habove : c.penaltyAbove ≤ above) (hbelow : c.penaltyBelow ≤ below)
    (hside : 0 < above → 0 < below →
      0 < c.penaltyAbove ∧ 0 < c.penaltyBelow ∨ 2 * c.weight ≤ above + below)
    (ht : s.setPenalties id above below = .ok t) (hroom : t.Addressable)
    {x : s.problem.Point} {x' : t.problem.Point} (hx : s.problem.IsMinimizer x)
    (hx' : t.problem.IsMinimizer x') :
    c.violation (t.valuation x') ≤ c.violation (s.valuation x) := by
  obtain ⟨htidy, h⟩ := hs.tidy_owned
  obtain rfl := setPenalties_ok ht
  have hchange := s.isUserChange_penalties above below
  have hid : s.isUserConstraint id = true := (s.isUserConstraint_iff id).2 ⟨c, hc, hrole⟩
  exact violation_antitone_weight h (owned_mutate htidy h hid hchange hroom) hs.1 hroom
    (Registry.view_constraint?_eq_some hc hrole) (view_mutate htidy h hc hrole hchange hroom)
    hsoft (weightFor_le_of_penalties_le habove hbelow hside) rfl hx hx'

/-! ### A variable pulled beyond a limit -/

theorem setPenalties_eq_ok {s : Spec ℝ} {id : ConstraintId} {c : Constraint ℝ}
    (hc : s.getConstraint? id = some c) (hrole : c.role = .user) {above below : ℝ}
    (habove : 0 ≤ above) (hbelow : 0 ≤ below) : s.setPenalties id above below
      = .ok (s.mutate id fun c => { c with penaltyAbove := above, penaltyBelow := below }) :=
  setPenalties_eq_ok_iff.2 ⟨⟨(s.isUserConstraint_iff id).2 ⟨c, hc, hrole⟩,
    isPenalty_iff.2 habove, isPenalty_iff.2 hbelow⟩, rfl⟩

/-- The pulled variable before and after its limit is given other penalties. -/
theorem exists_pulled {above below : ℝ} (habove : 0 ≤ above) (hbelow : 0 ≤ below) :
    ∃ (limit target : ConstraintId) (s t : Spec ℝ) (c : Constraint ℝ), target ≠ limit ∧
      s.Reachable ∧ t.Reachable ∧ s.getConstraint? limit = some c ∧ c.role = .user ∧
      c.shown = pulledLimit 4 0 ∧ s.setPenalties limit above below = .ok t ∧
      s.registry.view = pulledView limit target 4 0 ∧
      t.registry.view = pulledView limit target above below := by
  obtain ⟨limit, target, hne, hview⟩ := view_pulled
  obtain ⟨s, hs⟩ : ∃ s : Spec ℝ, s = ({ options := .default } : Spec ℝ).run pulled := ⟨_, rfl⟩
  rw [← hs] at hview
  have hreachable : s.Reachable := hs ▸ reachable_run .default (by decide)
  obtain ⟨c, hc, hrole, hshown⟩ := exists_limit_of_pulledView hview
  have hset := setPenalties_eq_ok hc hrole habove hbelow
  obtain ⟨t, ht⟩ : ∃ t, t = s.mutate limit fun c =>
      { c with penaltyAbove := above, penaltyBelow := below } := ⟨_, rfl⟩
  rw [← ht] at hset
  have hreachable' : t.Reachable := by
    have hrun : ({ options := .default } : Spec ℝ).run
        (pulled ++ [.setPenalties limit above below]) = t := by
      unfold run at hs ⊢
      rw [List.foldl_append, ← hs]
      show (s.afterChange (s.setPenalties limit above below)).1 = t
      rw [hset]
      rfl
    rw [← hrun]
    exact reachable_run .default (show 4 * 8 ≤ UInt32.size by decide)
  refine ⟨limit, target, s, t, c, hne, hreachable, hreachable', hc, hrole, hshown, hset, hview, ?_⟩
  obtain ⟨htidy, h⟩ := hreachable.tidy_owned
  have hroom := hreachable'.1
  rw [ht] at hroom ⊢
  rw [view_mutate htidy h hc hrole (s.isUserChange_penalties above below) hroom, hview, hshown]
  unfold pulledView
  rw [Function.update_idem]
  rfl

section Pulled

variable {s : Spec ℝ} {limit target : ConstraintId} {above below d : ℝ}

/-- The optimum of the pulled variable. -/
theorem isUserMinimizer_of_pulledView (hroom : s.Addressable) (hne : target ≠ limit)
    (hview : s.registry.view = pulledView limit target above below)
    (hsoft : 0 < weightFor above below) (hd₀ : 0 < d)
    (hd : d * (weightFor above below ^ 2 + 1) = 50) :
    s.IsUserMinimizer fun _ => 100 + d := by
  refine ⟨userHolds_of_pulledView hview hsoft _, fun b _ => ?_⟩
  rw [userPenalty_of_pulledView hroom hne hview, userPenalty_of_pulledView hroom hne hview]
  generalize weightFor above below = w at hd hsoft ⊢
  generalize b ⟨⟨0, 0⟩⟩ = v
  -- Both squares lie above their tangents at the optimum, whose slopes cancel.
  have hexcess : v - 100 ≤ max 0 (v - 100) := le_max_right ..
  generalize max 0 (v - 100) = u at hexcess
  have hlimit : w ^ 2 * (d ^ 2 + 2 * d * (u - d)) ≤ w ^ 2 * u ^ 2 :=
    mul_le_mul_of_nonneg_left (by nlinarith [sq_nonneg (u - d)]) (sq_nonneg w)
  have htarget : (d - 50) ^ 2 + 2 * (d - 50) * (v - 100 - d) ≤ (v - 150) ^ 2 := by
    nlinarith [sq_nonneg (v - 100 - d)]
  have hslopes : (w ^ 2 * d + (d - 50)) * (v - 100 - d) = 0 := by
    rw [show w ^ 2 * d + (d - 50) = 0 by linarith, zero_mul]
  have hpull : 0 ≤ w ^ 2 * d * (u - (v - 100)) :=
    mul_nonneg (by positivity) (sub_nonneg.2 hexcess)
  rw [add_sub_cancel_left, max_eq_right hd₀.le]
  linarith

/-- A minimizer of the problem of the pulled variable, and how far it is beyond the limit. -/
theorem exists_isMinimizer_of_pulledView (hs : s.Reachable) (hne : target ≠ limit)
    (hview : s.registry.view = pulledView limit target above below)
    (hsoft : 0 < weightFor above below) (hd₀ : 0 < d)
    (hd : d * (weightFor above below ^ 2 + 1) = 50) :
    ∃ x : s.problem.Point, s.problem.IsMinimizer x ∧
      (pulledLimit above below).violation (s.valuation x) = d := by
  obtain ⟨-, h⟩ := hs.tidy_owned
  obtain ⟨c, hc, hrole, hshown⟩ := exists_limit_of_pulledView hview
  have hmin := isUserMinimizer_of_pulledView hs.1 hne hview hsoft hd₀ hd
  refine ⟨_, isMinimizer_slackPoint h hs.1 hmin, ?_⟩
  rw [← hshown, Constraint.violation_shown, violation_slackPoint h hs.1 hc hrole,
    violation_of_pulledLimit hshown, add_sub_cancel_left, max_eq_right hd₀.le]

end Pulled

/-- The optima before and after the limit of the pulled variable is given other penalties. -/
theorem exists_pulled_optima {above below d : ℝ} (habove : 0 ≤ above) (hbelow : 0 ≤ below)
    (hsoft : 0 < weightFor above below) (hd₀ : 0 < d)
    (hd : d * (weightFor above below ^ 2 + 1) = 50) :
    ∃ (s t : Spec ℝ) (id : ConstraintId) (c : Constraint ℝ) (x : s.problem.Point)
      (x' : t.problem.Point), s.Reachable ∧ t.Reachable ∧ s.getConstraint? id = some c ∧
      c.role = .user ∧ c.isSoft = true ∧ c.penaltyAbove = 4 ∧ c.penaltyBelow = 0 ∧
      s.setPenalties id above below = .ok t ∧ s.problem.IsMinimizer x ∧
      t.problem.IsMinimizer x' ∧ c.violation (s.valuation x) = 50 / 17 ∧
      c.violation (t.valuation x') = d := by
  obtain ⟨limit, target, s, t, c, hne, hs, ht, hc, hrole, hshown, hset, hview, hview'⟩ :=
    exists_pulled habove hbelow
  have hweight : weightFor (4 : ℝ) 0 = 4 := weightFor_zero (by norm_num)
  have hviolation : ∀ above below : ℝ, c.violation = (pulledLimit above below).violation := by
    intro above below
    calc c.violation = c.shown.violation := rfl
      _ = (pulledLimit 4 0).violation := by rw [hshown]
      _ = (pulledLimit above below).violation := rfl
  have habove₀ : c.penaltyAbove = 4 := congrArg Constraint.penaltyAbove hshown
  have hbelow₀ : c.penaltyBelow = 0 := congrArg Constraint.penaltyBelow hshown
  have hsoft₀ : 0 < c.weight := by
    show 0 < weightFor c.penaltyAbove c.penaltyBelow
    rw [habove₀, hbelow₀, hweight]
    norm_num
  obtain ⟨x, hx, hxd⟩ := exists_isMinimizer_of_pulledView hs hne hview
    (by rw [hweight]; norm_num) (by norm_num : (0 : ℝ) < 50 / 17) (by rw [hweight]; norm_num)
  obtain ⟨x', hx', hxd'⟩ := exists_isMinimizer_of_pulledView ht hne hview' hsoft hd₀ hd
  exact ⟨s, t, limit, c, x, x', hs, ht, hc, hrole, Constraint.weight_pos_iff.1 hsoft₀, habove₀,
    hbelow₀, hset, hx, hx', by rw [hviolation, hxd], by rw [hviolation, hxd']⟩

/-- A limit that is twice as expensive is violated no more. -/
theorem violation_le_of_doubled_penalty : ∃ (s t : Spec ℝ) (id : ConstraintId) (c : Constraint ℝ)
    (x : s.problem.Point) (x' : t.problem.Point), s.Reachable ∧ s.getConstraint? id = some c ∧
      s.setPenalties id 8 0 = .ok t ∧ s.problem.IsMinimizer x ∧ t.problem.IsMinimizer x' ∧
      c.violation (s.valuation x) = 50 / 17 ∧
      c.violation (t.valuation x') ≤ c.violation (s.valuation x) := by
  have hweight : weightFor (8 : ℝ) 0 = 8 := weightFor_zero (by norm_num)
  obtain ⟨s, t, id, c, x, x', hs, ht, hc, hrole, hsoft, habove, hbelow, hset, hx, hx', hxd, -⟩ :=
    exists_pulled_optima (by norm_num : (0 : ℝ) ≤ 8) le_rfl (by rw [hweight]; norm_num)
      (by norm_num : (0 : ℝ) < 10 / 13) (by rw [hweight]; norm_num)
  refine ⟨s, t, id, c, x, x', hs, hc, hset, hx, hx', hxd, ?_⟩
  exact hs.violation_le_of_penalties_le hc hrole hsoft (by rw [habove]; norm_num) (by rw [hbelow])
    (fun _ h => absurd h (lt_irrefl 0)) hset ht.1 hx hx'

/-- **Penalties that are not smaller may give a larger violation.**  An upper penalty of 4 weighs
more than the mean of 4 and 1. -/
theorem violation_not_antitone : ¬ ∀ (s t : Spec ℝ) (id : ConstraintId) (c : Constraint ℝ)
    (above below : ℝ) (x : s.problem.Point) (x' : t.problem.Point),
    s.Reachable → s.getConstraint? id = some c → c.role = .user → c.isSoft = true →
    c.penaltyAbove ≤ above → c.penaltyBelow ≤ below → s.setPenalties id above below = .ok t →
    t.Reachable → s.problem.IsMinimizer x → t.problem.IsMinimizer x' →
    c.violation (t.valuation x') ≤ c.violation (s.valuation x) := by
  intro hantitone
  have hweight : weightFor (4 : ℝ) 1 = 5 / 2 := by
    rw [weightFor_of_pos (by norm_num) one_pos]
    norm_num
  obtain ⟨s, t, id, c, x, x', hs, ht, hc, hrole, hsoft, habove, hbelow, hset, hx, hx', hxd, hxd'⟩ :=
    exists_pulled_optima (by norm_num : (0 : ℝ) ≤ 4) zero_le_one (by rw [hweight]; norm_num)
      (by norm_num : (0 : ℝ) < 200 / 29) (by rw [hweight]; norm_num)
  have hle := hantitone s t id c 4 1 x x' hs hc hrole hsoft habove.le (by rw [hbelow]; norm_num)
    hset ht hx hx'
  rw [hxd, hxd'] at hle
  norm_num at hle

end Spec

end ElasticLayout
