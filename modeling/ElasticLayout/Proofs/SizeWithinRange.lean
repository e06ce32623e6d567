import ElasticLayout.Proofs.LowerBound
import ElasticLayout.Proofs.Monotonicity
import ElasticLayout.Proofs.RationalSystems
import ElasticLayout.Proofs.Values

/-!
# Sizes and ranges

In exact arithmetic a size that a query finds keeps the narrowed ends of the ranges of its variables
within the tolerance, as far as the solver does not pass over the rows of their bound constraints.
The default ends are no limits: no constraint enforces them.

* `Spec.Overlooks` -- the solver passes over the row of a constraint;
* `Spec.RespectsRange` -- a number and the narrowed ends of a range;
* `Spec.Reachable.size_respects_ranges` -- the main result;
* `Spec.smallestSize_stretched` -- a size past the end of a range, whose row is passed over;
* `Spec.HasFloor` -- one constraint keeps one variable above a number, which is its smallest size;
* `Spec.size_may_leave_default_range` -- the number may lie above the default range.
-/

namespace ElasticLayout

open Linear

namespace Spec

/-- The solve passes over the hard row of a constraint. -/
def Overlooks (u : Spec ℝ) (k : ConstraintId) : Prop :=
  ∃ r : u.problem.Row, (u.hardConstraints[r.val]?).map (·.1) = some k ∧
    u.problem.Overlooked u.options.maxIterations r

/-- A number keeps the narrowed ends of a range within the tolerance, unless the solve passes over
the rows of their bound constraints. -/
structure RespectsRange (u : Spec ℝ) (v : Variable ℝ) (value : ℝ) : Prop where
  lower : Variable.defaultLower < v.lower → ∃ k, v.lowerBound = some k ∧
    (¬u.Overlooks k → v.lower - Scalar.tolerance < value)
  upper : v.upper < Variable.defaultUpper → ∃ k, v.upperBound = some k ∧
    (¬u.Overlooks k → value < v.upper + Scalar.tolerance)

variable {u : Spec ℝ} {x : u.problem.Point}

/-- The row of a hard constraint that is not passed over holds within the tolerance at the
solution. -/
theorem isSatisfied_of_not_overlooks (hx : u.outcome = .ok x) {k : ConstraintId} {c : Constraint ℝ}
    (hc : (k, c) ∈ u.hardConstraints) (hseen : ¬u.Overlooks k) :
    HardRow.isSatisfied ⟨u.columns.map c.coefficientOf, c.relation, c.right⟩ x.toList
      Scalar.tolerance = true := by
  have hrows : u.problem.hard = u.hardConstraints.map fun p =>
      ⟨u.columns.map p.2.coefficientOf, p.2.relation, p.2.right⟩ := by
    unfold hardConstraints
    rw [show u.problem.hard = (u.participants.filter (!·.isObjectiveTerm)).map _ from rfl,
      filter_participants, List.map_map]
    rfl
  obtain ⟨i, hi, hget⟩ := List.mem_iff_getElem.1 hc
  have hlength : i < u.problem.hard.length := by rwa [hrows, List.length_map]
  have hrow : u.problem.row ⟨i, hlength⟩
      = ⟨u.columns.map c.coefficientOf, c.relation, c.right⟩ := by
    show u.problem.hard[i] = _
    simp only [hrows, List.getElem_map, hget]
  rw [← hrow]
  refine Problem.isSatisfied_solve u.problem_isFull hx fun hoverlooked => ?_
  exact hseen ⟨⟨i, hlength⟩, by rw [List.getElem?_eq_getElem hi, hget]; rfl, hoverlooked⟩

/-- How far a bound constraint is from failing at a point. -/
theorem excess_of_isBound {c : Constraint ℝ} {id : VariableId} {relation : Relation} {limit : ℝ}
    (h : c.IsBound id relation limit) (hc : c ∈ u.participants) :
    HardRow.excess ⟨u.columns.map c.coefficientOf, c.relation, c.right⟩ x.toList
      = relation.sign * (u.valuation x id - limit) := by
  have hvalue : dot (u.columns.map c.coefficientOf) x.toList = u.valuation x id := by
    rw [← u.pointOf_valuation x, dot_pointOf hc, h.left, evaluate_cons, evaluate_nil,
      pointOf_valuation]
    ring
  unfold HardRow.excess HardRow.signedValue HardRow.signedRhs HardRow.value
  dsimp only
  rw [hvalue, h.relation, h.right]
  ring

variable {s t s₀ s₁ s₂ : Spec ℝ} {width height id : VariableId} {target : ℝ} {k₁ k₂ : ConstraintId}

/-- The solution of a query keeps a bound constraint of a variable that is no slack. -/
theorem QueryStages.sign_mul_sub_of_isBound
    (h : s.QueryStages t width height target s₀ s₁ s₂ k₁ k₂) (hs : s.Addressable)
    (howned : s.registry.Owned none) {x : s₂.problem.Point} (hx : s₂.outcome = .ok x)
    (huser : s.isUserVariable id = true) {k : ConstraintId} {c : Constraint ℝ}
    {relation : Relation} {limit : ℝ} (hne : relation ≠ .eq)
    (hc : s.registry.constraint? k = some c) (hbound : c.IsBound id relation limit)
    (hseen : ¬s₂.Overlooks k) :
    -(1 / 1000000) < relation.sign * (s₂.valuation x id - limit) := by
  have hbinds : s.binds c = true := by
    unfold binds
    rw [hbound.role]
    exact huser
  obtain ⟨hget, hresumed⟩ := (h.participates_iff hs howned).2 (.inr (.inr ⟨hc, hbinds⟩))
  have hmem : (k, c) ∈ s₂.hardConstraints := (mem_participantsWhere h.room₂).2
    ⟨hget, hresumed, by simp [Constraint.isObjectiveTerm, hbound.isSoft]⟩
  have hsatisfied := isSatisfied_of_not_overlooks hx hmem hseen
  rw [HardRow.isSatisfied_iff, excess_of_isBound hbound
    (mem_participants_of_mem_participantsWhere hmem)] at hsatisfied
  have hinequality : HardRow.isEquality
      (⟨s₂.columns.map c.coefficientOf, c.relation, c.right⟩ : HardRow ℝ) = false := by
    unfold HardRow.isEquality
    rw [hbound.relation]
    simpa using hne
  rwa [hinequality] at hsatisfied

/-- **The solution of a query keeps the narrowed ends of the ranges.** -/
theorem QueryStages.respectsRange (h : s.QueryStages t width height target s₀ s₁ s₂ k₁ k₂)
    (hs : s.Addressable) (howned : s.registry.Owned none) {x : s₂.problem.Point}
    (hx : s₂.outcome = .ok x) {v : Variable ℝ} (hv : s.getVariable? id = some v)
    (hslack : v.isSlack = false) : s₂.RespectsRange v (s₂.valuation x id) := by
  have hrange := howned.range id v.extent (registry_extent?_eq_some hv)
  have huser : s.isUserVariable id = true := (s.isUserVariable_iff id).2 ⟨v, hv, hslack⟩
  constructor
  · intro hnarrow
    obtain ⟨k, hk⟩ := Option.isSome_iff_exists.1 (hrange.lower.1.2 hnarrow)
    obtain ⟨c, hc, hbound⟩ := hrange.lower.2 k hk
    refine ⟨k, hk, fun hseen => ?_⟩
    have hlower : -(1 / 1000000) < 1 * (s₂.valuation x id - v.lower) :=
      h.sign_mul_sub_of_isBound hs howned hx huser (by simp) hc hbound hseen
    rw [Scalar.tolerance_eq]
    linarith
  · intro hnarrow
    obtain ⟨k, hk⟩ := Option.isSome_iff_exists.1 (hrange.upper.1.2 hnarrow)
    obtain ⟨c, hc, hbound⟩ := hrange.upper.2 k hk
    refine ⟨k, hk, fun hseen => ?_⟩
    have hupper : -(1 / 1000000) < -1 * (s₂.valuation x id - v.upper) :=
      h.sign_mul_sub_of_isBound hs howned hx huser (by simp) hc hbound hseen
    rw [Scalar.tolerance_eq]
    linarith

/-- A value that a solve writes is the coordinate of the solution. -/
theorem Writes.valuation_eq {a : ℝ} (h : u.Writes id a) (hx : u.outcome = .ok x) :
    u.valuation x id = a := by
  obtain ⟨y, j, hy, hid, hvalue⟩ := h
  obtain rfl := Except.ok.inj (hx.symm.trans hy)
  obtain ⟨hj, rfl⟩ := List.getElem?_eq_some_iff.1 hid
  unfold valuation
  rw [u.columns_nodup.idxOf_getElem, List.getD_eq_getElem?_getD, hvalue]
  rfl

/-- A query that is solved reports the coordinates of the solution. -/
theorem QueryStages.size_eq (h : s.QueryStages t width height target s₀ s₁ s₂ k₁ k₂)
    (hs : s.Addressable) (howned : s.registry.Owned none) {x : s₂.problem.Point}
    (hx : s₂.outcome = .ok x) (hwidth : (s.getVariable? width).isSome = true)
    (hheight : (s.getVariable? height).isSome = true) {unbounded size : Size ℝ}
    (hquery : s.sizeQuery width height target unbounded = .ok (size, t)) :
    size = ⟨s₂.valuation x width, s₂.valuation x height⟩ := by
  obtain ⟨hafter, hbefore⟩ := h.value?_eq
  obtain ⟨hcolumn, hcolumn'⟩ := h.mem_columns hs howned
  have hvalue : ∀ {id : VariableId}, (s.getVariable? id).isSome = true → id ∈ s₂.columns →
      (t.value? id).getD Scalar.nan = s₂.valuation x id := by
    intro id hlive hid
    obtain ⟨v, hv⟩ := Option.isSome_iff_exists.1 hlive
    have hlive : s₂.value? id = some v.value := by
      rw [hbefore]
      exact congrArg (Option.map _) hv
    have hwritten := value?_solve (solution_of_outcome hx) id
    rw [hlive, Option.map_some] at hwritten
    rw [hafter, hwritten]
    exact ((writes_of_mem_columns hx hid hwritten).valuation_eq hx).symm
  rw [size_of_sizeQuery hquery, hvalue hwidth hcolumn, hvalue hheight hcolumn']

/-- **A size respects the narrowed ends of the ranges**, after every history of calls: where a query
ends with an optimum, width and height keep the narrowed ends of the ranges of their variables
within the tolerance, unless the solve passes over the rows of the bound constraints. -/
theorem Reachable.size_respects_ranges (hs : s.Reachable) {op : Operation ℝ}
    (hop : op = .minSize width height ∨ op = .maxSize width height) {size : Size ℝ}
    (h : s.perform op = (t, .size size)) (hroom : t.Addressable) (hresult : t.result = .optimal)
    {v w : Variable ℝ} (hv : s.getVariable? width = some v) (hv' : v.isSlack = false)
    (hw : s.getVariable? height = some w) (hw' : w.isSlack = false) :
    ∃ u, s.solvedBy? op = some u ∧ u.RespectsRange v size.width ∧
      u.RespectsRange w size.height := by
  obtain ⟨htidy, howned⟩ := hs.tidy_owned
  obtain ⟨target, unbounded, hquery, hsolved⟩ := sizeQuery_of_perform hop h
  obtain ⟨s₀, s₁, s₂, k₁, k₂, hstages⟩ := exists_queryStages htidy hquery hroom
  obtain ⟨x, hx⟩ : ∃ x, s₂.outcome = .ok x := by
    cases hx : s₂.outcome with
    | ok x => exact ⟨x, rfl⟩
    | error e =>
      have hfails := (resultCode_fails e).1
      rw [hstages.result_eq] at hresult
      unfold solve at hresult
      rw [hx] at hresult
      rw [show e.resultCode = .optimal from hresult] at hfails
      exact absurd hfails (by simp [ResultCode.isSuccess])
  rw [hstages.size_eq hs.1 howned hx (Option.isSome_of_eq_some hv) (Option.isSome_of_eq_some hw)
    hquery]
  exact ⟨s₂, by rw [hsolved, hstages.pinned_eq], hstages.respectsRange hs.1 howned hx hv hv',
    hstages.respectsRange hs.1 howned hx hw hw'⟩

/-! ### A variable with a floor -/

/-- One constraint keeps one variable above a number, and nothing else binds a query. -/
structure HasFloor (s : Spec ℝ) (id : VariableId) (floor : ℝ) : Prop where
  nonneg : 0 ≤ floor
  user : s.isUserVariable id = true
  binding : ∃ k c, s.bindingConstraints = [(k, c)] ∧ c.left = [⟨1, id⟩] ∧ c.relation = .ge ∧
    c.right = floor

section Floors

variable {floor : ℝ}

/-- A query for the smallest size of the variable poses the problem of one lower bound. -/
theorem QueryStages.problem_eq_above (h : s.QueryStages t id id 0 s₀ s₁ s₂ k₁ k₂)
    (hs : s.Reachable) (hpenalty : 0 < s.options.sizePenalty) (hfloor : s.HasFloor id floor) :
    s₂.columns = [id] ∧ s₂.problem = .above floor s₂.problem.soft ∧
      ∀ row ∈ s₂.problem.soft, row.rhs = 0 := by
  have hposes := h.posesQuery hs hpenalty hfloor.user hfloor.user
  obtain ⟨k, c, hbinding, hleft, hrelation, rfl⟩ := hfloor.binding
  have hcolumns : s₂.columns = [id] := by
    refine List.perm_singleton.1 ((List.perm_ext_iff_of_nodup s₂.columns_nodup
      (List.nodup_singleton id)).2 fun id' => ?_)
    rw [hposes.mem_columns, hbinding]
    simp [hleft, eq_comm]
  have hhard : s₂.problem.hard = [⟨[1], .ge, c.right⟩] := by
    have hrows := hposes.hard
    rw [hbinding] at hrows
    obtain ⟨row, rows, ⟨hrow, hrhs, hcells⟩, hrest, hall⟩ := List.forall₂_cons_left_iff.1 hrows
    have hone : row.coefficients = [1] := by
      have hlength : row.coefficients.length = 1 := hcells.length.trans (by rw [hcolumns]; rfl)
      have hfirst := hcells.mentioned 0 id (by rw [hcolumns]; rfl) ⟨1, id⟩
        (by rw [hleft]; exact List.mem_singleton_self _) rfl
      obtain ⟨a, ha⟩ := List.length_eq_one_iff.1 hlength
      rw [ha] at hfirst ⊢
      simpa using hfirst
    rw [hall, List.forall₂_nil_left_iff.1 hrest, ← hone, ← hrelation, ← hrow, ← hrhs]
  refine ⟨hcolumns, ?_, fun row hrow => ?_⟩
  · have hcount : s₂.problem.variableCount = 1 := by
      rw [hposes.variableCount, hcolumns]
      rfl
    unfold Problem.above
    rw [← hhard, ← hcount]
  · obtain ⟨a, b, hperm, ha, hb⟩ := hposes.soft
    rcases List.mem_pair.1 (hperm.mem_iff.1 hrow) with rfl | rfl
    · exact ha.rhs
    · exact hb.rhs

/-- **The smallest size of a variable with a floor is its floor.** -/
theorem minSize_of_hasFloor (hs : s.Reachable) (hpenalty : 0 < s.options.sizePenalty)
    (hiterations : 0 < s.options.maxIterations) (hfloor : s.HasFloor id floor) {size : Size ℝ}
    (h : s.minSize id id = .ok (size, t)) (hroom : t.Addressable) :
    t.result = .optimal ∧ size = ⟨floor, floor⟩ ∧ ∀ k, ¬(s.pinned id id 0).2.Overlooks k := by
  obtain ⟨htidy, howned⟩ := hs.tidy_owned
  obtain ⟨s₀, s₁, s₂, k₁, k₂, hstages⟩ := exists_queryStages htidy h hroom
  obtain ⟨hcolumns, hproblem, htargets⟩ := hstages.problem_eq_above hs hpenalty hfloor
  obtain ⟨n, hn⟩ := Nat.exists_eq_succ_of_ne_zero hiterations.ne'
  have hlimit : s₂.options.maxIterations = n + 1 := by rw [hstages.options_stages.2.2, hn]
  obtain ⟨x, hx, hvalue, hseen⟩ := Problem.exists_solve_of_eq_above hproblem hfloor.nonneg
    s₂.problem_isFull.rowsFit (fun row hrow => by rw [htargets row hrow, mul_zero]) n
  rw [← hlimit] at hx hseen
  have hlive := isSome_of_isUserVariable hfloor.user
  have hvaluation : s₂.valuation x id = floor := by
    unfold valuation
    rw [hvalue, hcolumns]
    simp
  refine ⟨?_, ?_, fun k => ?_⟩
  · rw [hstages.result_eq, result_solve, solution_of_outcome hx]
  · rw [hstages.size_eq hs.1 howned hx hlive hlive h, hvaluation]
  · rw [hstages.pinned_eq]
    rintro ⟨r, -, hoverlooked⟩
    exact hseen r hoverlooked

/-- The same after a short history of calls, with the default options. -/
theorem exists_minSize_of_hasFloor {history : List (Operation ℝ)}
    (hoptions : (({ options := .default } : Spec ℝ).run history).options = .default)
    (hfloor : (({ options := .default } : Spec ℝ).run history).HasFloor id floor)
    (hshort : history.length ≤ 10) :
    ∃ t, (({ options := .default } : Spec ℝ).run history).minSize id id
        = .ok (⟨floor, floor⟩, t) ∧ t.Addressable ∧ t.result = .optimal ∧
      ∀ k, ¬((({ options := .default } : Spec ℝ).run history).pinned id id 0).2.Overlooks k := by
  have hlive := isSome_of_isUserVariable hfloor.user
  obtain ⟨size, t, h⟩ := exists_sizeQuery _ hlive hlive 0 Size.zero
  have hs : (({ options := .default } : Spec ℝ).run history).Reachable :=
    reachable_run _ ((Nat.mul_le_mul_right 8 hshort).trans (by decide))
  have hroom := addressable_perform_run .default (.minSize id id)
    ((Nat.mul_le_mul_right 8 (Nat.add_le_add_right hshort 1)).trans (by decide))
  rw [perform_minSize h] at hroom
  obtain ⟨hresult, rfl, hseen⟩ := minSize_of_hasFloor hs
    (by rw [hoptions]; show 0 < (5.0 : ℝ); norm_num)
    (by rw [hoptions]; exact Nat.succ_pos 9999) hfloor h hroom
  exact ⟨t, h, hroom, hresult, hseen⟩

end Floors

/-- The specification with one variable. -/
noncomputable def single : Spec ℝ := (({ options := .default } : Spec ℝ).addVariable none).2

/-- A variable whose range is narrowed to start with five. -/
def narrowed : List (Operation ℝ) := [.addVariable none, .setLower ⟨⟨0, 0⟩⟩ 5]

/-- The end of the range is the floor. -/
theorem hasFloor_narrowed :
    (({ options := .default } : Spec ℝ).run narrowed).HasFloor ⟨⟨0, 0⟩⟩ 5 ∧
    (({ options := .default } : Spec ℝ).run narrowed).options = .default ∧
    ((({ options := .default } : Spec ℝ).run narrowed).getVariable? ⟨⟨0, 0⟩⟩).map (·.lower)
      = some 5 := by
  have hlower : decide ((Variable.defaultLower : ℝ) < 5) = true := by
    rw [decide_eq_true_iff]
    show (-20000.0 : ℝ) < 5
    norm_num
  have hupper : decide ((Variable.defaultUpper : ℝ) < Variable.defaultUpper) = false := by simp
  have hset : single.setLower ⟨⟨0, 0⟩⟩ 5
      = .ok (single.applyRange ⟨⟨0, 0⟩⟩ 5 Variable.defaultUpper) := by
    have hrange : isRange (5 : ℝ) Variable.defaultUpper = true := by
      show (!false && !false && !decide ((20000.0 : ℝ) < 5)) = true
      norm_num
    show (if isRange 5 Variable.defaultUpper = true then _ else _) = _
    rw [if_pos hrange]
    rfl
  have hrun : ({ options := .default } : Spec ℝ).run narrowed
      = single.applyRange ⟨⟨0, 0⟩⟩ 5 Variable.defaultUpper := by
    show (single.afterChange (single.setLower ⟨⟨0, 0⟩⟩ 5)).1 = _
    rw [hset]
    rfl
  rw [hrun]
  unfold applyRange
  rw [show single.getVariable? ⟨⟨0, 0⟩⟩ = some (Variable.fresh none false) from rfl, hlower]
  dsimp only [Variable.fresh]
  rw [hupper]
  exact ⟨⟨by norm_num, rfl, _, .fresh [⟨1, ⟨⟨0, 0⟩⟩⟩] .ge 5 0 0 (.bound ⟨⟨0, 0⟩⟩), rfl, rfl, rfl,
    rfl⟩, rfl, rfl⟩

/-- A variable from five on is asked for its size: it is not below five. -/
theorem size_respects_ranges_of_lower_end : ∃ (size : Size ℝ) (t : Spec ℝ),
    (({ options := .default } : Spec ℝ).run narrowed).perform (.minSize ⟨⟨0, 0⟩⟩ ⟨⟨0, 0⟩⟩)
      = (t, .size size) ∧ t.result = .optimal ∧ 5 - Scalar.tolerance < size.width := by
  obtain ⟨hfloor, hoptions, hlower⟩ := hasFloor_narrowed
  obtain ⟨t, h, hroom, hresult, hseen⟩ :=
    exists_minSize_of_hasFloor hoptions hfloor (show 2 ≤ 10 by decide)
  obtain ⟨v, hv, hslack⟩ := (isUserVariable_iff _ _).1 hfloor.user
  have hs : (({ options := .default } : Spec ℝ).run narrowed).Reachable :=
    reachable_run _ (show 16 ≤ UInt32.size by decide)
  have hperform := perform_minSize h
  obtain ⟨u, hu, hrange, -⟩ :=
    hs.size_respects_ranges (.inl rfl) hperform hroom hresult hv hslack hv hslack
  rw [hv] at hlower
  have hfive : v.lower = 5 := Option.some.inj hlower
  have hpinned := (sizeQuery_of_queried?_eq_some hu Size.zero).1
  obtain ⟨k, -, hkept⟩ := hrange.lower (by
    rw [hfive]
    show (-20000.0 : ℝ) < 5
    norm_num)
  rw [hfive, hpinned] at hkept
  exact ⟨_, t, hperform, hresult, hkept (hseen k)⟩

/-! ### A row that is passed over -/

section Overlooked

variable {α : Type} [Scalar α]

/-- How the query for the smallest size of one variable ends after a history of calls, with the
default options: the status, the width, and the upper end of the range. -/
def smallestSize? (history : List (Operation α)) (id : VariableId) : Option (ResultCode × α × α) :=
  match (({ options := .default } : Spec α).run history).minSize id id with
  | .ok (size, t) => (t.getVariable? id).map fun v => (t.result, size.width, v.upper)
  | .error _ => none

/-- A variable is `1e9`, another one is the ten-millionth part of it, and the range of that one is
narrowed to end with one. -/
def stretched : List (Operation α) :=
  [.addVariable none, .addVariable none, .addConstraint [1] [⟨⟨0, 0⟩⟩] .eq 1e9 0 0,
    .addConstraint [1, -1e-7] [⟨⟨1, 0⟩⟩, ⟨⟨0, 0⟩⟩] .eq 0 0 0, .setUpper ⟨⟨1, 0⟩⟩ 1]

/-- **The row of a bound constraint can be passed over**: the first pivot turns the row of the upper
end into `1e-7` times the other variable plus a slack, the ratio test does not look at so small an
entry, and the size `100` is reported as an optimum.  Rational numbers and those of the machine
agree on it. -/
theorem smallestSize_stretched :
    smallestSize? (stretched : List (Operation Float)) ⟨⟨1, 0⟩⟩ = some (.optimal, 100, 1) ∧
    smallestSize? (stretched : List (Operation ℚ)) ⟨⟨1, 0⟩⟩ = some (.optimal, 100, 1) := by
  constructor <;> decide +kernel

end Overlooked

/-- What a caller asks for beyond the default range. -/
noncomputable def demand : Constraint ℝ := .fresh [⟨1, ⟨⟨0, 0⟩⟩⟩] .ge 25000 0 0 .user

/-- A variable with that constraint. -/
def demanding : List (Operation ℝ) :=
  [.addVariable none, .addConstraint [1] [⟨⟨0, 0⟩⟩] .ge 25000 0 0]

/-- The constraint is the floor, and the range does not change. -/
theorem hasFloor_demanding :
    (({ options := .default } : Spec ℝ).run demanding).HasFloor ⟨⟨0, 0⟩⟩ 25000 ∧
    (({ options := .default } : Spec ℝ).run demanding).options = .default ∧
    ((({ options := .default } : Spec ℝ).run demanding).getVariable? ⟨⟨0, 0⟩⟩).map (·.upper)
      = some Variable.defaultUpper := by
  have hhard : demand.isSoft = false := by
    show (decide ((0 : ℝ) < 0) || decide ((0 : ℝ) < 0)) = false
    simp
  have hattach : (single.place demand).2.attach ⟨⟨0, 0⟩⟩ = (single.place demand).2 := by
    refine attach_of_not_softInequality (c := demand) rfl ?_
    unfold Constraint.isSoftInequality
    rw [hhard, Bool.false_and]
  have hadd : single.addConstraint [1] [⟨⟨0, 0⟩⟩] .ge 25000 0 0 = .ok (single.register demand) :=
    addConstraint_eq_ok rfl (fun id hid => by rw [List.mem_singleton.1 hid]; rfl) _ _ le_rfl le_rfl
  have hrun : ({ options := .default } : Spec ℝ).run demanding = (single.place demand).2 := by
    show (single.afterAddition (single.addConstraint [1] [⟨⟨0, 0⟩⟩] .ge 25000 0 0)).1 = _
    rw [hadd]
    exact hattach
  have hbinding : (single.place demand).2.bindingConstraints = [(⟨⟨0, 0⟩⟩, demand)] := by
    unfold bindingConstraints
    rw [show (single.place demand).2.constraintList = [(⟨⟨0, 0⟩⟩, demand)] from rfl,
      List.filter_singleton]
    unfold binds
    rw [show demand.role = .user from rfl, hhard]
    rfl
  rw [hrun]
  exact ⟨⟨by norm_num, rfl, _, demand, hbinding, rfl, rfl, rfl⟩, rfl, rfl⟩

/-- **The default ends of a range are no limits**: the smallest size that the constraints allow may
lie beyond them. -/
theorem size_may_leave_default_range : ¬∀ (s : Spec ℝ) (width height : VariableId)
    (v w : Variable ℝ) (size : Size ℝ) (t : Spec ℝ), s.Reachable →
      s.getVariable? width = some v → v.isSlack = false →
      s.getVariable? height = some w → w.isSlack = false →
      (s.minSize width height = .ok (size, t) ∨ s.maxSize width height = .ok (size, t)) →
      t.result = .optimal →
      (v.lower - Scalar.tolerance ≤ size.width ∧ size.width ≤ v.upper + Scalar.tolerance) ∧
      (w.lower - Scalar.tolerance ≤ size.height ∧ size.height ≤ w.upper + Scalar.tolerance) := by
  intro hclaim
  obtain ⟨hfloor, hoptions, hupper⟩ := hasFloor_demanding
  obtain ⟨t, h, hroom, hresult, -⟩ :=
    exists_minSize_of_hasFloor hoptions hfloor (show 2 ≤ 10 by decide)
  obtain ⟨v, hv, hslack⟩ := (isUserVariable_iff _ _).1 hfloor.user
  have hs : (({ options := .default } : Spec ℝ).run demanding).Reachable :=
    reachable_run _ (show 16 ≤ UInt32.size by decide)
  obtain ⟨⟨-, hbeyond⟩, -⟩ := hclaim _ _ _ v v _ t hs hv hslack hv hslack (.inl h) hresult
  rw [hv] at hupper
  rw [show v.upper = Variable.defaultUpper from Option.some.inj hupper, Scalar.tolerance_eq]
    at hbeyond
  have hfar : (25000 : ℝ) ≤ 20000.0 + 1 / 1000000 := hbeyond
  norm_num at hfar

end Spec

end ElasticLayout
